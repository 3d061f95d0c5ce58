import WorkQueue.Proofs.Ledger.Operations

/-!
# The committed offset never passes an open record

Entries end in any order, appends are refused, passes come at any moment and consumers are
forgotten. After every such history a pass takes off each queue exactly the longest front that may
be committed, so an entry whose outcome is open, and everything behind it, stays where it is.

An account keeps book of a history: beside the ledger it holds which entries have left the queues
and what passes and forgetting have told about their number. What has left is read off the queues
themselves, not off what the operations tell.

## Main definitions

* `Ledger.Action`, `Ledger.Account.after`: histories of a ledger
* `Ledger.SafePrefix`: what holds of a ledger at every moment

## Main statements

* `Ledger.safePrefix_after`: it holds after every history
-/

namespace WorkQueue

namespace Ledger

/-! ## Histories -/

/-- Something done to a ledger or to one of its entries. -/
inductive Action where
  | append (consumer : Nat) (record : Record)
  | transition (id : Nat) (next : EntryState)
  | pass
  | forget (consumer : Nat)

/-- A ledger, and what has become of the entries it has accepted. -/
structure Account where
  ledger : Ledger := empty
  /-- Number of appends accepted. -/
  accepted : Nat := 0
  /-- Entries that have left the queues by a pass. -/
  released : List Nat := []
  /-- Entries that have left the queues because their consumer was forgotten. -/
  forgotten : List Nat := []
  /-- The sum of what passes have told. -/
  releasedCount : Nat := 0
  /-- The sum of what forgetting has told. -/
  forgottenCount : Nat := 0

/-- Entries tracked before and not after. -/
def departed (before after : Ledger) : List Nat :=
  before.tracked.filter fun id => !after.tracked.contains id

namespace Account

/-- The account behind an action. -/
def act (a : Account) : Action → Account
  | .append consumer record =>
    match a.ledger.append consumer record with
    | .ok (_, ledger) => { a with ledger, accepted := a.accepted + 1 }
    | .error _ => a
  | .transition id next => { a with ledger := (a.ledger.transition id next).2 }
  | .pass =>
    let (plan, ledger) := a.ledger.collect
    { a with
      ledger
      released := a.released ++ departed a.ledger ledger
      releasedCount := a.releasedCount + plan.released }
  | .forget consumer =>
    let (count, ledger) := a.ledger.forget consumer
    { a with
      ledger
      forgotten := a.forgotten ++ departed a.ledger ledger
      forgottenCount := a.forgottenCount + count }

/-- The account behind a history. -/
def after (a : Account) (actions : List Action) : Account := actions.foldl act a

end Account

/-- States that do not let a record be committed. -/
def openStates : List EntryState := [.queued, .executing, .canceled]

/-- States that let a record be committed. -/
def releasableStates : List EntryState := [.success, .skipped, .failure]

/-- What holds of a ledger at every moment of its history. -/
structure SafePrefix (a : Account) : Prop where
  /-- A pass takes a front off every queue. All of it may be committed, and the entry behind it may
  not. Its last offset is what the pass reports for the queue. -/
  longest_front : ∀ key, ∃ front,
    a.ledger.queue key = front ++ a.ledger.collect.2.queue key ∧
    (∀ id ∈ front, a.ledger.stateOf id ∈ releasableStates) ∧
    (∀ id, (a.ledger.collect.2.queue key).head? = some id →
      a.ledger.stateOf id ∈ openStates) ∧
    ∀ offset, (key, offset) ∈ a.ledger.collect.1.reports ↔
      ∃ id, front.getLast? = some id ∧ a.ledger.offsetOf id = offset
  /-- A pass reports a queue at most once. -/
  reported_once : (a.ledger.collect.1.reports.map (·.1)).Nodup
  /-- An entry whose outcome is open lies behind the offset reported for its queue. -/
  open_behind_report : ∀ key offset, (key, offset) ∈ a.ledger.collect.1.reports →
    ∀ id ∈ a.ledger.queue key, a.ledger.stateOf id ∈ openStates → offset < a.ledger.offsetOf id
  /-- A canceled entry and everything behind it stay in their queue until it is forgotten. -/
  canceled_stays : ∀ key front id behind, a.ledger.queue key = front ++ id :: behind →
    a.ledger.stateOf id = .canceled →
    ∀ more, Action.forget key.consumer ∉ more →
      (a.after more).ledger.stateOf id = .canceled ∧
      ∃ front' added, (a.after more).ledger.queue key = front' ++ id :: behind ++ added
  /-- Every accepted entry is tracked, or was released, or was forgotten, and only one of these,
  and once. -/
  one_group : List.Perm (a.ledger.tracked ++ a.released ++ a.forgotten) (List.range a.accepted)
  /-- What passes, the ledger and forgetting tell adds up to the appends accepted. -/
  counts_add_up : a.releasedCount + a.ledger.pending + a.forgottenCount = a.accepted
  /-- A refused append changes nothing; in particular its queue was there before. -/
  refused_unchanged : ∀ consumer record e, a.ledger.append consumer record = .error e →
    a.act (.append consumer record) = a ∧
      ∃ tail ∈ a.ledger.queue ⟨consumer, record.partition⟩,
        record.offset ≤ a.ledger.offsetOf tail
  /-- A pass behind a pass releases nothing, whatever is forgotten in between. -/
  second_pass_idle : ∀ consumers : List Nat,
    let again := ((a.act .pass).after (consumers.map .forget)).ledger.collect.1
    again.released = 0 ∧ again.offsets = []

/-! ## Bookkeeping -/

theorem mem_openStates_iff {s : EntryState} : s ∈ openStates ↔ ¬ s.isCommittable = true := by
  cases s <;> simp [openStates, EntryState.isCommittable]

theorem mem_releasableStates_iff {s : EntryState} :
    s ∈ releasableStates ↔ s.isCommittable = true := by
  cases s <;> simp [releasableStates, EntryState.isCommittable]

/-- What has departed is what an operation says it took, since nothing is tracked twice. -/
theorem perm_departed {before after : Ledger} {gone : List Nat} (h : Tidy before)
    (hperm : List.Perm before.tracked (gone ++ after.tracked)) :
    List.Perm (departed before after) gone := by
  have hdisjoint := (List.nodup_append.mp (hperm.nodup_iff.mp h.nodup_tracked)).2.2
  have hgone : gone.filter (fun id => !after.tracked.contains id) = gone := by
    rw [List.filter_eq_self]
    intro id hid
    simpa using fun hmem => hdisjoint id hid id hmem rfl
  have hkept : after.tracked.filter (fun id => !after.tracked.contains id) = [] := by
    simp
  calc departed before after
      = before.tracked.filter fun id => !after.tracked.contains id := rfl
    List.Perm _ ((gone ++ after.tracked).filter fun id => !after.tracked.contains id) :=
      hperm.filter _
    _ = gone := by rw [List.filter_append, hgone, hkept, List.append_nil]

/-- What departs and what stays is what was tracked before. -/
theorem perm_tracked_departed {before after : Ledger} {gone : List Nat} (h : Tidy before)
    (hperm : List.Perm before.tracked (gone ++ after.tracked)) :
    List.Perm before.tracked (departed before after ++ after.tracked) :=
  hperm.trans ((perm_departed h hperm).symm.append_right _)

/-- An account is sound if its ledger is tidy and its groups and counts cover what was accepted. -/
structure Account.Sound (a : Account) : Prop where
  tidy : Tidy a.ledger
  size_eq : a.ledger.entries.size = a.accepted
  one_group : List.Perm (a.ledger.tracked ++ a.released ++ a.forgotten) (List.range a.accepted)
  released_length : a.released.length = a.releasedCount
  forgotten_length : a.forgotten.length = a.forgottenCount

namespace Account.Sound

theorem start : Sound {} where
  tidy := tidy_empty
  size_eq := rfl
  one_group := List.Perm.refl _
  released_length := rfl
  forgotten_length := rfl

variable {a : Account}

/-- Every action keeps an account sound. -/
theorem act (h : Sound a) (action : Action) : Sound (a.act action) := by
  cases action with
  | append consumer record =>
    cases happ : a.ledger.append consumer record with
    | error e => simpa [Account.act, happ] using h
    | ok accepted =>
      obtain ⟨id, ledger⟩ := accepted
      obtain ⟨hlast, -, rfl⟩ := append_eq_ok_iff.mp happ
      simp only [Account.act, happ]
      refine ⟨h.tidy.track hlast, by simp [h.size_eq], ?_, h.released_length,
        h.forgotten_length⟩
      have hgroups := List.perm_iff_count.mp h.one_group
      -- the new entry has the next number, and the groups of the others stay
      apply List.perm_iff_count.mpr
      intro j
      have htracked : List.Perm (a.ledger.track consumer record).tracked
          (a.ledger.entries.size :: a.ledger.tracked) := perm_tracked_append
      have hnew := List.perm_iff_count.mp htracked j
      have hold := hgroups j
      rw [h.size_eq, List.count_cons] at hnew
      rw [List.range_succ]
      simp only [List.count_append, List.count_singleton] at hold hnew ⊢
      omega
  | transition id next =>
    refine ⟨h.tidy.transition id next, by simp [Account.act, h.size_eq], ?_, h.released_length,
      h.forgotten_length⟩
    simpa [Account.act, tracked] using h.one_group
  | pass =>
    have hgone : List.Perm (departed a.ledger a.ledger.collect.2) a.ledger.front :=
      perm_departed h.tidy perm_tracked_collect
    refine ⟨h.tidy.collect, h.size_eq, ?_, ?_, h.forgotten_length⟩
    -- what has departed goes over from the tracked entries to the released ones
    · apply List.perm_iff_count.mpr
      intro j
      have hsplit := List.perm_iff_count.mp (perm_tracked_departed h.tidy perm_tracked_collect) j
      have hold := List.perm_iff_count.mp h.one_group j
      simp only [Account.act, List.count_append] at hold hsplit ⊢
      omega
    · show (a.released ++ departed a.ledger a.ledger.collect.2).length = _
      rw [List.length_append, hgone.length_eq, h.released_length]
      rfl
  | forget consumer =>
    have hgone : List.Perm (departed a.ledger (a.ledger.forget consumer).2)
        (a.ledger.held consumer) := perm_departed h.tidy (perm_tracked_forget consumer)
    refine ⟨h.tidy.forget consumer, h.size_eq, ?_, h.released_length, ?_⟩
    · apply List.perm_iff_count.mpr
      intro j
      have hsplit := List.perm_iff_count.mp
        (perm_tracked_departed h.tidy (perm_tracked_forget consumer)) j
      have hold := List.perm_iff_count.mp h.one_group j
      simp only [Account.act, List.count_append] at hold hsplit ⊢
      omega
    · show (a.forgotten ++ departed a.ledger (a.ledger.forget consumer).2).length = _
      rw [List.length_append, hgone.length_eq, h.forgotten_length, ← count_forget]
      rfl

/-- Whatever has been accepted has been released, is tracked or has been forgotten. -/
theorem counts_add_up (h : Sound a) :
    a.releasedCount + a.ledger.pending + a.forgottenCount = a.accepted := by
  have hlength := h.one_group.length_eq
  rw [List.length_append, List.length_append, h.released_length, h.forgotten_length,
    List.length_range] at hlength
  have hpending : a.ledger.pending = a.ledger.tracked.length := rfl
  omega

end Account.Sound

theorem Account.Sound.after {a : Account} (h : Account.Sound a) (actions : List Action) :
    Account.Sound (a.after actions) := by
  induction actions generalizing a with
  | nil => exact h
  | cons action rest ih => exact ih (h.act action)

/-! ## Fronts -/

variable {l : Ledger}

/-- Behind its longest committable front, a queue begins with an entry that may not be
committed. -/
theorem head?_dropWhile_committable {ids : List Nat} {id : Nat}
    (h : (ids.dropWhile l.committable).head? = some id) : l.stateOf id ∈ openStates := by
  have hnot := List.head?_dropWhile_not l.committable ids
  rw [h] at hnot
  rw [mem_openStates_iff]
  simpa [committable] using hnot

theorem Tidy.longest_front (h : Tidy l) (key : LedgerKey) :
    ∃ front, l.queue key = front ++ l.collect.2.queue key ∧
      (∀ id ∈ front, l.stateOf id ∈ releasableStates) ∧
      (∀ id, (l.collect.2.queue key).head? = some id → l.stateOf id ∈ openStates) ∧
      ∀ offset, (key, offset) ∈ l.collect.1.reports ↔
        ∃ id, front.getLast? = some id ∧ l.offsetOf id = offset := by
  refine ⟨(l.queue key).takeWhile l.committable, ?_, ?_, ?_, fun offset => ?_⟩
  · rw [queue_collect h, List.takeWhile_append_dropWhile]
  · intro id hid
    have hcommittable : l.committable id = true := List.mem_takeWhile_imp hid
    exact mem_releasableStates_iff.mpr hcommittable
  · intro id hid
    rw [queue_collect h] at hid
    exact head?_dropWhile_committable hid
  · exact mem_reports_collect h

/-- What a pass reports for a queue lies in front of every entry whose outcome is open. -/
theorem Tidy.open_behind_report (h : Tidy l) {key : LedgerKey} {offset : Int}
    (hreport : (key, offset) ∈ l.collect.1.reports) {id : Nat} (hid : id ∈ l.queue key)
    (hopen : l.stateOf id ∈ openStates) : offset < l.offsetOf id :=
  lt_of_mem_reports h hreport hid (mem_openStates_iff.mp hopen)

/-! ## Canceled entries -/

/-- A canceled entry and everything behind it stay in their queue in every action but the
forgetting of their consumer. Only the part in front of it can shrink, and only the end grow. -/
theorem Account.act_canceled {a : Account} (h : Sound a) {key : LedgerKey} {front behind : List Nat}
    {id : Nat} (hqueue : a.ledger.queue key = front ++ id :: behind)
    (hstate : a.ledger.stateOf id = .canceled) {action : Action}
    (hkeep : action ≠ .forget key.consumer) :
    (a.act action).ledger.stateOf id = .canceled ∧
      ∃ front' added, (a.act action).ledger.queue key = front' ++ id :: (behind ++ added) := by
  have hmem : id ∈ a.ledger.queue key := by simp [hqueue]
  cases action with
  | append consumer record =>
    cases happ : a.ledger.append consumer record with
    | error e => exact ⟨by simp [act, happ, hstate], front, [], by simp [act, happ, hqueue]⟩
    | ok accepted =>
      obtain ⟨new, ledger⟩ := accepted
      obtain ⟨-, -, rfl⟩ := append_eq_ok_iff.mp happ
      have hlt := h.tidy.lt_of_mem_tracked (h.tidy.mem_tracked_iff.mpr ⟨key, hmem⟩)
      refine ⟨by simp [act, happ, stateOf_track_of_lt hlt, hstate], front, ?_⟩
      by_cases hkey : key = ⟨consumer, record.partition⟩
      · refine ⟨[a.ledger.entries.size], ?_⟩
        simp only [act, happ, queue_append h.tidy]
        rw [if_pos hkey, hqueue]
        simp
      · refine ⟨[], ?_⟩
        simp only [act, happ, queue_append h.tidy]
        rw [if_neg hkey, hqueue]
        simp
  | transition j next =>
    -- canceled is terminal, so no transition leads out of it
    refine ⟨?_, front, [], by simp [act, hqueue]⟩
    show (a.ledger.transition j next).2.stateOf id = .canceled
    rw [stateOf_transition_of_isTerminal (by rw [hstate]; rfl), hstate]
  | pass =>
    have hopen : a.ledger.committable id = false := by simp [committable, hstate,
      EntryState.isCommittable]
    refine ⟨hstate, front.dropWhile a.ledger.committable, [], ?_⟩
    show a.ledger.collect.2.queue key = _
    -- a pass stops at the canceled entry at the latest
    rw [queue_collect h.tidy, hqueue, List.dropWhile_append]
    cases hdrop : front.dropWhile a.ledger.committable with
    | nil => simp [hopen]
    | cons j rest => simp
  | forget consumer =>
    have hne : key.consumer ≠ consumer := fun heq => hkeep (by rw [heq])
    refine ⟨hstate, front, [], ?_⟩
    show (a.ledger.forget consumer).2.queue key = _
    rw [queue_forget h.tidy, if_neg hne, hqueue]
    simp

theorem Account.after_canceled {a : Account} (h : Sound a) {key : LedgerKey}
    {front behind : List Nat} {id : Nat} (hqueue : a.ledger.queue key = front ++ id :: behind)
    (hstate : a.ledger.stateOf id = .canceled) {more : List Action}
    (hkeep : Action.forget key.consumer ∉ more) :
    (a.after more).ledger.stateOf id = .canceled ∧
      ∃ front' added, (a.after more).ledger.queue key = front' ++ id :: behind ++ added := by
  -- `behind` grows along the history, so it is general in the induction.
  induction more generalizing a front behind with
  | nil => exact ⟨hstate, front, [], by simp [after, hqueue]⟩
  | cons action rest ih =>
    rw [List.mem_cons, not_or] at hkeep
    obtain ⟨hstate', front', added, hqueue'⟩ := act_canceled h hqueue hstate (Ne.symm hkeep.1)
    obtain ⟨hend, front'', added', hqueue''⟩ := ih (h.act action) hqueue' hstate' hkeep.2
    exact ⟨hend, front'', added ++ added', by
      show ((a.act action).after rest).ledger.queue key = _
      simp [hqueue'']⟩

/-! ## A second pass -/

/-- No queue begins with an entry that may be committed. -/
def Stalled (l : Ledger) : Prop := ∀ q ∈ l.queues, q.2.takeWhile l.committable = []

theorem stalled_collect : Stalled l.collect.2 := by
  intro q' hq'
  obtain ⟨q, -, hrem⟩ := List.mem_filterMap.mp hq'
  rw [(remaining?_eq_some hrem).2.1]
  -- a pass changes no state, so what it leaves begins with an open entry still
  cases hdrop : q.2.dropWhile l.committable with
  | nil => rfl
  | cons id rest =>
    have hhead : (q.2.dropWhile l.committable).head? = some id := by rw [hdrop]; rfl
    have hopen := head?_dropWhile_committable hhead
    rw [mem_openStates_iff] at hopen
    simp [committable, hopen]

theorem Stalled.takeWhile_queue (h : Stalled l) (htidy : Tidy l) (key : LedgerKey) :
    (l.queue key).takeWhile l.committable = [] := by
  cases hqueue : l.queue key with
  | nil => rfl
  | cons id rest =>
    have hmem := htidy.mem_queues (hqueue ▸ List.mem_cons_self : id ∈ l.queue key)
    rw [← hqueue]
    exact h _ hmem

theorem Stalled.forget (h : Stalled l) (consumer : Nat) : Stalled (l.forget consumer).2 := by
  intro q hq
  rw [queues_forget] at hq
  exact h q (List.mem_filter.mp hq).1

theorem Stalled.collect_idle (h : Stalled l) :
    l.collect.1.released = 0 ∧ l.collect.1.offsets = [] := by
  constructor
  · rw [released_collect, List.length_eq_zero_iff, front, List.flatMap_eq_nil_iff]
    exact h
  · have hnone : l.queues.filterMap l.released? = [] := by
      rw [List.filterMap_eq_nil_iff]
      intro q hq
      simp [released?, h q hq]
    simp [collect, hnone, groupByConsumer]

theorem stalled_of_released (h : l.collect.1.released = 0) : Stalled l := by
  rw [released_collect, List.length_eq_zero_iff, front, List.flatMap_eq_nil_iff] at h
  exact h

/-- A pass that releases nothing leaves everything as it is. -/
theorem Stalled.collect_eq (h : Stalled l) (htidy : Tidy l) : l.collect.2 = l := by
  have hstays : ∀ q ∈ l.queues, l.remaining? q = some q := by
    intro q hq
    have hsplit := List.takeWhile_append_dropWhile (p := l.committable) (l := q.2)
    rw [h q hq, List.nil_append] at hsplit
    unfold remaining?
    rw [hsplit]
    split
    · next hnil => exact absurd hnil (htidy.queue_ne_nil q hq)
    · rfl
  have hqueues : l.queues.filterMap l.remaining? = l.queues := by
    rw [List.filterMap_congr hstays, List.filterMap_some]
  show { l with queues := l.queues.filterMap l.remaining? } = l
  rw [hqueues]

theorem Account.stalled_after_forgets {a : Account} (h : Stalled a.ledger) (consumers : List Nat) :
    Stalled (a.after (consumers.map .forget)).ledger := by
  induction consumers generalizing a with
  | nil => exact h
  | cons consumer rest ih => exact ih (h.forget consumer)

/-! ## Main theorem -/

/-- **Safe prefix.** After every history of an empty ledger, of any length and in any order, a pass
releases the longest committable front of every queue and reports its end; entries whose outcome
is open stay behind what is reported; and every accepted entry is accounted for once. -/
theorem safePrefix_after (actions : List Action) : SafePrefix (Account.after {} actions) := by
  have h : Account.Sound (Account.after {} actions) := Account.Sound.start.after actions
  exact
    { longest_front := h.tidy.longest_front
      reported_once := nodup_reports_collect h.tidy
      open_behind_report := fun _ _ hreport _ hid hopen =>
        h.tidy.open_behind_report hreport hid hopen
      canceled_stays := fun _ _ _ _ hqueue hstate _ hkeep =>
        Account.after_canceled h hqueue hstate hkeep
      one_group := h.one_group
      counts_add_up := h.counts_add_up
      refused_unchanged := fun consumer record e he =>
        ⟨by simp [Account.act, he], append_eq_error he⟩
      second_pass_idle := fun consumers =>
        (Account.stalled_after_forgets stalled_collect consumers).collect_idle }

end Ledger

end WorkQueue
