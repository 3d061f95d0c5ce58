import WorkQueue.Proofs.Queue.Accounting
import WorkQueue.Proofs.Queue.Membership

/-!
# Entries in flight

Any number of queues work side by side, and their runs are started, canceled and torn down at any
moment. The account of every run is kept through all of this, and with it the number of entries that
a run has in flight.

## Main definitions

* `System.account`: what a run has done in a number of moves
* `System.Booked`: the invariant

## Main statements

* `System.Booked.after`: whatever happens keeps all accounts
* `System.in_flight_le`: no more entries are in flight than there are permits
-/

namespace WorkQueue

namespace System

variable {σ : Type}

/-! ## Accounts of runs -/

section

variable [LogStore σ]

/-- What a move adds to the account of a run of a queue. -/
def accountOf (q i : Nat) (sys : System σ) : Move σ → Account
  | .step p =>
    if (p.queue, p.run) = (q, i) then
      match sys.scene? q i with
      | none => {}
      | some s => ((s.step? sys.jitter p.process).map s.account).getD {}
    else {}
  | _ => {}

/-- What a run has done in a number of moves. -/
def account (q i : Nat) : System σ → List (Move σ) → Account
  | _, [] => {}
  | sys, m :: rest => sys.accountOf q i m ++ account q i (sys.next m) rest

end

/-! ## Scenes -/

variable {sys : System σ} {s s' t : Scene σ} {q i j : Nat}

/-- All runs of a queue share it. -/
theorem queue_eq_of_scene? (hs : sys.scene? q i = some s) (ht : sys.scene? q j = some t) :
    t.queue = s.queue := by
  obtain ⟨slot, r, hslot, -, rfl⟩ := scene?_eq_some_iff.mp hs
  obtain ⟨slot', r', hslot', -, rfl⟩ := scene?_eq_some_iff.mp ht
  rw [hslot] at hslot'
  obtain rfl := Option.some.inj hslot'
  rfl

/-- Putting a run back neither takes one away nor adds one. -/
theorem isSome_scene?_restore {q' i' : Nat} :
    ((sys.restore q i s').scene? q' i').isSome = (sys.scene? q' i').isSome := by
  simp only [scene?, restore, Array.getElem?_modify]
  cases sys.slots[q']? with
  | none => simp
  | some slot =>
    by_cases hq : q = q'
    · simp only [if_pos hq, Option.map_some, Array.getElem?_setIfInBounds]
      by_cases hi : i = i'
      · by_cases hlt : i' < slot.runs.size <;> simp [hi, hlt]
      · simp only [if_neg hi]
        cases slot.runs[i']? <;> rfl
    · simp only [if_neg hq]
      cases slot.runs[i']? <;> rfl

/-- Starting a run takes none away. -/
theorem scene?_start {q' : Nat} (hs : sys.scene? q i = some s) :
    (sys.start q').scene? q i = some s := by
  obtain ⟨slot, r, hslot, hr, rfl⟩ := scene?_eq_some_iff.mp hs
  by_cases hq : q' = q
  · have hr' : (slot.runs.push {})[i]? = some r := by
      obtain ⟨hlt, rfl⟩ := Array.getElem?_eq_some_iff.mp hr
      exact Array.getElem?_push_lt hlt
    refine scene?_eq_some_iff.mpr ⟨{ slot with runs := slot.runs.push {} }, r, ?_, hr', rfl⟩
    simp [System.start, Array.getElem?_modify, hq, hslot]
  · refine scene?_eq_some_iff.mpr ⟨slot, r, ?_, hr, rfl⟩
    simp [System.start, Array.getElem?_modify, hq, hslot]

/-! ## The invariant -/

/-- Every run has its account, and every entry its run. -/
structure Booked (sys : System σ) (given : Nat → Nat → Account) : Prop where
  kept : ∀ q i s, sys.scene? q i = some s → s.run.Kept s.queue (given q i)
  apart : ∀ q i j, i ≠ j → ∀ id ∈ (given q i).entered, id ∉ (given q j).entered
  unbegun : ∀ q i, sys.scene? q i = none → given q i = {}

namespace Booked

variable {given given' : Nat → Nat → Account}

/-- All entries of all runs of a queue are in its ledger. -/
theorem inside (h : sys.Booked given) (hs : sys.scene? q i = some s) (j : Nat) :
    ∀ id ∈ (given q j).entered, id < s.queue.ledger.entries.size := by
  intro id hid
  cases ht : sys.scene? q j with
  | none =>
    rw [h.unbegun q j ht] at hid
    exact absurd hid List.not_mem_nil
  | some t =>
    rw [← queue_eq_of_scene? hs ht]
    exact (h.kept q j t ht).inside id hid

/-- A run goes on. The entries that it appends are new. -/
theorem restore (h : sys.Booked given) (hs : sys.scene? q i = some s) {a : Account}
    (hkept : s'.run.Kept s'.queue (given q i ++ a))
    (hkeeps : ∀ j, j ≠ i → s.queue.Keeps (given q j).entered s'.queue)
    (hnew : ∀ id ∈ a.entered, s.queue.ledger.entries.size ≤ id) (hself : given' q i = given q i ++ a)
    (hothers : ∀ q' j, (q', j) ≠ (q, i) → given' q' j = given q' j) :
    (sys.restore q i s').Booked given' := by
  constructor
  case kept =>
    intro q' j t' ht'
    rcases scene?_restore_cases hs ht' with ⟨heq, rfl⟩ | ⟨hne, t, ht, hrun, -, hqueue⟩
    · obtain ⟨rfl, rfl⟩ := Prod.mk.inj heq
      rw [hself]
      exact hkept
    · rw [hothers q' j hne, hrun]
      rcases hqueue with ⟨rfl, hbefore, hafter⟩ | ⟨-, hother⟩
      · have hj : j ≠ i := fun heq => hne (by rw [heq])
        rw [hafter]
        refine (h.kept q' j t ht).queue ?_
        rw [hbefore]
        exact hkeeps j hj
      · rw [hother]
        exact h.kept q' j t ht
  case apart =>
    -- what is new is behind everything that other runs have appended
    have hbeside : ∀ j, j ≠ i → ∀ id ∈ (given' q i).entered, id ∉ (given' q j).entered := by
      intro j hj id hid
      rw [hothers q j fun heq => hj (Prod.mk.inj heq).2]
      rw [hself, Account.entered_append] at hid
      rcases List.mem_append.mp hid with hold | hadded
      · exact h.apart q i j hj.symm id hold
      · exact fun hmem => absurd (h.inside hs j id hmem) (Nat.not_lt.mpr (hnew id hadded))
    intro q' j j' hne id hid hid'
    by_cases hj : (q', j) = (q, i)
    · obtain ⟨rfl, rfl⟩ := Prod.mk.inj hj
      exact hbeside j' hne.symm id hid hid'
    · by_cases hj' : (q', j') = (q, i)
      · obtain ⟨rfl, rfl⟩ := Prod.mk.inj hj'
        exact hbeside j hne id hid' hid
      · rw [hothers q' j hj] at hid
        rw [hothers q' j' hj'] at hid'
        exact h.apart q' j j' hne id hid hid'
  case unbegun =>
    intro q' j hnone
    have hnone' : sys.scene? q' j = none := by
      rw [← Option.isNone_iff_eq_none, ← Option.not_isSome] at hnone ⊢
      rwa [isSome_scene?_restore] at hnone
    rw [hothers q' j fun heq => ?_]
    · exact h.unbegun q' j hnone'
    · obtain ⟨rfl, rfl⟩ := Prod.mk.inj heq
      rw [hs] at hnone'
      cases hnone'

/-- A run changes without doing anything. -/
theorem rest (h : sys.Booked given) (hs : sys.scene? q i = some s) (hqueue : s'.queue = s.queue)
    (hkept : s'.run.Kept s'.queue (given q i)) : (sys.restore q i s').Booked given := by
  have hkept' : s'.run.Kept s'.queue (given q i ++ {}) := by rwa [Account.append_empty]
  refine h.restore hs hkept' (fun j _ => ?_) ?_ (Account.append_empty _).symm fun _ _ _ => rfl
  · rw [hqueue]
    exact .refl _ _
  · exact fun id hid => absurd hid List.not_mem_nil

/-- The cluster changes. -/
theorem cluster (h : sys.Booked given) (cluster : Cluster σ) :
    { sys with cluster }.Booked given where
  kept q i t ht := by
    obtain ⟨slot, r, hslot, hr, rfl⟩ := scene?_eq_some_iff.mp ht
    exact h.kept q i ⟨sys.cluster, slot.queue, r⟩
      (scene?_eq_some_iff.mpr ⟨slot, r, hslot, hr, rfl⟩)
  apart := h.apart
  unbegun q i hnone := by
    refine h.unbegun q i (Option.eq_none_iff_forall_ne_some.mpr fun t ht => ?_)
    obtain ⟨slot, r, hslot, hr, rfl⟩ := scene?_eq_some_iff.mp ht
    have hnew : System.scene? { sys with cluster } q i = some ⟨cluster, slot.queue, r⟩ :=
      scene?_eq_some_iff.mpr ⟨slot, r, hslot, hr, rfl⟩
    rw [hnew] at hnone
    cases hnone

/-! ### Moves -/

/-- A run is started. It has done nothing yet. -/
theorem start (h : sys.Booked given) (q : Nat) : (sys.start q).Booked given where
  kept q' i t ht := by
    rcases scene?_start_cases ht with hold | ⟨hnone, hnew⟩
    · exact h.kept q' i t hold
    · rw [hnew, h.unbegun q' i hnone]
      exact .unused _
  apart := h.apart
  unbegun q' i hnone := by
    refine h.unbegun q' i (Option.eq_none_iff_forall_ne_some.mpr fun t ht => ?_)
    rw [scene?_start ht] at hnone
    cases hnone

/-- The latest run of a queue changes. -/
theorem onLatest (h : sys.Booked given) (q : Nat) {change : Scene σ → Scene σ}
    (hqueue : ∀ s, (change s).queue = s.queue)
    (hchange : ∀ i s, sys.scene? q i = some s →
      (change s).run.Kept (change s).queue (given q i)) : (sys.onLatest q change).Booked given := by
  unfold System.onLatest
  split
  · exact h
  · next i _ =>
    split
    · exact h
    · next s hs => exact h.rest hs (hqueue s) (hchange i s hs)

variable [LogStore σ]

/-- A process takes a step, and the account of its run goes on. -/
theorem step (h : sys.Booked given) (p : ProcessId) : (sys.next (.step p)).Booked fun q i =>
    given q i ++ sys.accountOf q i (.step p) := by
  have hothers : ∀ q i, (q, i) ≠ (p.queue, p.run) → sys.accountOf q i (.step p) = {} :=
    fun q i hne => if_neg hne.symm
  have hself : sys.accountOf p.queue p.run (.step p) = match sys.scene? p.queue p.run with
      | none => {}
      | some s => ((s.step? sys.jitter p.process).map s.account).getD {} := if_pos rfl
  -- a step that is not possible adds nothing to any account
  have hwaits (hnone : sys.accountOf p.queue p.run (.step p) = {}) :
      sys.Booked fun q i => given q i ++ sys.accountOf q i (.step p) := by
    have hsame : ∀ q i, given q i ++ sys.accountOf q i (.step p) = given q i := by
      intro q i
      by_cases heq : (q, i) = (p.queue, p.run)
      · obtain ⟨rfl, rfl⟩ := Prod.mk.inj heq
        rw [hnone, Account.append_empty]
      · rw [hothers q i heq, Account.append_empty]
    simpa only [hsame] using h
  simp only [System.next, move?, System.step?]
  cases hs : sys.scene? p.queue p.run with
  | none =>
    rw [hs] at hself
    exact hwaits hself
  | some s =>
    rw [hs] at hself
    dsimp only at hself ⊢
    cases hstep : s.step? sys.jitter p.process with
    | none =>
      rw [hstep] at hself
      exact hwaits hself
    | some s' =>
      rw [hstep] at hself
      have hkept := (h.kept _ _ s hs).step hstep
      refine h.restore hs hkept (fun j hj => ?_) ?_ (congrArg _ hself) fun q' j hne => ?_
      · refine Scene.keeps_of_step? hstep (h.inside hs j) fun id hid => ?_
        exact h.apart _ _ j hj.symm id ((h.kept _ _ s hs).mem_of_open hid)
      · intro id hid
        exact (List.mem_range'_1.mp hid).1
      · rw [hothers q' j hne, Account.append_empty]

/-- Whatever happens, all accounts are kept. -/
theorem next (h : sys.Booked given) (m : Move σ) : (sys.next m).Booked fun q i =>
    given q i ++ sys.accountOf q i m := by
  cases m with
  | step p => exact h.step p
  | pass timers memberships =>
    simp only [accountOf, Account.append_empty]
    exact h.cluster _
  | start q =>
    simp only [accountOf, Account.append_empty]
    exact h.start q
  | cancel q =>
    simp only [accountOf, Account.append_empty]
    refine h.onLatest q (fun _ => rfl) fun i s hs => ?_
    exact (h.kept q i s hs).congr rfl rfl rfl
  | abort q =>
    simp only [accountOf, Account.append_empty]
    exact h.onLatest q Scene.queue_abort fun i s hs => (h.kept q i s hs).abort
  | outside operation =>
    simp only [accountOf, Account.append_empty]
    exact h.cluster _

/-- The accounts are kept behind any number of moves. -/
theorem after (h : sys.Booked given) (moves : List (Move σ)) : (sys.after moves).Booked fun q i =>
    given q i ++ sys.account q i moves := by
  induction moves generalizing sys given with
  | nil =>
    simp only [account, Account.append_empty]
    exact h
  | cons m rest ih =>
    have hrest := ih (h.next m)
    simp only [Account.append_assoc] at hrest
    exact hrest

end Booked

variable [LogStore σ]

/-- No run has been started. -/
def Unused (sys : System σ) : Prop := ∀ slot ∈ sys.slots, slot.runs = #[]

omit [LogStore σ] in
theorem Unused.booked (h : sys.Unused) : sys.Booked fun _ _ => {} where
  kept q i s hs := by
    obtain ⟨slot, r, hslot, hr, -⟩ := scene?_eq_some_iff.mp hs
    rw [h slot (Array.mem_of_getElem? hslot)] at hr
    cases hr
  apart _ _ _ _ _ hid := absurd hid List.not_mem_nil
  unbegun _ _ _ := rfl

theorem Unused.kept (h : sys.Unused) {moves : List (Move σ)}
    (hs : (sys.after moves).scene? q i = some s) :
    s.run.Kept s.queue (sys.account q i moves) :=
  (h.booked.after moves).kept q i s hs

/-! ## Entries in flight -/

/-- Of the entries that a run has appended, at any moment no more are in execution than it has
permits, and no more than one besides are open, whatever has happened to it. Once it has returned,
none is open. -/
theorem in_flight_le (h : sys.Unused) {moves : List (Move σ)}
    (hs : (sys.after moves).scene? q i = some s) :
    (sys.account q i moves).entered.countP (fun id => s.queue.ledger.stateOf id = .executing) ≤
        s.queue.config.maxParallelTasks ∧
      (sys.account q i moves).entered.countP (fun id => !(s.queue.ledger.stateOf id).isTerminal) ≤
        s.queue.config.maxParallelTasks + 1 ∧
      (s.run.Returned →
        ∀ id ∈ (sys.account q i moves).entered, (s.queue.ledger.stateOf id).isTerminal = true) := by
  have hkept := h.kept hs
  refine ⟨hkept.executing_le, hkept.open_le, fun hreturned => ?_⟩
  obtain ⟨settled, haccounted⟩ := hkept.accounted hreturned
  exact haccounted.isTerminal_of_returned hreturned

/-- A run that executes one task at a time, with one task in execution and one that waits. -/
theorem in_flight_crowded :
    ∃ s ∈ (crowded.after crowding).scene? 0 0,
      (crowded.account 0 0 crowding).entered.countP
          (fun id => s.queue.ledger.stateOf id = .executing) ≤ s.queue.config.maxParallelTasks ∧
        s.queue.ledger.stateOf 0 = .executing ∧ s.queue.ledger.stateOf 1 = .queued ∧
        (crowded.account 0 0 crowding).entered = [0, 1] := by
  have hs : ∃ s ∈ (crowded.after crowding).scene? 0 0,
      s.queue.ledger.stateOf 0 = .executing ∧ s.queue.ledger.stateOf 1 = .queued ∧
        (crowded.account 0 0 crowding).entered = [0, 1] := by decide +kernel
  obtain ⟨s, hs, hstates⟩ := hs
  have hunused : crowded.Unused := by simp [Unused, crowded]
  exact ⟨s, hs, (in_flight_le hunused hs).1, hstates⟩

end System

end WorkQueue
