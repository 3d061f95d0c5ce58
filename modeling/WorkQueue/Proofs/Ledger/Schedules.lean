import Mathlib.Data.List.Induction
import WorkQueue.Proofs.Ledger.Appended
import WorkQueue.Proofs.Ledger.SafePrefix

/-!
# The order of completions does not matter

The same records can be appended and their entries come to the same ends in many orders, with commit
passes at any moments in between. What a pass takes off a queue early is a front that may be
committed, and such states are final, so the pass at the end would have released it anyway. Behind
that pass every queue is split at its first open entry, wherever it has been split before, and also
if it has been emptied and begun anew.

## Main definitions

* `Ledger.arrivals`, `Ledger.movesOf`: what a history appends, and where it moves an entry to
* `Ledger.Schedule`: histories that append the same records and lead to the same final states
* `Ledger.contents`: the queues with their entries, whatever numbers these have
* `Ledger.reported`: what all passes of a history have reported for a queue

## Main statements

* `Ledger.Schedule.outcome`: what is left behind a last pass, and what has been reported by then
* `Ledger.same_outcome`: it is the same for all schedules
-/

namespace WorkQueue

/-- The state of an entry that has been moved to some states, one after the other. -/
def EntryState.behind (moves : List EntryState) : EntryState :=
  moves.foldl (fun state next => next.moveTo state) .queued

namespace Ledger

/-! ## What a history does -/

/-- The queue of a record that a consumer has read. -/
def keyOf (arrival : Nat × Record) : LedgerKey := ⟨arrival.1, arrival.2.partition⟩

/-- The records that a history appends, with the consumers that have read them. -/
def arrivals (actions : List Action) : List (Nat × Record) :=
  actions.filterMap fun
    | .append consumer record => some (consumer, record)
    | _ => none

/-- The records that a history appends to a queue. -/
def arrivalsAt (key : LedgerKey) (actions : List Action) : List Record :=
  ((arrivals actions).filter (keyOf · = key)).map (·.2)

/-- The states that a history moves an entry to. -/
def movesOf (id : Nat) (actions : List Action) : List EntryState :=
  actions.filterMap fun
    | .transition j next => if j = id then some next else none
    | _ => none

/-- Actions that may follow `n` appends: an entry is moved once it is there, and no consumer is
forgotten. -/
def Consistent : Nat → List Action → Prop
  | _, [] => True
  | n, .append _ _ :: rest => Consistent (n + 1) rest
  | n, .transition id _ :: rest => id < n ∧ Consistent n rest
  | n, .pass :: rest => Consistent n rest
  | _, .forget _ :: _ => False

/-- A history that appends a family of records, queue by queue in the family's order, and moves the
entry of each to its final state. Passes may be made at any moment. -/
structure Schedule (family : LedgerKey → List Record) (final : LedgerKey → Int → EntryState)
    (actions : List Action) : Prop where
  consistent : Consistent 0 actions
  arrivals_eq : ∀ key, arrivalsAt key actions = family key
  /-- Entries are numbered in the order of the appends. -/
  final_eq : ∀ id arrival, (arrivals actions)[id]? = some arrival →
    EntryState.behind (movesOf id actions) = final (keyOf arrival) arrival.2.offset

/-- The queues with their entries. -/
def contents (l : Ledger) : List (LedgerKey × List Entry) :=
  l.queues.map fun q => (q.1, q.2.filterMap l.entry?)

/-- The offsets that the passes of a history report for a queue. -/
def reported (key : LedgerKey) : Account → List Action → List Int
  | _, [] => []
  | a, .pass :: rest => offsetsFor a.ledger.collect.1.offsets key ++ reported key (a.act .pass) rest
  | a, action :: rest => reported key (a.act action) rest

section

variable {actions : List Action}

theorem arrivals_append (more : List Action) :
    arrivals (actions ++ more) = arrivals actions ++ arrivals more :=
  List.filterMap_append

theorem movesOf_append (id : Nat) (more : List Action) :
    movesOf id (actions ++ more) = movesOf id actions ++ movesOf id more :=
  List.filterMap_append

theorem arrivalsAt_append (key : LedgerKey) (more : List Action) :
    arrivalsAt key (actions ++ more) = arrivalsAt key actions ++ arrivalsAt key more := by
  simp [arrivalsAt, arrivals_append]

theorem reported_append (key : LedgerKey) (a : Account) (more : List Action) :
    reported key a (actions ++ more) =
      reported key a actions ++ reported key (a.after actions) more := by
  induction actions generalizing a with
  | nil => rfl
  | cons action rest ih =>
    cases action with
    | pass => simp [reported, ih, Account.after]
    | _ => simp [reported, ih, Account.after]

theorem consistent_append {n : Nat} {more : List Action} :
    Consistent n (actions ++ more) ↔
      Consistent n actions ∧ Consistent (n + (arrivals actions).length) more := by
  induction actions generalizing n with
  | nil => simp [Consistent, arrivals]
  | cons action rest ih =>
    cases action with
    | append consumer record => simp [Consistent, ih, arrivals, Nat.add_assoc, Nat.add_comm 1]
    | transition id next => simp [Consistent, ih, arrivals, and_assoc]
    | pass => simp [Consistent, ih, arrivals]
    | forget consumer => simp [Consistent]

/-- An entry that is not there has not been moved. -/
theorem movesOf_of_le {n id : Nat} (h : Consistent n actions)
    (hid : n + (arrivals actions).length ≤ id) : movesOf id actions = [] := by
  induction actions generalizing n with
  | nil => rfl
  | cons action rest ih =>
    cases action with
    | append consumer record =>
      have hlength : (arrivals (.append consumer record :: rest)).length =
          (arrivals rest).length + 1 := rfl
      exact ih (n := n + 1) h (by omega)
    | transition j next =>
      obtain ⟨hj, hrest⟩ := h
      have hne : j ≠ id := by omega
      simpa [movesOf, hne] using ih hrest hid
    | pass => exact ih h hid
    | forget consumer => exact h.elim

end

/-! ## Numbers of a queue -/

/-- The numbers of the entries that a history appends to a queue. -/
def numbersAt (key : LedgerKey) (actions : List Action) : List Nat :=
  ((arrivals actions).zipIdx.filter (keyOf ·.1 = key)).map (·.2)

section

variable {actions : List Action} {key : LedgerKey}

theorem mem_numbersAt {id : Nat} : id ∈ numbersAt key actions ↔
    ∃ arrival, (arrivals actions)[id]? = some arrival ∧ keyOf arrival = key := by
  simp [numbersAt, List.mem_zipIdx_iff_getElem?]

/-- What is said of the entries of a queue by their numbers and by their records. -/
theorem map_numbersAt {β : Type} {f : Nat → β} {g : Nat × Record → β}
    (h : ∀ id arrival, (arrivals actions)[id]? = some arrival → f id = g arrival) :
    (numbersAt key actions).map f = ((arrivals actions).filter (keyOf · = key)).map g := by
  have hsame : ∀ entry ∈ (arrivals actions).zipIdx.filter (keyOf ·.1 = key),
      f entry.2 = g entry.1 := fun entry hentry =>
    h entry.2 entry.1 (List.mem_zipIdx_iff_getElem?.mp (List.mem_filter.mp hentry).1)
  calc (numbersAt key actions).map f
      = ((arrivals actions).zipIdx.filter (keyOf ·.1 = key)).map fun entry => g entry.1 := by
        rw [numbersAt, List.map_map]
        exact List.map_congr_left hsame
    _ = ((((arrivals actions).zipIdx).map (·.1)).filter (keyOf · = key)).map g := by
        rw [List.filter_map, List.map_map]
        rfl
    _ = ((arrivals actions).filter (keyOf · = key)).map g := by
        rw [List.zipIdx_map_fst]

theorem numbersAt_append (more : List Action) (h : arrivals more = []) :
    numbersAt key (actions ++ more) = numbersAt key actions := by
  simp [numbersAt, arrivals_append, h]

theorem numbersAt_concat (consumer : Nat) (record : Record) :
    numbersAt key (actions ++ [.append consumer record]) =
      numbersAt key actions ++
        if key = ⟨consumer, record.partition⟩ then [(arrivals actions).length] else [] := by
  have hnew : arrivals [.append consumer record] = [(consumer, record)] := rfl
  by_cases hkey : key = ⟨consumer, record.partition⟩
  · simp [numbersAt, arrivals_append, hnew, List.zipIdx_append, keyOf, hkey]
  · simp [numbersAt, arrivals_append, hnew, List.zipIdx_append, keyOf, hkey, Ne.symm hkey]

end

/-! ## What a history has come to -/

/-- Offsets ascend in every queue. -/
def Ascending (actions : List Action) : Prop :=
  ∀ key, ((arrivalsAt key actions).map (·.offset)).Pairwise (· < ·)

/-- What a history has come to: all appends have been accepted, entries are where they have been
moved to, and passes have taken a front off every queue, the last offset of which is the highest one
reported. -/
structure Tracks (actions : List Action) (a : Account) : Prop where
  account_eq : a = Account.after {} actions
  tidy : Tidy a.ledger
  size_eq : a.ledger.entries.size = (arrivals actions).length
  entry_eq : ∀ id, a.ledger.entry? id = (arrivals actions)[id]?.map fun arrival =>
    ⟨arrival.1, arrival.2, .behind (movesOf id actions)⟩
  split : ∀ key, ∃ gone, numbersAt key actions = gone ++ a.ledger.queue key ∧
    (∀ id ∈ gone, a.ledger.committable id = true) ∧
    (reported key {} actions).max? = gone.getLast?.map a.ledger.offsetOf

theorem getElem?_concat {α : Type} (as : List α) (a : α) (i : Nat) :
    (as ++ [a])[i]? = if i = as.length then some a else as[i]? := by
  rcases Nat.lt_trichotomy i as.length with hlt | heq | hgt
  · rw [List.getElem?_append_left hlt, if_neg (Nat.ne_of_lt hlt)]
  · simp [heq]
  · rw [if_neg (Nat.ne_of_gt hgt), List.getElem?_eq_none (Nat.le_of_lt hgt), List.getElem?_eq_none]
    rw [List.length_append]
    exact hgt

/-- What is appended last is the maximum if it is not below that of the others. -/
theorem max?_concat {os : List Int} {o : Int} (h : ∀ m, os.max? = some m → m ≤ o) :
    (os ++ [o]).max? = some o := by
  rw [List.max?_eq_some_iff]
  refine ⟨by simp, fun b hb => ?_⟩
  rcases List.mem_append.mp hb with hold | hnew
  · obtain ⟨m, hm⟩ := Option.isSome_iff_exists.mp (List.isSome_max?_of_mem hold)
    exact Int.le_trans ((List.max?_eq_some_iff.mp hm).2 b hold) (h m hm)
  · exact Int.le_of_eq (List.mem_singleton.mp hnew)

namespace Tracks

variable {actions : List Action} {a : Account} {key : LedgerKey}

theorem start : Tracks [] {} where
  account_eq := rfl
  tidy := tidy_empty
  size_eq := rfl
  entry_eq id := by simp [arrivals, empty, entry?]
  split key := ⟨[], rfl, by simp, rfl⟩

theorem offsetOf_eq (h : Tracks actions a) {id : Nat} {arrival : Nat × Record}
    (harrival : (arrivals actions)[id]? = some arrival) :
    a.ledger.offsetOf id = arrival.2.offset := by
  simp [offsetOf, h.entry_eq, harrival]

theorem map_offsetOf (h : Tracks actions a) (key : LedgerKey) :
    (numbersAt key actions).map a.ledger.offsetOf = (arrivalsAt key actions).map (·.offset) := by
  rw [map_numbersAt fun _ _ => h.offsetOf_eq, arrivalsAt, List.map_map]
  rfl

theorem pairwise_numbersAt (h : Tracks actions a) (hascending : Ascending actions)
    (key : LedgerKey) :
    (numbersAt key actions).Pairwise fun i j => a.ledger.offsetOf i < a.ledger.offsetOf j := by
  rw [← List.pairwise_map, h.map_offsetOf]
  exact hascending key

theorem lt_of_mem_numbersAt (h : Tracks actions a) {id : Nat} (hid : id ∈ numbersAt key actions) :
    id < a.ledger.entries.size := by
  obtain ⟨arrival, harrival, -⟩ := mem_numbersAt.mp hid
  rw [h.size_eq]
  exact (List.getElem?_eq_some_iff.mp harrival).1

theorem reported_concat (h : Tracks actions a) (key : LedgerKey) (action : Action) :
    reported key {} (actions ++ [action]) = reported key {} actions ++ reported key a [action] := by
  rw [reported_append, ← h.account_eq]

theorem account_concat (h : Tracks actions a) (action : Action) :
    a.act action = Account.after {} (actions ++ [action]) := by
  simp [h.account_eq, Account.after]

/-- A record that comes behind all others of its queue is accepted. -/
theorem lt_offset (h : Tracks actions a) {consumer : Nat} {record : Record}
    (hascending : Ascending (actions ++ [.append consumer record])) {tail : Nat}
    (htail : (a.ledger.queue ⟨consumer, record.partition⟩).getLast? = some tail) :
    a.ledger.offsetOf tail < record.offset := by
  obtain ⟨gone, hgone, -⟩ := h.split ⟨consumer, record.partition⟩
  have hmem : tail ∈ numbersAt ⟨consumer, record.partition⟩ actions := by
    rw [hgone]
    exact List.mem_append_right _ (List.mem_of_getLast? htail)
  have hoffset := List.mem_map_of_mem (f := a.ledger.offsetOf) hmem
  rw [h.map_offsetOf] at hoffset
  have hpairwise := hascending ⟨consumer, record.partition⟩
  rw [arrivalsAt_append, List.map_append, List.pairwise_append] at hpairwise
  exact hpairwise.2.2 _ hoffset _ (by simp [arrivalsAt, arrivals, keyOf])

theorem append (h : Tracks actions a) {consumer : Nat} {record : Record}
    (hconsistent : Consistent 0 actions)
    (hascending : Ascending (actions ++ [.append consumer record])) :
    Tracks (actions ++ [.append consumer record]) (a.act (.append consumer record)) := by
  have hnew : arrivals [.append consumer record] = [(consumer, record)] := rfl
  have haccepted : a.ledger.append consumer record =
      .ok (a.ledger.entries.size, a.ledger.track consumer record) :=
    append_eq_ok_iff.mpr ⟨fun _ => h.lt_offset hascending, rfl, rfl⟩
  have hledger : (a.act (.append consumer record)).ledger = a.ledger.track consumer record := by
    simp [Account.act, haccepted]
  refine ⟨h.account_concat _, ?_, ?_, fun id => ?_, fun key => ?_⟩
  · rw [hledger]
    exact h.tidy.track fun _ => h.lt_offset hascending
  · simp [hledger, h.size_eq, arrivals_append, hnew]
  · have hmoves : movesOf id (actions ++ [.append consumer record]) = movesOf id actions := by
      rw [movesOf_append]
      exact List.append_nil _
    rw [hledger, entry?_track, h.size_eq, arrivals_append, hnew, getElem?_concat, hmoves]
    split
    -- nobody has moved the new entry yet
    · next hid =>
      rw [movesOf_of_le hconsistent (by omega)]
      rfl
    · exact h.entry_eq id
  · obtain ⟨gone, hgone, hcommittable, hreported⟩ := h.split key
    have hlt : ∀ id ∈ gone, id < a.ledger.entries.size := fun id hid =>
      h.lt_of_mem_numbersAt (hgone ▸ List.mem_append_left _ hid)
    refine ⟨gone, ?_, fun id hid => ?_, ?_⟩
    · rw [numbersAt_concat, hgone, hledger, queue_append h.tidy, h.size_eq]
      split <;> simp
    · rw [hledger, committable, stateOf_track_of_lt (hlt id hid)]
      exact hcommittable id hid
    · rw [h.reported_concat, show reported key a [.append consumer record] = [] from rfl,
        List.append_nil, hreported, hledger]
      cases hlast : gone.getLast? with
      | none => rfl
      | some last =>
        rw [Option.map_some, Option.map_some,
          offsetOf_track_of_lt (hlt last (List.mem_of_getLast? hlast))]

theorem transition (h : Tracks actions a) {id : Nat} (next : EntryState) :
    Tracks (actions ++ [.transition id next]) (a.act (.transition id next)) := by
  have hledger : (a.act (.transition id next)).ledger = (a.ledger.transition id next).2 := rfl
  have harrivals : arrivals [Action.transition id next] = [] := rfl
  refine ⟨h.account_concat _, h.tidy.transition id next, ?_, fun j => ?_, fun key => ?_⟩
  · simp [hledger, h.size_eq, arrivals_append, harrivals]
  · rw [hledger, entry?_transition, h.entry_eq, arrivals_append, harrivals, List.append_nil,
      Option.map_map, movesOf_append]
    congr 1
    funext arrival
    by_cases hj : j = id
    · simp [hj, movesOf, EntryState.behind]
    · simp [hj, Ne.symm hj, movesOf]
  · obtain ⟨gone, hgone, hcommittable, hreported⟩ := h.split key
    refine ⟨gone, ?_, fun j hj => ?_, ?_⟩
    · rw [numbersAt_append _ harrivals, hledger, queue_transition]
      exact hgone
    · exact committable_transition (hcommittable j hj) id next
    · rw [h.reported_concat, show reported key a [.transition id next] = [] from rfl,
        List.append_nil, hreported, hledger, funext (offsetOf_transition id next)]

/-- A pass takes more off the front. -/
theorem pass (h : Tracks actions a) (hascending : Ascending actions) :
    Tracks (actions ++ [.pass]) (a.act .pass) := by
  have hledger : (a.act .pass).ledger = a.ledger.collect.2 := rfl
  have harrivals : arrivals [Action.pass] = [] := rfl
  refine ⟨h.account_concat _, h.tidy.collect, ?_, fun j => ?_, fun key => ?_⟩
  · rw [arrivals_append, harrivals, List.append_nil]
    exact h.size_eq
  · rw [arrivals_append, harrivals, List.append_nil, movesOf_append,
      show movesOf j [.pass] = [] from rfl, List.append_nil]
    exact h.entry_eq j
  · obtain ⟨gone, hgone, hcommittable, hreported⟩ := h.split key
    refine ⟨gone ++ (a.ledger.queue key).takeWhile a.ledger.committable, ?_, ?_, ?_⟩
    · rw [numbersAt_append _ harrivals, hledger, queue_collect h.tidy, List.append_assoc,
        List.takeWhile_append_dropWhile]
      exact hgone
    · intro id hid
      rcases List.mem_append.mp hid with hold | hnew
      · exact hcommittable id hold
      · exact List.mem_takeWhile_imp hnew
    · rw [h.reported_concat, show reported key a [.pass] =
        offsetsFor a.ledger.collect.1.offsets key from List.append_nil _, offsetsFor_collect h.tidy,
        hledger]
      cases htaken : ((a.ledger.queue key).takeWhile a.ledger.committable).getLast? with
      | none =>
        rw [List.getLast?_append, htaken, Option.none_or, Option.map_none, Option.toList_none,
          List.append_nil]
        exact hreported
      | some last =>
        rw [List.getLast?_append, htaken]
        refine max?_concat fun m hm => ?_
        -- whatever has been reported before lies in front of the whole queue
        obtain ⟨old, hold, rfl⟩ := Option.map_eq_some_iff.mp (hreported.symm.trans hm)
        have hpairwise := h.pairwise_numbersAt hascending key
        rw [hgone, List.pairwise_append] at hpairwise
        exact Int.le_of_lt (hpairwise.2.2 old (List.mem_of_getLast? hold) last
          ((List.takeWhile_sublist _).mem (List.mem_of_getLast? htaken)))

end Tracks

theorem Ascending.front {actions more : List Action} (h : Ascending (actions ++ more)) :
    Ascending actions := by
  intro key
  have hkey := h key
  rw [arrivalsAt_append, List.map_append, List.pairwise_append] at hkey
  exact hkey.1

theorem tracks_after {actions : List Action} (hconsistent : Consistent 0 actions)
    (hascending : Ascending actions) : Tracks actions (Account.after {} actions) := by
  induction actions using List.reverseRecOn with
  | nil => exact .start
  | append_singleton actions action ih =>
    obtain ⟨hfront, hlast⟩ := consistent_append.mp hconsistent
    have h := ih hfront hascending.front
    rw [← h.account_concat]
    cases action with
    | append consumer record => exact h.append hfront hascending
    | transition id next => exact h.transition next
    | pass => exact h.pass hascending.front
    | forget consumer => exact hlast.elim

/-! ## Behind the last pass -/

/-- The entries of a queue's records in their final states. -/
def ended (final : LedgerKey → Int → EntryState) (key : LedgerKey) (records : List Record) :
    List Entry :=
  records.map fun r => ⟨key.consumer, r, final key r.offset⟩

section

variable {family : LedgerKey → List Record} {final : LedgerKey → Int → EntryState}
  {actions : List Action}

/-- Whether an entry may be committed is told by the entry alone. -/
theorem committable_eq (l : Ledger) :
    l.committable = (Option.any fun e : Entry => e.state.isCommittable) ∘ l.entry? := by
  funext id
  simp only [committable, stateOf, Function.comp_apply]
  cases l.entry? id with
  | none => rfl
  | some e => rfl

theorem offsetOf_eq (l : Ledger) :
    l.offsetOf = (fun e : Option Entry => e.elim 0 (·.record.offset)) ∘ l.entry? := by
  funext id
  simp only [offsetOf, Function.comp_apply]
  cases l.entry? id with
  | none => rfl
  | some e => rfl

/-- Behind a last pass the entries of a queue are in their final states. -/
theorem Schedule.entries_eq (h : Schedule family final actions) {a : Account}
    (ht : Tracks (actions ++ [.pass]) a) (key : LedgerKey) :
    (numbersAt key actions).map a.ledger.entry? = (ended final key (family key)).map some := by
  have hentry : ∀ id arrival, (arrivals actions)[id]? = some arrival →
      a.ledger.entry? id =
        some ⟨arrival.1, arrival.2, final (keyOf arrival) arrival.2.offset⟩ := by
    intro id arrival harrival
    rw [ht.entry_eq, arrivals_append, show arrivals [.pass] = [] from rfl, List.append_nil,
      harrival, movesOf_append, show movesOf id [.pass] = [] from rfl, List.append_nil,
      Option.map_some, h.final_eq id arrival harrival]
  rw [map_numbersAt hentry, ← h.arrivals_eq key, ended, arrivalsAt, List.map_map, List.map_map]
  apply List.map_congr_left
  intro arrival harrival
  have hkey : keyOf arrival = key := by simpa using (List.mem_filter.mp harrival).2
  simp [← hkey, keyOf]

theorem Schedule.tracks (h : Schedule family final actions)
    (hascend : ∀ key, ((family key).map (·.offset)).Pairwise (· < ·)) :
    Tracks (actions ++ [.pass]) (Account.after {} (actions ++ [.pass])) := by
  refine tracks_after (consistent_append.mpr ⟨h.consistent, trivial⟩) fun key => ?_
  rw [arrivalsAt_append, show arrivalsAt key [.pass] = [] from rfl, List.append_nil, h.arrivals_eq]
  exact hascend key

/-- What is left and what has been reported behind the last pass depends on the family and the final
states alone: every queue is split at its first open entry. -/
theorem Schedule.outcome (h : Schedule family final actions)
    (hascend : ∀ key, ((family key).map (·.offset)).Pairwise (· < ·)) (key : LedgerKey) :
    let a := Account.after {} (actions ++ [.pass])
    (a.ledger.queue key).filterMap a.ledger.entry? =
        (ended final key (family key)).dropWhile (·.state.isCommittable) ∧
      (reported key {} (actions ++ [.pass])).max? =
        ((ended final key (family key)).takeWhile (·.state.isCommittable)).getLast?.map
          (·.record.offset) := by
  intro a
  have ht : Tracks (actions ++ [.pass]) a := h.tracks hascend
  have hmap := h.entries_eq ht key
  obtain ⟨gone, hgone, hcommittable, hreported⟩ := ht.split key
  rw [numbersAt_append _ rfl] at hgone
  -- the last pass has left no queue that begins with an entry that may be committed
  have hstalled : Stalled a.ledger := by
    have hlast : a = (Account.after {} actions).act .pass := by simp [a, Account.after]
    rw [hlast]
    exact stalled_collect
  have hstop := hstalled.takeWhile_queue ht.tidy key
  have hrest : (a.ledger.queue key).dropWhile a.ledger.committable = a.ledger.queue key := by
    have hsplit := List.takeWhile_append_dropWhile (p := a.ledger.committable)
      (l := a.ledger.queue key)
    rwa [hstop, List.nil_append] at hsplit
  have hleft : (numbersAt key actions).dropWhile a.ledger.committable = a.ledger.queue key := by
    rw [hgone, List.dropWhile_append_of_pos hcommittable, hrest]
  have htaken : (numbersAt key actions).takeWhile a.ledger.committable = gone := by
    rw [hgone, List.takeWhile_append_of_pos hcommittable, hstop, List.append_nil]
  constructor
  · have hqueue : (a.ledger.queue key).map a.ledger.entry? =
        ((ended final key (family key)).dropWhile (·.state.isCommittable)).map some := by
      rw [← hleft, committable_eq, ← List.dropWhile_map, hmap, List.dropWhile_map]
      rfl
    calc (a.ledger.queue key).filterMap a.ledger.entry?
        = ((a.ledger.queue key).map a.ledger.entry?).filterMap id := by
          rw [List.filterMap_map]
          rfl
      _ = (ended final key (family key)).dropWhile (·.state.isCommittable) := by
          rw [hqueue, List.filterMap_map]
          exact List.filterMap_some
  · have hfront : gone.map a.ledger.entry? =
        ((ended final key (family key)).takeWhile (·.state.isCommittable)).map some := by
      rw [← htaken, committable_eq, ← List.takeWhile_map, hmap, List.takeWhile_map]
      rfl
    rw [hreported, offsetOf_eq, ← List.getLast?_map, ← List.map_map, hfront, List.map_map,
      List.getLast?_map]
    rfl

end

/-! ## Queues and their entries -/

section

variable {l l' : Ledger}

/-- The entries of a queue are there. -/
theorem Tidy.length_filterMap (h : Tidy l) {q : LedgerKey × List Nat} (hq : q ∈ l.queues) :
    (q.2.filterMap l.entry?).length = q.2.length := by
  rw [List.length_filterMap_eq_countP, List.countP_eq_length]
  intro id hid
  obtain ⟨e, he, -⟩ := h.entry_of_mem q hq id hid
  simp [he]

theorem Tidy.mem_contents (h : Tidy l) {key : LedgerKey} {entries : List Entry} :
    (key, entries) ∈ l.contents ↔
      entries ≠ [] ∧ (l.queue key).filterMap l.entry? = entries := by
  simp only [contents, List.mem_map, Prod.mk.injEq]
  constructor
  · rintro ⟨q, hq, rfl, rfl⟩
    refine ⟨fun hnil => h.queue_ne_nil q hq ?_, by rw [h.queue_eq_of_mem hq]⟩
    rw [← List.length_eq_zero_iff, ← h.length_filterMap hq, hnil, List.length_nil]
  · rintro ⟨hne, rfl⟩
    obtain ⟨e, he⟩ := List.exists_mem_of_ne_nil _ hne
    obtain ⟨id, hid, -⟩ := List.mem_filterMap.mp he
    exact ⟨_, h.mem_queues hid, rfl, rfl⟩

theorem Tidy.pairwise_contents (h : Tidy l) :
    l.contents.Pairwise fun q q' => q.1.before q'.1 = true :=
  List.pairwise_map.mpr h.keys_ascend

/-- Queues in ascending order of their keys are told by looking them up. -/
theorem Tidy.contents_eq (h : Tidy l) (h' : Tidy l')
    (hqueue : ∀ key, (l.queue key).filterMap l.entry? = (l'.queue key).filterMap l'.entry?) :
    l.contents = l'.contents := by
  have hnodup : ∀ {l : Ledger}, Tidy l → l.contents.Nodup := by
    intro l h
    refine h.pairwise_contents.imp ?_
    rintro q q' hlt rfl
    exact LedgerKey.before_irrefl _ hlt
  have hperm : l.contents.Perm l'.contents := by
    rw [List.perm_ext_iff_of_nodup (hnodup h) (hnodup h')]
    rintro ⟨key, entries⟩
    rw [h.mem_contents, h'.mem_contents, hqueue]
  exact hperm.eq_of_pairwise
    (fun _ _ _ _ hlt hgt => absurd (LedgerKey.before_trans hlt hgt) (LedgerKey.before_irrefl _))
    h.pairwise_contents h'.pairwise_contents

theorem Tidy.pending_eq (h : Tidy l) : l.pending = (l.contents.flatMap (·.2)).length := by
  rw [pending, contents, List.flatMap_map, List.length_flatMap, List.length_flatMap]
  congr 1
  apply List.map_congr_left
  exact fun q hq => (h.length_filterMap hq).symm

end

/-! ## Main theorem -/

/-- Nobody has been forgotten. -/
theorem forgottenCount_after {n : Nat} {actions : List Action} (h : Consistent n actions)
    (a : Account) : (a.after actions).forgottenCount = a.forgottenCount := by
  induction actions generalizing n a with
  | nil => rfl
  | cons action rest ih =>
    cases action with
    | append consumer record =>
      refine (ih (n := n + 1) h (a.act (.append consumer record))).trans ?_
      simp only [Account.act]
      split <;> rfl
    | transition id next => exact ih h.2 (a.act (.transition id next))
    | pass => exact ih (n := n) h (a.act .pass)
    | forget consumer => exact h.elim

/-- As many records arrive as the queues get together. -/
theorem length_arrivals_congr {one two : List Action}
    (h : ∀ key, arrivalsAt key one = arrivalsAt key two) :
    (arrivals one).length = (arrivals two).length := by
  have hperm : ((arrivals one).map keyOf).Perm ((arrivals two).map keyOf) := by
    rw [List.perm_iff_count]
    intro key
    have hlength := congrArg List.length (h key)
    rw [arrivalsAt, arrivalsAt, List.length_map, List.length_map] at hlength
    rw [List.count, List.countP_map, List.countP_map, List.countP_eq_length_filter,
      List.countP_eq_length_filter]
    simpa [Function.comp_def, beq_eq_decide] using hlength
  simpa using hperm.length_eq

section

variable {family : LedgerKey → List Record} {final : LedgerKey → Int → EntryState}
  {actions one two : List Action}

/-- All records of a schedule have been released or are still tracked. -/
theorem Schedule.released_add_pending (h : Schedule family final actions)
    (hascend : ∀ key, ((family key).map (·.offset)).Pairwise (· < ·)) :
    let a := Account.after {} (actions ++ [.pass])
    a.releasedCount + a.ledger.pending = (arrivals actions).length := by
  intro a
  have hsound : Account.Sound a := Account.Sound.start.after _
  have hcounts := hsound.counts_add_up
  have hconsistent : Consistent 0 (actions ++ [.pass]) :=
    consistent_append.mpr ⟨h.consistent, trivial⟩
  have hforgotten : a.forgottenCount = 0 := forgottenCount_after hconsistent {}
  have hsize : a.ledger.entries.size = (arrivals (actions ++ [.pass])).length :=
    (h.tracks hascend).size_eq
  rw [arrivals_append, show arrivals [.pass] = [] from rfl, List.append_nil] at hsize
  have haccepted := hsound.size_eq
  omega

/-- **Commit order does not matter.** Take any family of records whose offsets ascend in every
queue, any final states of their entries, and any two schedules of them, with passes at any moments.
Behind a last pass both have left the same entries in the same queues, have released equally many,
and have reported the same highest offset for every queue. -/
theorem same_outcome (hascend : ∀ key, ((family key).map (·.offset)).Pairwise (· < ·))
    (hone : Schedule family final one) (htwo : Schedule family final two) :
    let a := Account.after {} (one ++ [.pass])
    let b := Account.after {} (two ++ [.pass])
    a.ledger.contents = b.ledger.contents ∧ a.releasedCount = b.releasedCount ∧
      ∀ key, (reported key {} (one ++ [.pass])).max? = (reported key {} (two ++ [.pass])).max? := by
  intro a b
  have hta : Tidy a.ledger := (hone.tracks hascend).tidy
  have htb : Tidy b.ledger := (htwo.tracks hascend).tidy
  have hcontents : a.ledger.contents = b.ledger.contents :=
    hta.contents_eq htb fun key =>
      (hone.outcome hascend key).1.trans (htwo.outcome hascend key).1.symm
  refine ⟨hcontents, ?_, fun key =>
    (hone.outcome hascend key).2.trans (htwo.outcome hascend key).2.symm⟩
  have hpending : a.ledger.pending = b.ledger.pending := by
    rw [hta.pending_eq, htb.pending_eq, hcontents]
  have harrivals : (arrivals one).length = (arrivals two).length :=
    length_arrivals_congr fun key => (hone.arrivals_eq key).trans (htwo.arrivals_eq key).symm
  have hreleased : a.releasedCount + a.ledger.pending = (arrivals one).length :=
    hone.released_add_pending hascend
  have hreleased' : b.releasedCount + b.ledger.pending = (arrivals two).length :=
    htwo.released_add_pending hascend
  omega

end

/-! ## A queue that is begun anew -/

/-- A record of partition 0. -/
def recordAt (offset : Int) : Record :=
  { topic := "t", partition := 0, offset, key := "k", value := ByteArray.empty }

/-- The queue of consumer 1 is emptied by a pass before its second record comes. -/
def stepByStep : List Action :=
  [.append 1 (recordAt 0), .transition 0 .success, .pass, .append 1 (recordAt 1),
    .append 2 (recordAt 5), .transition 1 .canceled, .transition 2 .skipped]

/-- The same, with all records first, the ones of consumer 1 last, and a pass between the ends. -/
def allAtOnce : List Action :=
  [.append 2 (recordAt 5), .append 1 (recordAt 0), .append 1 (recordAt 1), .transition 2 .executing,
    .transition 2 .canceled, .transition 0 .skipped, .pass, .transition 1 .success]

/-- The final states of both. -/
def sampleEnds (key : LedgerKey) (offset : Int) : EntryState :=
  if key.consumer = 2 then .skipped else if offset = 0 then .success else .canceled

/-- Both append the same records to every queue. -/
theorem arrivalsAt_sample (key : LedgerKey) :
    arrivalsAt key stepByStep =
        (if key = ⟨1, 0⟩ then [recordAt 0, recordAt 1]
          else if key = ⟨2, 0⟩ then [recordAt 5] else []) ∧
      arrivalsAt key allAtOnce = arrivalsAt key stepByStep := by
  by_cases h₁ : key = ⟨1, 0⟩
  · subst h₁
    exact ⟨rfl, rfl⟩
  · by_cases h₂ : key = ⟨2, 0⟩
    · subst h₂
      exact ⟨rfl, rfl⟩
    · simp [arrivalsAt, arrivals, stepByStep, allAtOnce, keyOf, recordAt, h₁, h₂, Ne.symm h₁,
        Ne.symm h₂]

/-- Two entries are released either way, and the canceled one stays. -/
theorem same_outcome_anew :
    (∀ key, ((arrivalsAt key stepByStep).map (·.offset)).Pairwise (· < ·)) ∧
    Schedule (arrivalsAt · stepByStep) sampleEnds stepByStep ∧
    Schedule (arrivalsAt · stepByStep) sampleEnds allAtOnce ∧
    let a := Account.after {} (stepByStep ++ [.pass])
    let b := Account.after {} (allAtOnce ++ [.pass])
    a.ledger.contents = b.ledger.contents ∧ a.releasedCount = b.releasedCount ∧
      a.ledger.pending = 1 ∧ a.releasedCount = 2 ∧
      ∀ key, (reported key {} (stepByStep ++ [.pass])).max? =
        (reported key {} (allAtOnce ++ [.pass])).max? := by
  have hascend : ∀ key, ((arrivalsAt key stepByStep).map (·.offset)).Pairwise (· < ·) := by
    intro key
    rw [(arrivalsAt_sample key).1]
    split
    · decide
    · split <;> decide
  have hone : Schedule (arrivalsAt · stepByStep) sampleEnds stepByStep := by
    refine ⟨by simp [stepByStep, Consistent], fun _ => rfl, fun id arrival harrival => ?_⟩
    match id, harrival with
    | 0, rfl => rfl
    | 1, rfl => rfl
    | 2, rfl => rfl
  have htwo : Schedule (arrivalsAt · stepByStep) sampleEnds allAtOnce := by
    refine ⟨by simp [allAtOnce, Consistent], fun key => (arrivalsAt_sample key).2, ?_⟩
    intro id arrival harrival
    match id, harrival with
    | 0, rfl => rfl
    | 1, rfl => rfl
    | 2, rfl => rfl
  obtain ⟨hcontents, hreleased, hreported⟩ := same_outcome hascend hone htwo
  exact ⟨hascend, hone, htwo, hcontents, hreleased, by decide, by decide, hreported⟩

end Ledger

end WorkQueue
