import Mathlib.Data.List.Nodup
import WorkQueue.Proofs.Ledger.Operations

/-!
# The entries of a partition

Entries keep their numbers, so the entries of a partition that have been accepted from some moment on
can be told from the ledger at any time later, whether they are still tracked or not. A pass reports
of each queue at most one offset, which is that of an entry it releases.

## Main definitions

* `Place`, `Record.place`: topic, partition and offset
* `Ledger.appended`, `Ledger.taken`: the entries of a partition from a number on, and their offsets
* `Ledger.placeAt?`: the place of the record of an entry
* `Ledger.offsetsFor`: what a plan reports for a queue

## Main statements

* `Ledger.appended_track`, `Ledger.appended_transition`: what the operations do to them
* `Ledger.offsetsFor_collect`: what a pass reports for a queue
* `Ledger.eq_of_placeAt?_eq`: where offsets ascend, no place is taken twice
-/

namespace WorkQueue

/-- Topic, partition and offset. -/
abbrev Place := String × Int × Int

/-- Where a record stands. -/
def Record.place (r : Record) : Place := (r.topic, r.partition, r.offset)

namespace Ledger

variable {l : Ledger} {first : Nat} {topic : String} {p : Int}

/-! ## Entries from a number on -/

/-- The entries of a partition from number `first` on, in the order they were accepted. -/
def appended (l : Ledger) (first : Nat) (topic : String) (p : Int) : List Nat :=
  (List.range l.entries.size).filter fun id => decide (first ≤ id) &&
    (l.entry? id).any fun e => e.record.topic == topic && e.record.partition == p

/-- The offsets of the entries of a partition from number `first` on. -/
def taken (l : Ledger) (first : Nat) (topic : String) (p : Int) : List Int :=
  (l.appended first topic p).map l.offsetOf

theorem mem_appended {id : Nat} : id ∈ l.appended first topic p ↔
    first ≤ id ∧ ∃ e, l.entry? id = some e ∧ e.record.topic = topic ∧ e.record.partition = p := by
  unfold appended
  rw [List.mem_filter, List.mem_range, Bool.and_eq_true, decide_eq_true_eq, Option.any_eq_true]
  simp only [Bool.and_eq_true, beq_iff_eq]
  constructor
  · rintro ⟨-, hfirst, he⟩
    exact ⟨hfirst, he⟩
  · rintro ⟨hfirst, e, he, hplace⟩
    exact ⟨entry?_lt he, hfirst, e, he, hplace⟩

theorem lt_of_mem_appended {id : Nat} (h : id ∈ l.appended first topic p) :
    id < l.entries.size := by
  obtain ⟨-, e, he, -⟩ := mem_appended.mp h
  exact entry?_lt he

/-- With no entries from there on nothing has been taken. -/
theorem appended_of_size (h : l.entries.size = first) : l.appended first topic p = [] := by
  rw [List.eq_nil_iff_forall_not_mem]
  intro id hid
  have hlt := lt_of_mem_appended hid
  have hle := (mem_appended.mp hid).1
  omega

theorem taken_of_size (h : l.entries.size = first) : l.taken first topic p = [] := by
  rw [taken, appended_of_size h, List.map_nil]

/-- The place of the record of an entry. -/
def placeAt? (l : Ledger) (id : Nat) : Option Place := (l.entry? id).map (·.record.place)

theorem placeAt?_eq_some {id : Nat} {place : Place} : l.placeAt? id = some place ↔
    ∃ e, l.entry? id = some e ∧ e.record.place = place := Option.map_eq_some_iff

theorem lt_of_placeAt? {id : Nat} {place : Place} (h : l.placeAt? id = some place) :
    id < l.entries.size := by
  obtain ⟨e, he, -⟩ := placeAt?_eq_some.mp h
  exact entry?_lt he

/-- Where offsets ascend, entries at one place are one entry. -/
theorem eq_of_placeAt?_eq {id id' : Nat} {place : Place}
    (hascending : ∀ topic p, (l.taken first topic p).Pairwise (· < ·)) (hid : first ≤ id)
    (hid' : first ≤ id') (hplace : l.placeAt? id = some place)
    (hplace' : l.placeAt? id' = some place) : id = id' := by
  obtain ⟨e, he, rfl⟩ := placeAt?_eq_some.mp hplace
  obtain ⟨e', he', heq⟩ := placeAt?_eq_some.mp hplace'
  obtain ⟨htopic, hrest⟩ := Prod.mk.inj heq
  obtain ⟨hpartition, hoffset⟩ := Prod.mk.inj hrest
  have hmem : id ∈ l.appended first e.record.topic e.record.partition :=
    mem_appended.mpr ⟨hid, e, he, rfl, rfl⟩
  have hmem' : id' ∈ l.appended first e.record.topic e.record.partition :=
    mem_appended.mpr ⟨hid', e', he', htopic, hpartition⟩
  have hsame : l.offsetOf id = l.offsetOf id' := by simp [offsetOf, he, he', hoffset]
  have hnodup : (l.taken first e.record.topic e.record.partition).Nodup :=
    (hascending _ _).imp fun hlt => Int.ne_of_lt hlt
  exact List.inj_on_of_nodup_map hnodup hmem hmem' hsame

/-! ## What the operations do to them -/

theorem appended_track {consumer : Nat} {record : Record} (hfirst : first ≤ l.entries.size) :
    (l.track consumer record).appended first topic p =
      l.appended first topic p ++
        if record.topic = topic ∧ record.partition = p then [l.entries.size] else [] := by
  unfold appended
  rw [size_entries_track, List.range_succ, List.filter_append]
  congr 1
  · apply List.filter_congr
    intro id hid
    rw [entry?_track_of_lt (List.mem_range.mp hid)]
  · have hnew : entry? (l.track consumer record) l.entries.size =
        some ⟨consumer, record, .queued⟩ := by rw [entry?_track, if_pos rfl]
    by_cases hplace : record.topic = topic ∧ record.partition = p
    · simp [hnew, hfirst, hplace]
    · rw [if_neg hplace, List.filter_eq_nil_iff]
      intro id hid
      rw [List.mem_singleton.mp hid, hnew]
      simpa [hfirst] using hplace

theorem taken_track {consumer : Nat} {record : Record} (hfirst : first ≤ l.entries.size) :
    (l.track consumer record).taken first topic p =
      l.taken first topic p ++
        if record.topic = topic ∧ record.partition = p then [record.offset] else [] := by
  unfold taken
  rw [appended_track hfirst, List.map_append]
  congr 1
  · apply List.map_congr_left
    exact fun id hid => offsetOf_track_of_lt (lt_of_mem_appended hid)
  · split
    · simp
    · rfl

/-- A state is no matter. -/
theorem appended_transition (id : Nat) (next : EntryState) :
    (l.transition id next).2.appended first topic p = l.appended first topic p := by
  unfold appended
  rw [size_entries_transition]
  apply List.filter_congr
  intro j _
  rw [entry?_transition]
  congr 1
  cases l.entry? j with
  | none => rfl
  | some e =>
    simp only [Option.map_some, Option.any_some]
    split <;> rfl

theorem taken_transition (id : Nat) (next : EntryState) :
    (l.transition id next).2.taken first topic p = l.taken first topic p := by
  unfold taken
  rw [appended_transition]
  apply List.map_congr_left
  exact fun j _ => offsetOf_transition id next j

theorem placeAt?_track {consumer : Nat} {record : Record} (id : Nat) :
    placeAt? (l.track consumer record) id =
      if id = l.entries.size then some record.place else l.placeAt? id := by
  unfold placeAt?
  rw [entry?_track]
  split <;> rfl

theorem placeAt?_transition (id : Nat) (next : EntryState) (j : Nat) :
    placeAt? (l.transition id next).2 j = l.placeAt? j := by
  unfold placeAt?
  rw [entry?_transition]
  cases l.entry? j with
  | none => rfl
  | some e =>
    simp only [Option.map_some]
    split <;> rfl

/-- What may be committed stays so. -/
theorem committable_transition {j : Nat} (h : l.committable j = true) (id : Nat)
    (next : EntryState) : (l.transition id next).2.committable j = true := by
  unfold committable at h ⊢
  rw [stateOf_transition_of_isTerminal (EntryState.isTerminal_of_isCommittable h)]
  exact h

/-! ## What a pass reports for a queue -/

/-- The offsets of one partition. -/
def offsetsAt (p : Int) (offsets : List (Int × Int)) : List Int :=
  (offsets.filter (·.1 == p)).map (·.2)

/-- The offsets that are reported for a queue. -/
def offsetsFor (groups : List (Nat × List (Int × Int))) (key : LedgerKey) : List Int :=
  groups.flatMap fun group =>
    if group.1 = key.consumer then offsetsAt key.partition group.2 else []

theorem mem_offsetsFor {plan : CommitPlan} {key : LedgerKey} {o : Int} :
    o ∈ offsetsFor plan.offsets key ↔ (key, o) ∈ plan.reports := by
  unfold offsetsFor offsetsAt CommitPlan.reports
  simp only [List.mem_flatMap, List.mem_map, Prod.mk.injEq]
  constructor
  · rintro ⟨group, hgroup, ho⟩
    split at ho
    · next hconsumer =>
      obtain ⟨po, hpo, rfl⟩ := List.mem_map.mp ho
      obtain ⟨hmem, hpartition⟩ := List.mem_filter.mp hpo
      refine ⟨group, hgroup, po, hmem, ?_, rfl⟩
      rw [hconsumer, beq_iff_eq.mp hpartition]
    · cases ho
  · rintro ⟨group, hgroup, po, hmem, rfl, rfl⟩
    refine ⟨group, hgroup, ?_⟩
    rw [if_pos rfl]
    exact List.mem_map.mpr ⟨po, List.mem_filter.mpr ⟨hmem, beq_iff_eq.mpr rfl⟩, rfl⟩

/-- A queue is reported once, so it is reported as often as its key. -/
theorem length_offsetsFor (plan : CommitPlan) (key : LedgerKey) :
    (offsetsFor plan.offsets key).length = (plan.reports.map (·.1)).count key := by
  unfold offsetsFor offsetsAt CommitPlan.reports
  induction plan.offsets with
  | nil => rfl
  | cons group rest ih =>
    rw [List.flatMap_cons, List.flatMap_cons, List.length_append, ih, List.map_append,
      List.count_append]
    congr 1
    rw [List.map_map, List.count, List.countP_map]
    split
    · next hconsumer =>
      rw [List.length_map, ← List.countP_eq_length_filter]
      apply List.countP_congr
      intro po _
      obtain ⟨consumer, partition⟩ := key
      simp [hconsumer]
    · next hconsumer =>
      symm
      rw [List.length_nil, List.countP_eq_zero]
      intro po _
      obtain ⟨consumer, partition⟩ := key
      simp [hconsumer]

/-- A pass reports the last entry that it releases of a queue, and only that. -/
theorem offsetsFor_collect (h : Tidy l) (key : LedgerKey) :
    offsetsFor l.collect.1.offsets key =
      (((l.queue key).takeWhile l.committable).getLast?.map l.offsetOf).toList := by
  have hmem : ∀ o, o ∈ offsetsFor l.collect.1.offsets key ↔
      ((l.queue key).takeWhile l.committable).getLast?.map l.offsetOf = some o := by
    intro o
    rw [mem_offsetsFor, mem_reports_collect h, Option.map_eq_some_iff]
  have hlength : (offsetsFor l.collect.1.offsets key).length ≤ 1 := by
    rw [length_offsetsFor]
    exact List.nodup_iff_count_le_one.mp (nodup_reports_collect h) key
  cases hoffsets : offsetsFor l.collect.1.offsets key with
  | nil =>
    cases hlast : ((l.queue key).takeWhile l.committable).getLast?.map l.offsetOf with
    | none => rfl
    | some o =>
      have ho := (hmem o).mpr hlast
      rw [hoffsets] at ho
      cases ho
  | cons o rest =>
    have ho : o ∈ offsetsFor l.collect.1.offsets key := hoffsets ▸ List.mem_cons_self
    rw [(hmem o).mp ho]
    rw [hoffsets, List.length_cons] at hlength
    rw [List.length_eq_zero_iff.mp (by omega : rest.length = 0)]
    rfl

theorem toList_getLast?_sublist {α : Type} (as : List α) : as.getLast?.toList.Sublist as := by
  cases h : as.getLast? with
  | none => exact List.nil_sublist as
  | some a => exact List.singleton_sublist.mpr (List.mem_of_getLast? h)

/-- Whatever a pass reports for a queue is the offset of an entry that it releases. -/
theorem offsetsFor_collect_sublist (h : Tidy l) (key : LedgerKey) :
    (offsetsFor l.collect.1.offsets key).Sublist
      (((l.queue key).takeWhile l.committable).map l.offsetOf) := by
  rw [offsetsFor_collect h, ← List.getLast?_map]
  exact toList_getLast?_sublist _

end Ledger

end WorkQueue
