import Mathlib.Data.List.Perm.Basic
import Mathlib.Data.List.TakeWhile
import WorkQueue.Proofs.Ledger.Queues

/-!
# What the operations do to the queues

Four operations move tracked entries: an append adds one entry at the end of one queue, a
transition changes a state and no queue, a pass takes the committable front off every queue, and
forgetting a consumer drops its queues whole. Each keeps a ledger tidy, and each accounts for all
entries that were tracked.

## Main statements

* `Ledger.queue_append`, `Ledger.queue_collect`, `Ledger.queue_forget`: what becomes of a queue
* `Ledger.perm_tracked_append`, `Ledger.perm_tracked_collect`, `Ledger.perm_tracked_forget`: no
  entry is lost
* `Ledger.mem_reports_collect`: the offset a pass reports is that of the last entry it releases
* `Ledger.Tidy.track`, `Ledger.Tidy.transition`, `Ledger.Tidy.collect`, `Ledger.Tidy.forget`
-/

namespace WorkQueue

namespace Ledger

variable {l : Ledger}

/-! ## Appending -/

/-- The ledger that tracks one more record. -/
def track (l : Ledger) (consumer : Nat) (record : Record) : Ledger :=
  ⟨l.entries.push ⟨consumer, record, .queued⟩,
    enqueue ⟨consumer, record.partition⟩ l.entries.size l.queues⟩

section Append

variable {consumer : Nat} {record : Record}

/-- An append is accepted if the record comes behind the tail of its queue. It then gets the next
number. -/
theorem append_eq_ok_iff {id : Nat} {l' : Ledger} :
    l.append consumer record = .ok (id, l') ↔
      (∀ tail, (l.queue ⟨consumer, record.partition⟩).getLast? = some tail →
        l.offsetOf tail < record.offset) ∧
      id = l.entries.size ∧ l' = l.track consumer record := by
  unfold append
  simp only
  split
  · rename_i hnone
    simp [hnone, track, eq_comm]
  · rename_i tail htail
    split
    · rename_i hle
      simp [htail]
      omega
    · rename_i hlt
      simp [htail, track, eq_comm, Int.not_le.mp hlt]

/-- A refused record does not come behind the tail of its queue. -/
theorem append_eq_error {e : OutOfOrder} (h : l.append consumer record = .error e) :
    ∃ tail ∈ l.queue ⟨consumer, record.partition⟩, record.offset ≤ l.offsetOf tail := by
  unfold append at h
  simp only at h
  split at h
  · cases h
  · rename_i tail htail
    split at h
    · rename_i hle
      exact ⟨tail, List.mem_of_getLast? htail, hle⟩
    · cases h

theorem entry?_track (id : Nat) :
    entry? (l.track consumer record) id =
      if id = l.entries.size then some ⟨consumer, record, .queued⟩ else l.entry? id :=
  entry?_push _ _ _

theorem entry?_track_of_lt {id : Nat} (h : id < l.entries.size) :
    entry? (l.track consumer record) id = l.entry? id := by
  rw [entry?_track, if_neg (Nat.ne_of_lt h)]

theorem offsetOf_track_of_lt {id : Nat} (h : id < l.entries.size) :
    (l.track consumer record).offsetOf id = l.offsetOf id := by
  simp only [offsetOf, entry?_track_of_lt h]

theorem stateOf_track_of_lt {id : Nat} (h : id < l.entries.size) :
    (l.track consumer record).stateOf id = l.stateOf id := by
  simp only [stateOf, entry?_track_of_lt h]

@[simp] theorem offsetOf_track_size :
    (l.track consumer record).offsetOf l.entries.size = record.offset := by
  simp [offsetOf, entry?_track]

@[simp] theorem size_entries_track :
    (l.track consumer record).entries.size = l.entries.size + 1 :=
  Array.size_push ..

/-- A new entry goes to the end of its queue. -/
theorem queue_append (h : Tidy l) (key : LedgerKey) :
    (l.track consumer record).queue key =
      if key = ⟨consumer, record.partition⟩ then l.queue key ++ [l.entries.size]
      else l.queue key := by
  unfold queue track
  simp only [lookup_enqueue h.keys_ascend]
  by_cases hk : key = ⟨consumer, record.partition⟩ <;> simp [hk]

theorem perm_tracked_append :
    List.Perm (l.track consumer record).tracked (l.entries.size :: l.tracked) :=
  perm_flatMap_enqueue

theorem mem_queues_track {q : LedgerKey × List Nat} (h : Tidy l)
    (hq : q ∈ (l.track consumer record).queues) :
    q ∈ l.queues ∨
      q = (⟨consumer, record.partition⟩,
        l.queue ⟨consumer, record.partition⟩ ++ [l.entries.size]) := by
  have hkeys : KeysAscend (l.track consumer record).queues := h.keys_ascend.enqueue
  have hl : (l.track consumer record).queues.lookup q.1 = some q.2 :=
    hkeys.lookup_eq_some_iff.mpr hq
  rw [track, lookup_enqueue h.keys_ascend] at hl
  split at hl
  · rename_i hkey
    exact .inr (Prod.ext hkey (Option.some.inj hl).symm)
  · exact .inl (h.keys_ascend.lookup_eq_some_iff.mp hl)

theorem Tidy.track (h : Tidy l)
    (hlast : ∀ tail, (l.queue ⟨consumer, record.partition⟩).getLast? = some tail →
      l.offsetOf tail < record.offset) : Tidy (l.track consumer record) where
  keys_ascend := h.keys_ascend.enqueue
  queue_ne_nil := by
    intro q hq
    rcases mem_queues_track h hq with hmem | rfl
    · exact h.queue_ne_nil q hmem
    · simp
  entry_of_mem := by
    intro q hq id hid
    rcases mem_queues_track h hq with hmem | rfl
    · obtain ⟨e, he, hkey⟩ := h.entry_of_mem q hmem id hid
      exact ⟨e, (entry?_track_of_lt (entry?_lt he)).trans he, hkey⟩
    · rcases List.mem_append.mp hid with hold | hnew
      · obtain ⟨e, he, hkey⟩ := h.entry_of_mem_queue hold
        exact ⟨e, (entry?_track_of_lt (entry?_lt he)).trans he, hkey⟩
      · rw [List.mem_singleton.mp hnew]
        exact ⟨_, by rw [entry?_track, if_pos rfl], rfl, rfl⟩
  offsets_ascend := by
    intro q hq
    -- Older entries keep their offsets; the new one is the largest of its queue.
    have hold : ∀ ids : List Nat, (∀ id ∈ ids, id < l.entries.size) →
        ids.Pairwise (fun i j => l.offsetOf i < l.offsetOf j) →
        ids.Pairwise fun i j =>
          (l.track consumer record).offsetOf i < (l.track consumer record).offsetOf j := by
      intro ids hlt hpair
      refine hpair.imp_of_mem fun hi hj hij => ?_
      rw [offsetOf_track_of_lt (hlt _ hi), offsetOf_track_of_lt (hlt _ hj)]
      exact hij
    rcases mem_queues_track h hq with hmem | rfl
    · refine hold q.2 (fun id hid => ?_) (h.offsets_ascend q hmem)
      exact h.lt_of_mem_tracked (List.mem_flatMap.mpr ⟨q, hmem, hid⟩)
    · have hlt : ∀ id ∈ l.queue ⟨consumer, record.partition⟩, id < l.entries.size := by
        intro id hid
        exact h.lt_of_mem_tracked (h.mem_tracked_iff.mpr ⟨_, hid⟩)
      refine List.pairwise_append.mpr
        ⟨hold _ hlt (h.pairwise_queue _), List.pairwise_singleton _ _, ?_⟩
      intro i hi j hj
      rw [List.mem_singleton.mp hj, offsetOf_track_size, offsetOf_track_of_lt (hlt i hi)]
      -- the tail was compared with the record, and it is the largest of the old ones
      obtain ⟨tail, htail⟩ := Option.isSome_iff_exists.mp
        (List.getLast?_isSome.mpr (List.ne_nil_of_mem hi))
      have hle : l.offsetOf i ≤ l.offsetOf tail := by
        obtain ⟨front, hfront⟩ := List.getLast?_eq_some_iff.mp htail
        have hpair := h.pairwise_queue ⟨consumer, record.partition⟩
        rw [hfront] at hpair hi
        rcases List.mem_append.mp hi with hif | hil
        · exact Int.le_of_lt ((List.pairwise_append.mp hpair).2.2 i hif tail (by simp))
        · exact Int.le_of_eq (congrArg l.offsetOf (List.mem_singleton.mp hil))
      exact Int.lt_of_le_of_lt hle (hlast tail htail)

end Append

/-! ## Passes -/

@[simp] theorem committable_collect : l.collect.2.committable = l.committable := rfl

theorem remaining?_eq_some {q q' : LedgerKey × List Nat} (h : l.remaining? q = some q') :
    q'.1 = q.1 ∧ q'.2 = q.2.dropWhile l.committable ∧ q'.2 ≠ [] := by
  unfold remaining? at h
  split at h
  · cases h
  · rename_i hne
    cases h
    exact ⟨rfl, rfl, fun hnil => hne (by simpa using hnil)⟩

/-- A pass leaves of a queue what stands behind its committable front. -/
theorem queue_collect (h : Tidy l) (key : LedgerKey) :
    l.collect.2.queue key = (l.queue key).dropWhile l.committable := by
  have hkeys : KeysAscend (l.queues.filterMap l.remaining?) :=
    h.keys_ascend.filterMap _ fun q q' hq => (remaining?_eq_some hq).1
  -- a queue that is taken off whole is gone, so the lookup decides which case it is
  cases hl : (l.queues.filterMap l.remaining?).lookup key with
  | some ids =>
    have hqueue : l.collect.2.queue key = ids := by simp [queue, collect, hl]
    obtain ⟨q, hq, hrem⟩ := List.mem_filterMap.mp (hkeys.lookup_eq_some_iff.mp hl)
    obtain ⟨hkey, hids, -⟩ := remaining?_eq_some hrem
    simp only at hkey hids
    rw [hqueue, hids, hkey, h.queue_eq_of_mem hq]
  | none =>
    have hqueue : l.collect.2.queue key = [] := by simp [queue, collect, hl]
    rw [hqueue]
    -- were something left, its queue would have been kept
    by_contra hne
    have hdrop : (l.queue key).dropWhile l.committable ≠ [] := fun hnil => hne hnil.symm
    obtain ⟨id, hid⟩ := List.exists_mem_of_ne_nil _ hdrop
    have hmem := h.mem_queues ((List.dropWhile_sublist _).mem hid)
    have hrem : l.remaining? (key, l.queue key) =
        some (key, (l.queue key).dropWhile l.committable) := by
      unfold remaining?
      split
      · rename_i hnil
        exact absurd hnil hdrop
      · rfl
    have hsome := hkeys.lookup_eq_some_iff.mpr (List.mem_filterMap.mpr ⟨_, hmem, hrem⟩)
    rw [hl] at hsome
    cases hsome

theorem Tidy.collect (h : Tidy l) : Tidy l.collect.2 where
  keys_ascend := h.keys_ascend.filterMap _ fun _ _ hq => (remaining?_eq_some hq).1
  queue_ne_nil := by
    intro q' hq'
    obtain ⟨q, -, hrem⟩ := List.mem_filterMap.mp hq'
    exact (remaining?_eq_some hrem).2.2
  entry_of_mem := by
    intro q' hq' id hid
    obtain ⟨q, hq, hrem⟩ := List.mem_filterMap.mp hq'
    obtain ⟨hkey, hids, -⟩ := remaining?_eq_some hrem
    rw [hids] at hid
    rw [hkey]
    exact h.entry_of_mem q hq id ((List.dropWhile_sublist _).mem hid)
  offsets_ascend := by
    intro q' hq'
    obtain ⟨q, hq, hrem⟩ := List.mem_filterMap.mp hq'
    rw [(remaining?_eq_some hrem).2.1]
    exact (h.offsets_ascend q hq).sublist (List.dropWhile_sublist _)

/-- What a pass takes off the queues, queue by queue. -/
def front (l : Ledger) : List Nat := l.queues.flatMap fun q => q.2.takeWhile l.committable

theorem released_collect : l.collect.1.released = l.front.length := rfl

theorem flatMap_remaining (queues : List (LedgerKey × List Nat)) :
    (queues.filterMap l.remaining?).flatMap (·.2) =
      queues.flatMap fun q => q.2.dropWhile l.committable := by
  induction queues with
  | nil => rfl
  | cons q rest ih =>
    cases hrem : l.remaining? q with
    | none =>
      have hnil : q.2.dropWhile l.committable = [] := by
        unfold remaining? at hrem
        split at hrem
        · assumption
        · cases hrem
      simp [hrem, ih, hnil]
    | some q' => simp [hrem, ih, (remaining?_eq_some hrem).2.1]

/-- A pass moves tracked entries to its front, and loses none. -/
theorem perm_tracked_collect : List.Perm l.tracked (l.front ++ l.collect.2.tracked) := by
  have hsplit : l.tracked = l.queues.flatMap fun q =>
      q.2.takeWhile l.committable ++ q.2.dropWhile l.committable := by
    simp [tracked]
  rw [hsplit, tracked, collect, flatMap_remaining]
  exact (List.flatMap_append_perm ..).symm

/-! ## What a pass reports -/

/-- The offsets that a plan reports, each with its queue. -/
def CommitPlan.reports (plan : CommitPlan) : List (LedgerKey × Int) :=
  plan.offsets.flatMap fun group => group.2.map fun (partition, offset) =>
    (⟨group.1, partition⟩, offset)

/-- Grouping by consumer loses no offset and keeps their order. -/
theorem flatMap_groupByConsumer (offsets : List (Nat × (Int × Int))) :
    ((groupByConsumer offsets).flatMap fun group => group.2.map fun po => (group.1, po)) =
      offsets := by
  induction offsets with
  | nil => rfl
  | cons first rest ih =>
    obtain ⟨consumer, po⟩ := first
    simp only [groupByConsumer]
    split
    · rename_i c pos groups hgroups
      rw [hgroups] at ih
      split
      · rename_i hc
        subst hc
        simpa using ih
      · simpa using ih
    · rename_i hgroups
      rw [hgroups] at ih
      simpa using ih

theorem reports_collect :
    l.collect.1.reports =
      (l.queues.filterMap l.released?).map fun r => (⟨r.1, r.2.1⟩, r.2.2) := by
  conv_rhs => rw [← flatMap_groupByConsumer (l.queues.filterMap l.released?)]
  simp [CommitPlan.reports, collect, List.map_flatMap, Function.comp_def]

/-- A pass reports, for every queue it releases entries of, the offset of the last one. -/
theorem mem_reports_collect (h : Tidy l) {key : LedgerKey} {offset : Int} :
    (key, offset) ∈ l.collect.1.reports ↔
      ∃ id, ((l.queue key).takeWhile l.committable).getLast? = some id ∧
        l.offsetOf id = offset := by
  simp only [reports_collect, List.mem_map, List.mem_filterMap]
  constructor
  · rintro ⟨r, ⟨q, hq, hr⟩, heq⟩
    obtain ⟨id, hid, rfl⟩ := Option.map_eq_some_iff.mp hr
    cases heq
    exact ⟨id, (h.queue_eq_of_mem hq).symm ▸ hid, rfl⟩
  · rintro ⟨id, hid, rfl⟩
    have hmem : id ∈ l.queue key :=
      (List.takeWhile_sublist _).mem (List.mem_of_getLast? hid)
    exact ⟨_, ⟨_, h.mem_queues hmem, by unfold released?; rw [hid]; rfl⟩, rfl⟩

/-- An entry that a pass does not release lies behind the offset reported for its queue, since
offsets ascend. -/
theorem lt_of_mem_reports (h : Tidy l) {key : LedgerKey} {offset : Int}
    (hreport : (key, offset) ∈ l.collect.1.reports) {id : Nat} (hid : id ∈ l.queue key)
    (hopen : ¬ l.committable id = true) : offset < l.offsetOf id := by
  obtain ⟨last, hlast, rfl⟩ := (mem_reports_collect h).mp hreport
  have hpair := h.pairwise_queue key
  rw [← List.takeWhile_append_dropWhile (p := l.committable) (l := l.queue key)] at hid hpair
  -- an open entry is not in the front, and what is behind the front has larger offsets
  rcases List.mem_append.mp hid with htaken | hleft
  · exact absurd (List.mem_takeWhile_imp htaken) hopen
  · exact (List.pairwise_append.mp hpair).2.2 last (List.mem_of_getLast? hlast) id hleft

/-- A pass reports every queue at most once. -/
theorem nodup_reports_collect (h : Tidy l) : (l.collect.1.reports.map (·.1)).Nodup := by
  have hkeys : l.collect.1.reports.map (·.1) =
      (l.queues.filterMap l.released?).map fun r => (⟨r.1, r.2.1⟩ : LedgerKey) := by
    rw [reports_collect, List.map_map]
    rfl
  have hkey : ∀ q r, l.released? q = some r → (⟨r.1, r.2.1⟩ : LedgerKey) = q.1 := by
    intro q r hr
    obtain ⟨id, -, rfl⟩ := Option.map_eq_some_iff.mp hr
    rfl
  rw [hkeys, List.Nodup, List.pairwise_map]
  -- queues with ascending keys report under different keys
  refine List.Pairwise.filterMap _ (fun a b hab r hr r' hr' heq => ?_) h.keys_ascend
  rw [hkey a r hr, hkey b r' hr'] at heq
  rw [heq] at hab
  exact LedgerKey.before_irrefl _ hab

/-! ## Forgetting -/

theorem queues_forget (consumer : Nat) :
    (l.forget consumer).2.queues = l.queues.filter fun q => !(q.1.consumer == consumer) := by
  simp [forget, List.partition_eq_filter_filter, Function.comp_def]

/-- Forgetting a consumer empties its queues, and leaves those of others as they are. -/
theorem queue_forget (h : Tidy l) (consumer : Nat) (key : LedgerKey) :
    (l.forget consumer).2.queue key = if key.consumer = consumer then [] else l.queue key := by
  have hkeys : KeysAscend (l.forget consumer).2.queues := by
    rw [queues_forget]
    exact h.keys_ascend.filter _
  cases hl : (l.forget consumer).2.queues.lookup key with
  | some ids =>
    have hqueue : (l.forget consumer).2.queue key = ids := by simp [queue, hl]
    have hmem := hkeys.lookup_eq_some_iff.mp hl
    rw [queues_forget] at hmem
    obtain ⟨hmem, hkeep⟩ := List.mem_filter.mp hmem
    have hne : key.consumer ≠ consumer := by simpa using hkeep
    rw [hqueue, if_neg hne]
    exact (h.queue_eq_of_mem hmem).symm
  | none =>
    have hqueue : (l.forget consumer).2.queue key = [] := by simp [queue, hl]
    rw [hqueue]
    split
    · rfl
    · rename_i hne
      by_contra hnil
      obtain ⟨id, hid⟩ := List.exists_mem_of_ne_nil _ (fun h' => hnil h'.symm)
      have hkeep : (key, l.queue key) ∈ (l.forget consumer).2.queues := by
        rw [queues_forget]
        exact List.mem_filter.mpr ⟨h.mem_queues hid, by simpa using hne⟩
      rw [hkeys.lookup_eq_some_iff.mpr hkeep] at hl
      cases hl

theorem Tidy.forget (h : Tidy l) (consumer : Nat) : Tidy (l.forget consumer).2 where
  keys_ascend := by
    rw [queues_forget]
    exact h.keys_ascend.filter _
  queue_ne_nil := by
    intro q hq
    rw [queues_forget] at hq
    exact h.queue_ne_nil q (List.mem_filter.mp hq).1
  entry_of_mem := by
    intro q hq
    rw [queues_forget] at hq
    exact h.entry_of_mem q (List.mem_filter.mp hq).1
  offsets_ascend := by
    intro q hq
    rw [queues_forget] at hq
    exact h.offsets_ascend q (List.mem_filter.mp hq).1

/-- What forgetting a consumer drops, queue by queue. -/
def held (l : Ledger) (consumer : Nat) : List Nat :=
  (l.queues.filter fun q => q.1.consumer == consumer).flatMap (·.2)

theorem count_forget (consumer : Nat) : (l.forget consumer).1 = (l.held consumer).length := by
  simp [forget, held, List.partition_eq_filter_filter]

/-- Forgetting drops tracked entries, and loses no other. -/
theorem perm_tracked_forget (consumer : Nat) :
    List.Perm l.tracked (l.held consumer ++ (l.forget consumer).2.tracked) := by
  unfold tracked held
  rw [queues_forget, ← List.flatMap_append]
  exact ((List.filter_append_perm _ l.queues).symm).flatMap_right _

/-! ## Transitions -/

theorem Tidy.transition (h : Tidy l) (id : Nat) (next : EntryState) :
    Tidy (l.transition id next).2 where
  keys_ascend := by
    rw [queues_transition]
    exact h.keys_ascend
  queue_ne_nil := by
    intro q hq
    rw [queues_transition] at hq
    exact h.queue_ne_nil q hq
  entry_of_mem := by
    intro q hq j hj
    rw [queues_transition] at hq
    obtain ⟨e, he, hkey⟩ := h.entry_of_mem q hq j hj
    refine ⟨_, by rw [entry?_transition, he]; rfl, ?_⟩
    split <;> exact hkey
  offsets_ascend := by
    intro q hq
    rw [queues_transition] at hq
    simpa using h.offsets_ascend q hq

end Ledger

end WorkQueue
