import Mathlib.Algebra.Order.Ring.Nat
import WorkQueue.Proofs.Ledger.SafePrefix

/-!
# What is shown of a ledger

A snapshot shows of every queue its length and its head, and a pass tells the heads that stopped it.
Neither would say much of a ledger whose queues could be empty, or hold records of another
partition, or not ascend: a head could be missing, or be of another queue, or have older records
behind it. No history leads there, although appends may be refused, passes take entries off and
consumers are forgotten. So in a snapshot every key stands once, with its smallest pending offset,
and the heads that stopped a pass are those a snapshot shows behind it.

## Main definitions

* `Ledger.Shown`: what holds of the queues, of the snapshot and of the next pass

## Main statements

* `Ledger.collect_blocked`: the heads that stop a pass are the heads of what it leaves
* `Ledger.shown_after`: what is shown holds after every history
-/

namespace WorkQueue

namespace Ledger

variable {l : Ledger}

/-- What a ledger holds and what is shown of it. -/
structure Shown (l : Ledger) : Prop where
  queue_ne_nil : ∀ q ∈ l.queues, q.2 ≠ []
  /-- Entries belong to the consumer and the partition of their queue. -/
  entry_of_mem : ∀ q ∈ l.queues, ∀ id ∈ q.2, ∃ e, l.entry? id = some e ∧
    e.consumer = q.1.consumer ∧ e.record.partition = q.1.partition
  offsets_ascend : ∀ q ∈ l.queues, (q.2.map l.offsetOf).Pairwise (· < ·)
  /-- A record is refused only where there is a queue, so a refusal leaves no empty one. -/
  refused_in_queue : ∀ consumer record e, l.append consumer record = .error e →
    ∃ q ∈ l.queues, q.1 = ⟨consumer, record.partition⟩
  /-- A snapshot shows the keys of all queues. -/
  key_mem_snapshot : ∀ key, key ∈ l.snapshot.map (·.key) ↔ l.queue key ≠ []
  /-- They ascend by consumer, then by partition, so each is there once. -/
  snapshot_ascends : (l.snapshot.map (·.key)).Pairwise fun a b =>
    a.consumer < b.consumer ∨ (a.consumer = b.consumer ∧ a.partition < b.partition)
  /-- Every head is there, with its state and with the smallest offset of its queue. -/
  snapshot_head : ∀ item ∈ l.snapshot, ∃ id e, (l.queue item.key).head? = some id ∧
    l.entry? id = some e ∧ item.headOffset = some e.record.offset ∧
    item.headState = some e.state ∧
    item.headOffset = ((l.queue item.key).map l.offsetOf).min?
  snapshot_length : ∀ item ∈ l.snapshot, item.pending = (l.queue item.key).length
  snapshot_pending : (l.snapshot.map (·.pending)).sum = l.pending
  /-- The heads that stop a pass are those of the queues it leaves. -/
  blocked_heads :
    l.collect.1.blocked.map (fun head => (head.key, some head.offset, some head.state)) =
      l.collect.2.snapshot.map fun item => (item.key, item.headOffset, item.headState)
  blocked_open : ∀ head ∈ l.collect.1.blocked, head.state.isCommittable = false

/-! ## Snapshots -/

theorem snapshot_keys : l.snapshot.map (·.key) = l.queues.map (·.1) := by
  rw [snapshot, List.map_map]
  rfl

/-- What a snapshot shows is a queue's. -/
theorem mem_snapshot {item : QueueSnapshot} (h : item ∈ l.snapshot) :
    ∃ q ∈ l.queues, item.key = q.1 ∧ item.pending = q.2.length ∧
      item.headOffset = q.2.head?.map l.offsetOf ∧ item.headState = q.2.head?.map l.stateOf := by
  obtain ⟨q, hq, rfl⟩ := List.mem_map.mp h
  exact ⟨q, hq, rfl, rfl, rfl, rfl⟩

theorem sum_pending_snapshot : (l.snapshot.map (·.pending)).sum = l.pending := by
  rw [pending, List.length_flatMap, snapshot, List.map_map]
  rfl

namespace Tidy

theorem mem_keys_iff (h : Tidy l) {key : LedgerKey} :
    key ∈ l.queues.map (·.1) ↔ l.queue key ≠ [] := by
  rw [List.mem_map]
  constructor
  · rintro ⟨q, hq, rfl⟩
    rw [h.queue_eq_of_mem hq]
    exact h.queue_ne_nil q hq
  · intro hne
    obtain ⟨id, hid⟩ := List.exists_mem_of_ne_nil _ hne
    exact ⟨_, h.mem_queues hid, rfl⟩

theorem offsets_pairwise (h : Tidy l) {q : LedgerKey × List Nat} (hq : q ∈ l.queues) :
    (q.2.map l.offsetOf).Pairwise (· < ·) :=
  List.pairwise_map.mpr (h.offsets_ascend q hq)

/-- Where offsets ascend, the first is the smallest. -/
theorem min?_offsets (h : Tidy l) {q : LedgerKey × List Nat} (hq : q ∈ l.queues) :
    (q.2.map l.offsetOf).min? = q.2.head?.map l.offsetOf := by
  have hpair := h.offsets_pairwise hq
  cases hids : q.2 with
  | nil => rfl
  | cons id rest =>
    rw [hids, List.map_cons, List.pairwise_cons] at hpair
    rw [List.map_cons, List.head?_cons, Option.map_some, List.min?_eq_some_iff]
    refine ⟨List.mem_cons_self, fun offset hoffset => ?_⟩
    rcases List.mem_cons.mp hoffset with rfl | hmem
    · exact Int.le_refl _
    · exact Int.le_of_lt (hpair.1 offset hmem)

/-- A queue has a head, which is one of its entries. -/
theorem head_entry (h : Tidy l) {q : LedgerKey × List Nat} (hq : q ∈ l.queues) :
    ∃ id e, q.2.head? = some id ∧ l.entry? id = some e ∧ l.offsetOf id = e.record.offset ∧
      l.stateOf id = e.state := by
  obtain ⟨id, rest, hids⟩ := List.exists_cons_of_ne_nil (h.queue_ne_nil q hq)
  obtain ⟨e, he, -⟩ := h.entry_of_mem q hq id (hids ▸ List.mem_cons_self)
  exact ⟨id, e, by rw [hids]; rfl, he, by simp [offsetOf, he], by simp [stateOf, he]⟩

theorem snapshot_head (h : Tidy l) {item : QueueSnapshot} (hitem : item ∈ l.snapshot) :
    ∃ id e, (l.queue item.key).head? = some id ∧ l.entry? id = some e ∧
      item.headOffset = some e.record.offset ∧ item.headState = some e.state ∧
      item.headOffset = ((l.queue item.key).map l.offsetOf).min? := by
  obtain ⟨q, hq, hkey, -, hoffset, hstate⟩ := mem_snapshot hitem
  obtain ⟨id, e, hhead, he, hoffsetOf, hstateOf⟩ := h.head_entry hq
  rw [hkey, h.queue_eq_of_mem hq, h.min?_offsets hq, hoffset, hstate, hhead]
  exact ⟨id, e, rfl, he, congrArg some hoffsetOf, congrArg some hstateOf, rfl⟩

end Tidy

/-! ## The heads that stop a pass -/

/-- A pass is stopped on a queue by the head of what it leaves of it. -/
theorem blocked?_eq (q : LedgerKey × List Nat) :
    (l.blocked? q).map (fun head => (head.key, some head.offset, some head.state)) =
      (l.remaining? q).map fun q' =>
        (q'.1, q'.2.head?.map l.offsetOf, q'.2.head?.map l.stateOf) := by
  unfold blocked? remaining?
  split
  · next hnil => rw [hnil]; rfl
  · next hne =>
    obtain ⟨id, rest, hids⟩ := List.exists_cons_of_ne_nil hne
    rw [hids]
    rfl

theorem collect_blocked :
    l.collect.1.blocked.map (fun head => (head.key, some head.offset, some head.state)) =
      l.collect.2.snapshot.map fun item => (item.key, item.headOffset, item.headState) := by
  calc
    (l.queues.filterMap l.blocked?).map (fun head => (head.key, some head.offset, some head.state))
      = l.queues.filterMap fun q =>
          (l.blocked? q).map fun head => (head.key, some head.offset, some head.state) :=
        List.map_filterMap ..
    _ = l.queues.filterMap fun q => (l.remaining? q).map fun q' =>
          (q'.1, q'.2.head?.map l.offsetOf, q'.2.head?.map l.stateOf) := by simp only [blocked?_eq]
    _ = (l.queues.filterMap l.remaining?).map fun q' =>
          (q'.1, q'.2.head?.map l.offsetOf, q'.2.head?.map l.stateOf) :=
        (List.map_filterMap ..).symm
    _ = l.collect.2.snapshot.map fun item => (item.key, item.headOffset, item.headState) := by
        -- a pass changes no entry
        rw [snapshot, List.map_map]
        rfl

theorem blocked_not_committable {head : BlockedHead} (h : head ∈ l.collect.1.blocked) :
    head.state.isCommittable = false := by
  obtain ⟨q, -, hblocked⟩ := List.mem_filterMap.mp h
  obtain ⟨id, hid, rfl⟩ := Option.map_eq_some_iff.mp hblocked
  have hopen : l.stateOf id ∈ openStates := head?_dropWhile_committable hid
  simpa using mem_openStates_iff.mp hopen

/-! ## Main theorem -/

theorem Tidy.shown (h : Tidy l) : Shown l where
  queue_ne_nil := h.queue_ne_nil
  entry_of_mem := h.entry_of_mem
  offsets_ascend := fun _ hq => h.offsets_pairwise hq
  refused_in_queue := fun consumer record e he => by
    obtain ⟨tail, htail, -⟩ := append_eq_error he
    exact ⟨_, h.mem_queues htail, rfl⟩
  key_mem_snapshot := fun key => by rw [snapshot_keys, h.mem_keys_iff]
  snapshot_ascends := by
    rw [snapshot_keys, List.pairwise_map]
    exact h.keys_ascend.imp LedgerKey.before_iff.mp
  snapshot_head := fun _ hitem => h.snapshot_head hitem
  snapshot_length := fun item hitem => by
    obtain ⟨q, hq, hkey, hpending, -⟩ := mem_snapshot hitem
    rw [hpending, hkey, h.queue_eq_of_mem hq]
  snapshot_pending := sum_pending_snapshot
  blocked_heads := collect_blocked
  blocked_open := fun _ hhead => blocked_not_committable hhead

/-- **What is shown holds.** After every history of an empty ledger, with appends accepted and
refused, every queue has entries, which are its own and ascend; a snapshot shows every key once, in
order, with the smallest offset pending there and its state; its counts add up to what is tracked;
and a pass is stopped by exactly the heads a snapshot shows behind it, none of which may be
committed. -/
theorem shown_after (actions : List Action) : Shown (Account.after {} actions).ledger :=
  (Account.Sound.start.after actions).tidy.shown

end Ledger

end WorkQueue
