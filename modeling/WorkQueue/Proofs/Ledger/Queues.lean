import WorkQueue.Ledger.Basic

/-!
# The queues of a ledger

The tracked entries of a ledger stand in queues, one for each consumer and partition. The list of
queues ascends by key, so that a lookup, a membership and the entries themselves all tell the same
queue.

## Main statements

* `Ledger.KeysAscend.lookup_eq_some_iff`, `Ledger.lookup_enqueue`: looking queues up
* `Ledger.entry?_transition`: what a transition does to an entry
* `Ledger.Tidy`: keys ascend, no queue is empty, entries stand in the queue of their key, offsets
  ascend within a queue
* `Ledger.Tidy.nodup_tracked`: no entry is tracked twice
-/

namespace WorkQueue

/-! ## The order of keys -/

namespace LedgerKey

theorem before_iff {a b : LedgerKey} :
    a.before b = true ↔
      a.consumer < b.consumer ∨ (a.consumer = b.consumer ∧ a.partition < b.partition) := by
  simp [before]

theorem before_irrefl (a : LedgerKey) : ¬ a.before a = true := by
  rw [before_iff]
  omega

theorem before_trans {a b c : LedgerKey} (hab : a.before b = true) (hbc : b.before c = true) :
    a.before c = true := by
  rw [before_iff] at *
  omega

theorem before_of_ne {a b : LedgerKey} (hne : a ≠ b) (hab : ¬ a.before b = true) :
    b.before a = true := by
  obtain ⟨c, p⟩ := a
  obtain ⟨c', p'⟩ := b
  simp only [ne_eq, mk.injEq, not_and] at hne
  rw [before_iff] at *
  simp only at hab ⊢
  by_cases hc : c = c'
  · have hp := hne hc
    omega
  · omega

end LedgerKey

namespace Ledger

/-- Keys ascend along the list of queues. -/
def KeysAscend (queues : List (LedgerKey × List Nat)) : Prop :=
  queues.Pairwise fun a b => a.1.before b.1 = true

theorem KeysAscend.ne_of_mem {q : LedgerKey × List Nat} {rest : List (LedgerKey × List Nat)}
    (h : KeysAscend (q :: rest)) {q' : LedgerKey × List Nat} (hq' : q' ∈ rest) : q'.1 ≠ q.1 := by
  intro heq
  have hlt := (List.pairwise_cons.mp h).1 q' hq'
  rw [heq] at hlt
  exact LedgerKey.before_irrefl _ hlt

/-- A key has at most one queue, which is the one a lookup finds. -/
theorem KeysAscend.lookup_eq_some_iff {queues : List (LedgerKey × List Nat)}
    (h : KeysAscend queues) {key : LedgerKey} {ids : List Nat} :
    queues.lookup key = some ids ↔ (key, ids) ∈ queues := by
  induction queues with
  | nil => simp
  | cons q rest ih =>
    obtain ⟨k, ids'⟩ := q
    have hrest : KeysAscend rest := (List.pairwise_cons.mp h).2
    by_cases hk : key = k
    · subst hk
      have hnot : (key, ids) ∉ rest := fun hmem => h.ne_of_mem hmem rfl
      simp [hnot, eq_comm]
    · have hbeq : (key == k) = false := beq_eq_false_iff_ne.mpr hk
      simp [List.lookup_cons, hbeq, ih hrest, hk]

theorem KeysAscend.filterMap {queues : List (LedgerKey × List Nat)} (h : KeysAscend queues)
    (f : LedgerKey × List Nat → Option (LedgerKey × List Nat))
    (hf : ∀ q q', f q = some q' → q'.1 = q.1) : KeysAscend (queues.filterMap f) := by
  refine List.Pairwise.filterMap f (fun a b hab a' ha' b' hb' => ?_) h
  rw [hf a a' ha', hf b b' hb']
  exact hab

theorem KeysAscend.filter {queues : List (LedgerKey × List Nat)} (h : KeysAscend queues)
    (keep : LedgerKey × List Nat → Bool) : KeysAscend (queues.filter keep) :=
  List.Pairwise.filter keep h

/-! ## Adding to a queue -/

section Enqueue

variable {key : LedgerKey} {id : Nat} {queues : List (LedgerKey × List Nat)}

/-- The keys behind an enqueue are those in front of it and the one enqueued for. -/
theorem key_of_mem_enqueue {q : LedgerKey × List Nat} (hq : q ∈ enqueue key id queues) :
    q.1 = key ∨ ∃ q' ∈ queues, q'.1 = q.1 := by
  induction queues with
  | nil =>
    simp only [enqueue, List.mem_singleton] at hq
    exact .inl (by rw [hq])
  | cons p rest ih =>
    obtain ⟨k, ids⟩ := p
    simp only [enqueue] at hq
    split at hq
    · rename_i heq
      rcases List.mem_cons.mp hq with rfl | hmem
      · exact .inl heq.symm
      · exact .inr ⟨q, List.mem_cons_of_mem _ hmem, rfl⟩
    · split at hq
      · rcases List.mem_cons.mp hq with rfl | hmem
        · exact .inl rfl
        · exact .inr ⟨q, hmem, rfl⟩
      · rcases List.mem_cons.mp hq with rfl | hmem
        · exact .inr ⟨(k, ids), List.mem_cons_self .., rfl⟩
        · rcases ih hmem with h | ⟨q', hq', h⟩
          · exact .inl h
          · exact .inr ⟨q', List.mem_cons_of_mem _ hq', h⟩

theorem KeysAscend.enqueue (h : KeysAscend queues) : KeysAscend (enqueue key id queues) := by
  induction queues with
  | nil => exact List.pairwise_singleton _ _
  | cons p rest ih =>
    obtain ⟨k, ids⟩ := p
    have hcons := List.pairwise_cons.mp h
    simp only [Ledger.enqueue]
    -- the queue is there, or comes in front of the first one, or belongs further behind
    split
    · exact List.pairwise_cons.mpr hcons
    · rename_i hne
      split
      · rename_i hlt
        refine List.pairwise_cons.mpr ⟨fun q hq => ?_, h⟩
        rcases List.mem_cons.mp hq with rfl | hmem
        · exact hlt
        · exact LedgerKey.before_trans hlt (hcons.1 q hmem)
      · rename_i hnlt
        refine List.pairwise_cons.mpr ⟨fun q hq => ?_, ih hcons.2⟩
        rcases key_of_mem_enqueue hq with hkey | ⟨q', hq', hkey⟩
        · rw [hkey]
          exact LedgerKey.before_of_ne hne hnlt
        · rw [← hkey]
          exact hcons.1 q' hq'

/-- An enqueue appends to the queue of its key, and leaves every other queue as it is. -/
theorem lookup_enqueue (h : KeysAscend queues) (other : LedgerKey) :
    (Ledger.enqueue key id queues).lookup other =
      if other = key then some ((queues.lookup key).getD [] ++ [id]) else queues.lookup other := by
  induction queues with
  | nil => by_cases ho : other = key <;> simp [Ledger.enqueue, ho]
  | cons p rest ih =>
    obtain ⟨k, ids⟩ := p
    have hcons := List.pairwise_cons.mp h
    simp only [Ledger.enqueue]
    split
    · rename_i heq
      subst heq
      by_cases ho : other = key
      · simp [ho]
      · simp [List.lookup_cons, beq_eq_false_iff_ne.mpr ho, ho]
    · rename_i hne
      have hkey : (key == k) = false := beq_eq_false_iff_ne.mpr hne
      split
      · rename_i hlt
        -- Every key behind comes later than `key`, so `key` has no queue yet.
        have hnone : rest.lookup key = none := by
          cases hl : rest.lookup key with
          | none => rfl
          | some ids' =>
            have hmem := ((show KeysAscend rest from hcons.2).lookup_eq_some_iff).mp hl
            exact absurd (LedgerKey.before_trans hlt (hcons.1 _ hmem)) (LedgerKey.before_irrefl _)
        by_cases ho : other = key
        · simp [ho, List.lookup_cons, hkey, hnone]
        · simp [List.lookup_cons, beq_eq_false_iff_ne.mpr ho, ho]
      · by_cases hk : other = k
        · subst hk
          simp [Ne.symm hne]
        · have hbeq : (other == k) = false := beq_eq_false_iff_ne.mpr hk
          simp [List.lookup_cons, hbeq, hkey, ih hcons.2]

theorem perm_flatMap_enqueue :
    List.Perm ((Ledger.enqueue key id queues).flatMap (·.2)) (id :: queues.flatMap (·.2)) := by
  induction queues with
  | nil => exact List.Perm.refl _
  | cons p rest ih =>
    obtain ⟨k, ids⟩ := p
    simp only [Ledger.enqueue]
    split
    · simp only [List.flatMap_cons, List.append_assoc, List.singleton_append]
      exact List.perm_middle
    · split
      · simp
      · simp only [List.flatMap_cons]
        exact (ih.append_left ids).trans List.perm_middle

end Enqueue

/-! ## Entries -/

variable {l : Ledger}

theorem entry?_push (e : Entry) (queues : List (LedgerKey × List Nat)) (id : Nat) :
    entry? ⟨l.entries.push e, queues⟩ id =
      if id = l.entries.size then some e else l.entry? id := by
  simp only [Array.getElem?_push, entry?]

theorem entry?_lt {id : Nat} {e : Entry} (h : l.entry? id = some e) : id < l.entries.size :=
  (Array.getElem?_eq_some_iff.mp h).1

/-- A transition changes the state of one entry, if that was not terminal, and nothing else. -/
theorem entry?_transition (id : Nat) (next : EntryState) (j : Nat) :
    entry? (l.transition id next).2 j =
      (l.entry? j).map fun e =>
        if j = id then { e with state := EntryState.moveTo next e.state } else e := by
  unfold transition
  split
  · rename_i hnone
    by_cases hj : j = id
    · subst hj
      simp [hnone]
    · simp [hj]
  · rename_i e he
    have he' : l.entries[id]? = some e := he
    by_cases hterm : e.state.isTerminal
    · by_cases hj : j = id
      · subst hj
        simp [he, hterm]
      · simp [hj, hterm]
    · by_cases hj : j = id
      · subst hj
        simp [Array.getElem?_modify, entry?, he', hterm, EntryState.moveTo]
      · simp [Array.getElem?_modify, entry?, hj, Ne.symm hj, hterm]

@[simp] theorem queues_transition (id : Nat) (next : EntryState) :
    (l.transition id next).2.queues = l.queues := by
  unfold transition
  split
  · rfl
  · split <;> rfl

@[simp] theorem size_entries_transition (id : Nat) (next : EntryState) :
    (l.transition id next).2.entries.size = l.entries.size := by
  unfold transition
  split
  · rfl
  · split <;> simp

@[simp] theorem offsetOf_transition (id : Nat) (next : EntryState) (j : Nat) :
    (l.transition id next).2.offsetOf j = l.offsetOf j := by
  simp only [offsetOf, entry?_transition]
  cases l.entry? j with
  | none => rfl
  | some e => by_cases hj : j = id <;> simp [hj]

@[simp] theorem queue_transition (id : Nat) (next : EntryState) (key : LedgerKey) :
    (l.transition id next).2.queue key = l.queue key := by
  simp [queue]

/-- An entry in a terminal state keeps it. -/
theorem stateOf_transition_of_isTerminal {j : Nat} (h : (l.stateOf j).isTerminal = true)
    (id : Nat) (next : EntryState) : (l.transition id next).2.stateOf j = l.stateOf j := by
  simp only [stateOf, entry?_transition] at h ⊢
  cases he : l.entry? j with
  | none => rfl
  | some e =>
    simp only [he] at h
    by_cases hj : j = id <;> simp [hj, h]

/-! ## Tidy ledgers -/

/-- All tracked entries, queue by queue. -/
def tracked (l : Ledger) : List Nat := l.queues.flatMap (·.2)

/-- What every sequence of operations on an empty ledger comes to. -/
structure Tidy (l : Ledger) : Prop where
  keys_ascend : KeysAscend l.queues
  queue_ne_nil : ∀ q ∈ l.queues, q.2 ≠ []
  entry_of_mem : ∀ q ∈ l.queues, ∀ id ∈ q.2, ∃ e, l.entry? id = some e ∧
    e.consumer = q.1.consumer ∧ e.record.partition = q.1.partition
  offsets_ascend : ∀ q ∈ l.queues, q.2.Pairwise fun i j => l.offsetOf i < l.offsetOf j

theorem tidy_empty : Tidy empty where
  keys_ascend := List.Pairwise.nil
  queue_ne_nil := fun _ hq => absurd hq List.not_mem_nil
  entry_of_mem := fun _ hq => absurd hq List.not_mem_nil
  offsets_ascend := fun _ hq => absurd hq List.not_mem_nil

namespace Tidy

theorem queue_eq_of_mem (h : Tidy l) {q : LedgerKey × List Nat} (hq : q ∈ l.queues) :
    l.queue q.1 = q.2 := by
  have hl : l.queues.lookup q.1 = some q.2 := h.keys_ascend.lookup_eq_some_iff.mpr hq
  simp [queue, hl]

/-- A key with tracked entries has its queue among those of the ledger. -/
theorem mem_queues (h : Tidy l) {key : LedgerKey} {id : Nat} (hid : id ∈ l.queue key) :
    (key, l.queue key) ∈ l.queues := by
  unfold queue at hid ⊢
  cases hl : l.queues.lookup key with
  | none => simp [hl] at hid
  | some ids => exact h.keys_ascend.lookup_eq_some_iff.mp hl

theorem mem_tracked_iff (h : Tidy l) {id : Nat} : id ∈ l.tracked ↔ ∃ key, id ∈ l.queue key := by
  simp only [tracked, List.mem_flatMap]
  constructor
  · rintro ⟨q, hq, hid⟩
    exact ⟨q.1, (h.queue_eq_of_mem hq).symm ▸ hid⟩
  · rintro ⟨key, hid⟩
    exact ⟨_, h.mem_queues hid, hid⟩

theorem entry_of_mem_queue (h : Tidy l) {key : LedgerKey} {id : Nat} (hid : id ∈ l.queue key) :
    ∃ e, l.entry? id = some e ∧ e.consumer = key.consumer ∧ e.record.partition = key.partition :=
  h.entry_of_mem _ (h.mem_queues hid) id hid

theorem pairwise_queue (h : Tidy l) (key : LedgerKey) :
    (l.queue key).Pairwise fun i j => l.offsetOf i < l.offsetOf j := by
  cases hq : l.queue key with
  | nil => exact List.Pairwise.nil
  | cons id rest =>
    have hid : id ∈ l.queue key := hq ▸ List.mem_cons_self ..
    exact hq ▸ h.offsets_ascend _ (h.mem_queues hid)

/-- The entries of a queue tell its key. -/
theorem key_unique (h : Tidy l) {key key' : LedgerKey} {id : Nat} (hid : id ∈ l.queue key)
    (hid' : id ∈ l.queue key') : key = key' := by
  obtain ⟨e, he, hc, hp⟩ := h.entry_of_mem_queue hid
  obtain ⟨e', he', hc', hp'⟩ := h.entry_of_mem_queue hid'
  have heq : e = e' := Option.some.inj (he.symm.trans he')
  obtain ⟨c, p⟩ := key
  obtain ⟨c', p'⟩ := key'
  subst heq
  simp only at hc hc' hp hp'
  rw [← hc, ← hc', ← hp, ← hp']

theorem lt_of_mem_tracked (h : Tidy l) {id : Nat} (hid : id ∈ l.tracked) :
    id < l.entries.size := by
  obtain ⟨key, hid⟩ := h.mem_tracked_iff.mp hid
  obtain ⟨e, he, -⟩ := h.entry_of_mem_queue hid
  exact entry?_lt he

/-- No entry is tracked twice. -/
theorem nodup_tracked (h : Tidy l) : l.tracked.Nodup := by
  unfold tracked List.Nodup
  rw [List.pairwise_flatMap]
  constructor
  -- within a queue, offsets ascend
  · intro q hq
    exact (h.offsets_ascend q hq).imp fun hlt heq => by
      rw [heq] at hlt
      exact Int.lt_irrefl _ hlt
  -- an entry tells its key, so it stands in no two queues
  · refine h.keys_ascend.imp_of_mem fun {a b} ha hb hlt => ?_
    rintro id hida _ hidb rfl
    have hkey := h.key_unique ((h.queue_eq_of_mem ha).symm ▸ hida)
      ((h.queue_eq_of_mem hb).symm ▸ hidb)
    rw [hkey] at hlt
    exact LedgerKey.before_irrefl _ hlt

end Tidy

end Ledger

end WorkQueue
