import WorkQueue.Proofs.Store.Records

/-!
# Two stores with the same logs

A store in memory and a store in tables keep topics, records and positions in different forms. While
they keep the same ones, every call that concerns them is answered alike: with the same numbers and
records, and with the same error where there is no such topic or partition.

## Main definitions

* `SameLogs`: the two stores keep the same topics, records and positions

## Main statements

* `SameLogs.createTopic`, `SameLogs.append`, `SameLogs.commit`: they stay the same
* `SameLogs.append_eq`, `SameLogs.read_eq`: what is told
-/

namespace WorkQueue

/-! ## Reading from an offset -/

/-- Records from an offset on are those behind so many others. -/
theorem Consecutive.filter_eq_drop {topic : String} {p base : Int} {records : List Record}
    (h : Consecutive topic p base records) (start : Int) :
    (records.filter fun r => decide (start ≤ r.offset)) = records.drop (start - base).toNat := by
  induction records generalizing base with
  | nil => simp
  | cons r rest ih =>
    obtain ⟨-, -, hoffset, hrest⟩ := h
    have hbehind := ih hrest
    by_cases hle : start ≤ base
    · have hnone : (start - base).toNat = 0 := by omega
      have hnone' : (start - (base + 1)).toNat = 0 := by omega
      rw [hnone', List.drop_zero] at hbehind
      rw [hnone, List.drop_zero, List.filter_cons_of_pos (by simpa [hoffset] using hle), hbehind]
    · have hsucc : (start - base).toNat = (start - (base + 1)).toNat + 1 := by omega
      rw [hsucc, List.drop_succ_cons, List.filter_cons_of_neg (by simpa [hoffset] using hle), hbehind]

/-- Some values of an array, numbered on from the first of them, are some of its numbered values. -/
theorem zipIdx_extract {α : Type} (values : Array α) (first limit : Nat) :
    (values.extract first (first + limit)).toList.zipIdx first =
      (values.toList.zipIdx.drop first).take limit := by
  apply List.ext_getElem?
  intro n
  rw [List.getElem?_take, List.getElem?_drop, List.getElem?_zipIdx, List.getElem?_zipIdx,
    Array.getElem?_toList, Array.getElem?_extract, Array.getElem?_toList]
  by_cases hn : n < limit
  · by_cases hsize : first + n < values.size
    · simp [hn, hsize]
      omega
    · simp [hn, hsize]
  · simp [hn]
    omega

namespace MemoryLog

variable {s : MemoryLog} {topic : String} {p : Int}

theorem recordsOf_of_log {found : Array (String × ByteArray)} (h : s.log topic p = .ok found) :
    s.recordsOf topic p = found.toList.zipIdx.map fun ((key, value), offset) =>
      { topic, partition := p, offset := (offset : Int), key, value } := by
  rw [recordsOf, h]

theorem length_recordsOf {found : Array (String × ByteArray)} (h : s.log topic p = .ok found) :
    (s.recordsOf topic p).length = found.size := by
  rw [recordsOf_of_log h]
  simp

/-- A read tells so many of the records from an offset on. -/
theorem read_eq_take {found : Array (String × ByteArray)} (h : s.log topic p = .ok found)
    (start : Int) (limit : Nat) :
    s.read topic p start limit = .ok (((s.recordsOf topic p).drop start.toNat).take limit) := by
  rw [recordsOf_of_log h, ← List.map_drop, ← List.map_take, ← zipIdx_extract]
  simp only [read, h, Except.map]

end MemoryLog

namespace TableLog

/-- A read tells all records from an offset on, or so many of them. -/
theorem read_eq (s : TableLog) (h : s.Sound) (topic : String) (p start : Int) (limit : Nat) :
    s.read topic p start limit =
      if toWord limit < 0 then (s.recordsOf topic p).drop start.toNat
      else ((s.recordsOf topic p).drop start.toNat).take (toWord limit).toNat := by
  have hfound : ((s.rows topic p).filter fun r => decide (start ≤ r.offset)).map
      RecordRow.toRecord = (s.recordsOf topic p).drop start.toNat := by
    have hdrop := (h.numbered topic p).filter_eq_drop start
    rw [Int.sub_zero] at hdrop
    rw [← hdrop, recordsOf, List.filter_map]
    rfl
  unfold read
  dsimp only
  split
  · exact hfound
  · rw [← hfound, ← List.map_take]
    rfl

end TableLog

/-! ## The same logs -/

/-- The two stores keep the same topics, records and positions. -/
structure SameLogs (m : MemoryLog) (t : TableLog) : Prop where
  partitions_eq (topic : String) :
    t.topics.lookup topic = (m.topic? topic).map fun logs => (logs.size : Int)
  records_eq (topic : String) (p : Int) : t.recordsOf topic p = m.recordsOf topic p
  position_eq (group topic : String) (p : Int) :
    t.positions.lookup (group, topic, p) = m.position? group topic p

namespace SameLogs

variable {m m' : MemoryLog} {t t' : TableLog}

theorem empty : SameLogs .empty .empty := ⟨fun _ => rfl, fun _ _ => rfl, fun _ _ _ => rfl⟩

/-- Other parts of the stores do not matter. -/
theorem congr (h : SameLogs m t) (hm : m'.topics = m.topics) (hm' : m'.positions = m.positions)
    (ht : t'.topics = t.topics) (ht' : t'.records = t.records) (ht'' : t'.positions = t.positions) :
    SameLogs m' t' where
  partitions_eq topic := by
    rw [ht, h.partitions_eq, MemoryLog.topic?, MemoryLog.topic?, hm]
  records_eq topic p := by
    rw [TableLog.recordsOf_eq_of_records ht', MemoryLog.recordsOf_congr hm]
    exact h.records_eq topic p
  position_eq group topic p := by
    rw [ht'', h.position_eq, MemoryLog.position?, MemoryLog.position?, hm']

/-- A topic that exists stays as it is, in both. -/
theorem createTopic (h : SameLogs m t) (topic : String) (n : Int) :
    SameLogs ((StoreCall.createTopic topic n).on m) ((StoreCall.createTopic topic n).on t) := by
  have hpartitions := h.partitions_eq topic
  simp only [StoreCall.on, LogStore.createTopic, StoreM.on_update]
  cases htopic : m.topic? topic with
  | some logs =>
    rw [htopic, Option.map_some] at hpartitions
    rw [hpartitions]
    exact h
  | none =>
    rw [htopic, Option.map_none] at hpartitions
    rw [hpartitions]
    refine ⟨fun topic' => ?_, fun topic' p => ?_, h.position_eq⟩
    · unfold MemoryLog.topic?
      rw [lookup_put_of_lawful, lookup_put_of_lawful]
      split
      · simp only [Option.map_some, Array.size_replicate, Option.some.injEq]
        omega
      · exact h.partitions_eq topic'
    · rw [MemoryLog.recordsOf_createTopic htopic]
      exact h.records_eq topic' p

/-- A partition is there or not, in both. -/
theorem log_cases (h : SameLogs m t) (topic : String) (p : Int) :
    (m.topic? topic = none ∧ t.topics.lookup topic = none) ∨
      ∃ n, t.topics.lookup topic = some n ∧
        ((¬ (0 ≤ p ∧ p < n) ∧ m.log topic p = .error (.noPartition topic p)) ∨
          (0 ≤ p ∧ p < n) ∧ ∃ found, m.log topic p = .ok found) := by
  have hpartitions := h.partitions_eq topic
  cases htopic : m.topic? topic with
  | none =>
    rw [htopic, Option.map_none] at hpartitions
    exact .inl ⟨rfl, hpartitions⟩
  | some logs =>
    rw [htopic, Option.map_some] at hpartitions
    refine .inr ⟨_, hpartitions, ?_⟩
    rw [MemoryLog.log, htopic]
    dsimp only
    by_cases hneg : p < 0
    · rw [if_pos hneg]
      exact .inl ⟨by omega, rfl⟩
    rw [if_neg hneg]
    by_cases hlt : p.toNat < logs.size
    · rw [Array.getElem?_eq_getElem hlt]
      exact .inr ⟨by omega, _, rfl⟩
    · rw [Array.getElem?_eq_none (Nat.le_of_not_lt hlt)]
      exact .inl ⟨by omega, rfl⟩

/-- Appending tells the same offset, or the same error. -/
theorem append_eq (h : SameLogs m t) (ht : t.Sound) (topic : String) (p : Int) (key : String)
    (value : ByteArray) : (t.append topic p key value).1 = (m.append topic p key value).1 := by
  rcases h.log_cases topic p with ⟨hm, ht'⟩ | ⟨n, hn, ⟨hout, hlog⟩ | ⟨hin, found, hlog⟩⟩
  · simp only [TableLog.append, ht', MemoryLog.append, MemoryLog.log, hm]
  · simp only [TableLog.append, hn, if_neg hout, MemoryLog.append, hlog]
  · have hoffset : t.nextOffset topic p = found.size := by
      rw [TableLog.nextOffset_eq ht, h.records_eq, MemoryLog.length_recordsOf hlog]
    simp only [TableLog.append, hn, if_pos hin, MemoryLog.append, hlog, hoffset]

theorem append (h : SameLogs m t) (ht : t.Sound) (topic : String) (p : Int) (key : String)
    (value : ByteArray) :
    SameLogs (m.append topic p key value).2 (t.append topic p key value).2 := by
  rcases h.log_cases topic p with ⟨hm, ht'⟩ | ⟨n, hn, ⟨hout, hlog⟩ | ⟨hin, found, hlog⟩⟩
  · simp only [TableLog.append, ht', MemoryLog.append, MemoryLog.log, hm]
    exact h
  · simp only [TableLog.append, hn, if_neg hout, MemoryLog.append, hlog]
    exact h
  · have hoffset : t.nextOffset topic p = found.size := by
      rw [TableLog.nextOffset_eq ht, h.records_eq, MemoryLog.length_recordsOf hlog]
    refine ⟨fun topic' => ?_, fun topic' p' => ?_, fun group topic' p' => ?_⟩
    · obtain ⟨logs, hlogs, -, -⟩ := MemoryLog.log_eq_ok hlog
      simp only [TableLog.append, hn, if_pos hin, MemoryLog.append, hlog]
      unfold MemoryLog.topic?
      rw [lookup_put_of_lawful]
      split
      · next heq =>
        -- the topic has as many partitions as before
        have hsize := h.partitions_eq topic
        rw [hlogs] at hsize
        rw [heq, hsize, show m.topics.lookup topic = some logs from hlogs]
        simp
      · exact h.partitions_eq topic'
    · rw [MemoryLog.recordsOf_append hlog, ← h.records_eq]
      simp only [TableLog.append, hn, if_pos hin]
      rw [TableLog.recordsOf_append, hoffset]
    · simp only [TableLog.append, hn, if_pos hin, MemoryLog.append, hlog]
      exact h.position_eq group topic' p'

/-- Reading a partition that is there tells the same records, as long as there are no more of them
than a word can count. -/
theorem read_eq (h : SameLogs m t) (ht : t.Sound) {topic : String} {p n : Int}
    (hn : t.topics.lookup topic = some n) (hp : 0 ≤ p ∧ p < n) (start : Int) {limit : Nat}
    (hlimit : limit ≤ maxWord64) (hlength : ((m.recordsOf topic p).length : Int) ≤ maxSigned64) :
    m.read topic p start limit = .ok (t.read topic p start limit) := by
  obtain ⟨found, hlog⟩ : ∃ found, m.log topic p = .ok found := by
    rcases h.log_cases topic p with ⟨-, hnone⟩ | ⟨n', hn', ⟨hout, -⟩ | ⟨-, hfound⟩⟩
    · rw [hn] at hnone
      cases hnone
    · obtain rfl := Option.some.inj (hn.symm.trans hn')
      exact absurd hp hout
    · exact hfound
  rw [MemoryLog.read_eq_take hlog, t.read_eq ht, h.records_eq]
  simp only [maxSigned64] at hlength
  split
  case isTrue hneg =>
    -- a limit that does not fit a signed word is more than there are records
    have hlarge : (maxSigned64 : Int) < limit := by
      refine Int.not_le.mp fun hsmall => ?_
      rw [toWord_eq_self (by simp only [minSigned64]; omega) (by omega)] at hneg
      omega
    rw [List.take_of_length_le]
    rw [List.length_drop]
    simp only [maxSigned64] at hlarge
    omega
  case isFalse hnonneg =>
    have hword : toWord limit = limit := by
      refine toWord_eq_self (by simp only [minSigned64]; omega) (Int.not_lt.mp fun hlarge => ?_)
      simp only [maxSigned64] at hlarge
      refine hnonneg ?_
      simp only [toWord, Int.bmod]
      simp only [maxWord64] at hlimit
      omega
    rw [hword, Int.toNat_natCast]

/-- Committing moves the same position. -/
theorem commit (h : SameLogs m t) (group topic : String) (p next : Int) :
    SameLogs (m.commit group topic p next) (t.commit group topic p next) where
  partitions_eq := h.partitions_eq
  records_eq := h.records_eq
  position_eq group' topic' p' := by
    have hposition : StoreView.position t = m.position? := by
      funext group topic p
      exact h.position_eq group topic p
    rw [MemoryLog.position?_commit, ← hposition, ← TableLog.positions_commit]
    rfl

end SameLogs

end WorkQueue
