import Mathlib.Logic.Basic
import WorkQueue.Proofs.Store.Laws
import WorkQueue.Store.Faulty
import WorkQueue.Store.Memory
import WorkQueue.Store.Table

/-!
# The stores keep the laws

The store in memory keeps them in every state. The store in tables keeps them as long as the rows
of every partition are numbered from zero on, which appending preserves. A store behind planned
failures keeps the laws of the store it hides.

## Main statements

* `LawfulStore MemoryLog`, `LawfulStore TableLog`, `LawfulStore (Faulty σ)`
-/

namespace WorkQueue

/-- A map may be read with any lawful comparison of its keys. -/
theorem lookup_put_of_lawful {κ α : Type} [BEq κ] [LawfulBEq κ] [DecidableEq κ] (key other : κ)
    (value : α) (m : List (κ × α)) :
    (Keyed.put key value m).lookup other = if other = key then some value else m.lookup other := by
  rename_i hbeq _ _
  obtain rfl : hbeq = instBEqOfDecidableEq := lawful_beq_subsingleton _ _
  exact Keyed.lookup_put key other value m

/-! ## In memory -/

namespace MemoryLog

/-- Numbering values leaves no gap. -/
theorem consecutive_zipIdx (topic : String) (partition : Int) (values : List (String × ByteArray))
    (first : Nat) :
    Consecutive topic partition first
      ((values.zipIdx first).map fun ((key, value), offset) =>
        { topic, partition, offset := (offset : Int), key, value }) := by
  induction values generalizing first with
  | nil => trivial
  | cons value rest ih => exact ⟨rfl, rfl, rfl, ih (first + 1)⟩

instance : StoreView MemoryLog where
  Sound _ := True
  position s := s.position?
  issued := lastMember

theorem position?_commit (s : MemoryLog) (group topic : String) (partition next : Int) :
    (s.commit group topic partition next).position? =
      Positions.advance s.position? group topic partition next := by
  funext group' topic' partition'
  show List.lookup _ (Keyed.put _ _ s.positions) = _
  rw [lookup_put_of_lawful]
  simp only [Positions.advance, Prod.mk.injEq, position?]
  cases s.positions.lookup (group, topic, partition) <;> simp

instance : LawfulStore MemoryLog where
  createTopic_steady topic n s _ := by
    rw [ensures_on]
    simp only [LogStore.createTopic, StoreM.on_update]
    split <;> exact ⟨trivial, rfl, Nat.le_refl _⟩
  partitions_steady _ s _ := ⟨trivial, rfl, Nat.le_refl _⟩
  append_steady topic partition key value s _ := by
    rw [ensures_on]
    show Unmoved s (s.append topic partition key value).2
    unfold MemoryLog.append
    split <;> exact ⟨trivial, rfl, Nat.le_refl _⟩
  read_steady _ _ _ _ s _ := ⟨trivial, rfl, Nat.le_refl _⟩
  committed_steady _ _ _ s _ := ⟨trivial, rfl, Nat.le_refl _⟩
  join_steady _ _ _ s _ := ⟨trivial, rfl, Nat.le_succ _⟩
  heartbeat_steady _ _ _ _ _ s _ := ⟨trivial, rfl, Nat.le_refl _⟩
  leave_steady group topic member s _ := by
    rw [ensures_on]
    simp only [LogStore.leave, StoreM.on_update]
    split <;> exact ⟨trivial, rfl, Nat.le_refl _⟩
  read_consecutive topic partition start limit s _ := by
    rw [ensures_on]
    intro records hrecords
    have hread : s.read topic partition start limit = .ok records := hrecords
    unfold MemoryLog.read at hread
    cases hlog : s.log topic partition with
    | error e => simp [hlog, Except.map] at hread
    | ok log =>
      simp only [hlog, Except.map, Except.ok.injEq] at hread
      rw [← hread, ← Int.toNat_eq_max]
      exact consecutive_zipIdx topic partition _ _
  committed_eq _ _ _ s _ := fun _ h => (Except.ok.inj h).symm
  join_new _ _ _ s _ := by
    rw [ensures_on]
    intro id hid
    obtain rfl := Except.ok.inj hid
    exact ⟨Nat.lt_succ_self _, Nat.le_refl _⟩
  commit_advances group topic partition next s _ :=
    ⟨trivial, Nat.le_refl _, s.position?_commit group topic partition next⟩

end MemoryLog

/-! ## In tables -/

namespace TableLog

/-- A row as a record. -/
def RecordRow.toRecord (r : RecordRow) : Record :=
  { topic := r.topic, partition := r.partition, offset := r.offset, key := r.key, value := r.value }

/-- The records of a partition. -/
def recordsOf (s : TableLog) (topic : String) (partition : Int) : List Record :=
  (s.rows topic partition).map RecordRow.toRecord

/-- Tables that can come about: every partition is numbered from zero on. -/
structure Sound (s : TableLog) : Prop where
  numbered : ∀ topic partition, Consecutive topic partition 0 (s.recordsOf topic partition)
  lastMember_nonneg : 0 ≤ s.lastMember

theorem sound_empty : empty.Sound := ⟨fun _ _ => trivial, Int.le_refl 0⟩

instance : StoreView TableLog where
  Sound := Sound
  position s group topic partition := s.positions.lookup (group, topic, partition)
  issued s := s.lastMember.toNat

/-- Only the records and the largest member number matter. -/
theorem Sound.congr {s s' : TableLog} (h : s.Sound) (hrecords : s'.records = s.records)
    (hlast : s.lastMember ≤ s'.lastMember) : s'.Sound where
  numbered topic partition := by
    have hsame : s'.recordsOf topic partition = s.recordsOf topic partition := by
      unfold recordsOf rows
      rw [hrecords]
    rw [hsame]
    exact h.numbered topic partition
  lastMember_nonneg := Int.le_trans h.lastMember_nonneg hlast

/-- An operation that leaves the records and the positions alone. -/
theorem unmoved_of_eq {s s' : TableLog} (h : s.Sound) (hrecords : s'.records = s.records)
    (hpositions : s'.positions = s.positions) (hlast : s.lastMember ≤ s'.lastMember) :
    Unmoved s s' where
  sound := h.congr hrecords hlast
  position_eq := by
    show (fun group topic partition => s'.positions.lookup (group, topic, partition)) = _
    rw [hpositions]
    rfl
  issued_le := Int.toNat_le_toNat hlast

theorem nextOffset_eq {s : TableLog} (h : s.Sound) (topic : String) (partition : Int) :
    s.nextOffset topic partition = (s.recordsOf topic partition).length := by
  unfold nextOffset
  cases hlast : (s.rows topic partition).getLast? with
  | none =>
    rw [List.getLast?_eq_none_iff] at hlast
    simp [recordsOf, hlast]
  | some r =>
    have hr : (s.recordsOf topic partition).getLast? = some (RecordRow.toRecord r) := by
      simp [recordsOf, List.getLast?_map, hlast]
    have hcount := (h.numbered topic partition).offset_getLast? hr
    rw [Int.zero_add] at hcount
    exact hcount

theorem recordsOf_append {s : TableLog} {topic : String} {partition offset : Int} {key : String}
    {value : ByteArray} (topic' : String) (partition' : Int) :
    recordsOf { s with records := s.records.push ⟨topic, partition, offset, key, value⟩ }
        topic' partition' =
      s.recordsOf topic' partition' ++
        if topic = topic' ∧ partition = partition' then [⟨topic, partition, offset, key, value⟩]
        else [] := by
  unfold recordsOf rows
  rw [Array.toList_push, List.filter_append, List.map_append]
  congr 1
  by_cases heq : topic = topic' ∧ partition = partition'
  · simp [heq.1, heq.2, RecordRow.toRecord]
  · rw [if_neg heq, List.filter_cons_of_neg]
    · rfl
    · simpa using heq

theorem sound_append {s : TableLog} (h : s.Sound) (topic : String) (partition : Int) (key : String)
    (value : ByteArray) : (s.append topic partition key value).2.Sound := by
  unfold append
  split
  · exact h
  · split
    · refine ⟨fun topic' partition' => ?_, h.lastMember_nonneg⟩
      rw [recordsOf_append]
      split
      · next heq =>
        obtain ⟨rfl, rfl⟩ := heq
        -- the new row has the number of rows for its offset
        refine Consecutive.append_iff.mpr ⟨h.numbered topic partition, rfl, rfl, ?_, trivial⟩
        rw [Int.zero_add]
        exact nextOffset_eq h topic partition
      · rw [List.append_nil]
        exact h.numbered topic' partition'
    · exact h

theorem consecutive_of_read {s : TableLog} (h : s.Sound) {topic : String} {partition start : Int}
    {limit : Nat} {records : List Record} (hread : s.read topic partition start limit = records) :
    Consecutive topic partition (max start 0) records := by
  have hfound : ((s.rows topic partition).filter fun r => decide (start ≤ r.offset)).map
      RecordRow.toRecord =
        (s.recordsOf topic partition).filter fun r => decide (start ≤ r.offset) := by
    unfold recordsOf
    rw [List.filter_map]
    rfl
  have hrecords := (h.numbered topic partition).from_offset start
  rw [← hfound] at hrecords
  rw [← hread]
  unfold TableLog.read
  -- a negative limit takes everything, and any other takes a front
  generalize toWord limit = limit
  by_cases hlimit : limit < 0
  · simp only [hlimit, if_true]
    exact hrecords
  · have htake := hrecords.take limit.toNat
    rw [← List.map_take] at htake
    simp only [hlimit, if_false]
    exact htake

theorem on_read (s : TableLog) (topic : String) (partition start : Int) (limit : Nat) :
    (LogStore.read topic partition start limit : StoreM TableLog (List Record)).on s =
      (.ok (s.read topic partition start limit), s) := rfl

theorem unmoved_bump {s s' : TableLog} (h : Unmoved s s') (group topic : String) :
    Unmoved s (s'.bump group topic) :=
  ⟨h.sound.congr rfl (Int.le_refl _), h.position_eq, h.issued_le⟩

/-- Inserting a member row leaves the records and the positions alone. -/
theorem unmoved_insertMember {s s' : TableLog} (h : s.Sound) {row : MemberRow}
    (hs : s.insertMember row = .ok s') : Unmoved s s' := by
  unfold insertMember at hs
  split at hs
  · cases hs
  · obtain rfl := Except.ok.inj hs
    exact unmoved_of_eq h rfl rfl (Int.le_max_left _ _)

theorem unmoved_refresh {s s' : TableLog} (h : s.Sound) {now : Nat} {group topic : String}
    {id : Int} {rejoined : Bool} (hs : s.refresh now group topic id = .ok (rejoined, s')) :
    Unmoved s s' := by
  unfold refresh at hs
  split at hs
  · obtain ⟨-, rfl⟩ := Prod.mk.inj (Except.ok.inj hs)
    exact unmoved_of_eq h rfl rfl (Int.le_refl _)
  · cases hinsert : s.insertMember ⟨id, group, topic, now⟩ with
    | error e => simp [hinsert, bind, Except.bind] at hs
    | ok inserted =>
      simp only [hinsert, bind, Except.bind, pure, Except.pure] at hs
      obtain ⟨-, rfl⟩ := Prod.mk.inj (Except.ok.inj hs)
      exact unmoved_insertMember h hinsert

theorem unmoved_heartbeat {s : TableLog} (h : s.Sound) (now : Nat) (group topic : String)
    (member timeout : Nat) : Unmoved s (s.heartbeat now group topic member timeout).2 := by
  unfold heartbeat
  split
  · exact ⟨h, rfl, Nat.le_refl _⟩
  · next rejoined fresh hfresh =>
    have hkept := unmoved_refresh h hfresh
    dsimp only
    -- rows that are stale go, and the generation may grow; neither table is one that matters
    split
    · refine unmoved_bump ?_ group topic
      exact ⟨hkept.sound.congr rfl (Int.le_refl _), hkept.position_eq, hkept.issued_le⟩
    · exact ⟨hkept.sound.congr rfl (Int.le_refl _), hkept.position_eq, hkept.issued_le⟩

/-- A join fails, or gives out the number above the largest one. -/
theorem join_cases {s : TableLog} (h : s.Sound) (now : Nat) (group topic : String) :
    (∃ e, s.join now group topic = (.error e, s)) ∨
      ∃ s', s.join now group topic = (.ok (s.lastMember.toNat + 1), s') ∧ Unmoved s s' ∧
        s'.lastMember = s.lastMember + 1 := by
  have hnonneg := h.lastMember_nonneg
  unfold join
  dsimp only
  split
  · exact .inl ⟨_, rfl⟩
  · next hfits =>
    split
    · exact .inl ⟨_, rfl⟩
    · next s' hs' =>
      have hmoved := unmoved_insertMember h hs'
      have hlast : s'.lastMember = s.lastMember + 1 := by
        unfold insertMember at hs'
        split at hs'
        · cases hs'
        · obtain rfl := Except.ok.inj hs'
          exact Int.max_eq_right (by dsimp only; omega)
      -- the number fits into a word, so storing it does not change it
      have hid : ofWord (s.lastMember + 1) = s.lastMember.toNat + 1 := by
        unfold ofWord
        simp only [maxSigned64] at hfits
        rw [Int.emod_eq_of_lt (by omega) (by omega)]
        omega
      rw [hid]
      exact .inr ⟨_, rfl, unmoved_bump hmoved group topic, hlast⟩

theorem positions_commit (s : TableLog) (group topic : String) (partition next : Int) :
    StoreView.position (s.commit group topic partition next) =
      (StoreView.position s).advance group topic partition next := by
  funext group' topic' partition'
  show List.lookup _ (Keyed.put _ _ s.positions) = _
  rw [lookup_put_of_lawful]
  simp only [Positions.advance, Prod.mk.injEq, StoreView.position]
  cases s.positions.lookup (group, topic, partition) <;> simp

instance : LawfulStore TableLog where
  createTopic_steady topic n s h := by
    rw [ensures_on]
    simp only [LogStore.createTopic, StoreM.on_update]
    split
    · exact ⟨h, rfl, Nat.le_refl _⟩
    · exact unmoved_of_eq h rfl rfl (Int.le_refl _)
  partitions_steady _ _ h := ⟨h, rfl, Nat.le_refl _⟩
  append_steady topic partition key value s h := by
    rw [ensures_on]
    refine ⟨sound_append h topic partition key value, ?_, ?_⟩
    · show StoreView.position (s.append topic partition key value).2 = _
      unfold append
      split
      · rfl
      · split <;> rfl
    · show s.lastMember.toNat ≤ (s.append topic partition key value).2.lastMember.toNat
      unfold append
      split
      · exact Nat.le_refl _
      · split <;> exact Nat.le_refl _
  read_steady _ _ _ _ _ h := ⟨h, rfl, Nat.le_refl _⟩
  committed_steady _ _ _ _ h := ⟨h, rfl, Nat.le_refl _⟩
  join_steady now group topic s h := by
    rw [ensures_on]
    show Unmoved s (s.join now group topic).2
    rcases join_cases h now group topic with ⟨e, hjoin⟩ | ⟨s', hjoin, hmoved, -⟩
    · rw [hjoin]
      exact ⟨h, rfl, Nat.le_refl _⟩
    · rw [hjoin]
      exact hmoved
  heartbeat_steady now group topic member timeout _ h :=
    unmoved_heartbeat h now group topic member timeout
  leave_steady group topic member s h := by
    rw [ensures_on]
    show Unmoved s (s.leave group topic member)
    unfold leave
    dsimp only
    split
    · refine unmoved_bump ?_ group topic
      exact unmoved_of_eq h rfl rfl (Int.le_refl _)
    · exact ⟨h, rfl, Nat.le_refl _⟩
  read_consecutive topic partition start limit s h := by
    rw [ensures_on, on_read]
    intro records hrecords
    exact consecutive_of_read h (Except.ok.inj hrecords)
  committed_eq _ _ _ s _ := fun _ h => (Except.ok.inj h).symm
  join_new now group topic s h := by
    rw [ensures_on]
    intro id hid
    replace hid : (s.join now group topic).1 = .ok id := hid
    show s.lastMember.toNat < id ∧ id ≤ (s.join now group topic).2.lastMember.toNat
    rcases join_cases h now group topic with ⟨e, hjoin⟩ | ⟨s', hjoin, -, hlast⟩
    · rw [hjoin] at hid
      cases hid
    · rw [hjoin] at hid ⊢
      obtain rfl := Except.ok.inj hid
      have hnonneg := h.lastMember_nonneg
      dsimp only
      omega
  commit_advances group topic partition next s h :=
    ⟨h.congr rfl (Int.le_refl _), Nat.le_refl _, s.positions_commit group topic partition next⟩

end TableLog

/-! ## Behind planned failures -/

namespace Faulty

open StoreView

variable {σ α : Type}

/-- A planned failure leaves the store alone, and otherwise the operation runs on it. -/
theorem ensures_guarded {point : FaultPoint} {topic : String} {m : StoreM σ α} {s : Faulty σ}
    {Q : Except BrokerError α → Faulty σ → Prop}
    (herror : ∀ e plan, Q (.error e) ⟨s.inner, plan⟩)
    (h : ∀ plan, Ensures m s.inner fun result inner => Q result ⟨inner, plan⟩) :
    Ensures (guarded point topic m) s Q := by
  unfold guarded strikes
  rw [ensures_bind, ensures_on, StoreM.on_update]
  rcases hconsult : Fault.consult point topic s.plan with ⟨_ | _, plan⟩
  · exact h plan
  · exact herror _ plan

instance [StoreView σ] : StoreView (Faulty σ) where
  Sound s := Sound s.inner
  position s := position s.inner
  issued s := issued s.inner

theorem steady_guarded [StoreView σ] {point : FaultPoint} {topic : String} {m : StoreM σ α} (h : Steady m) :
    Steady (guarded point topic m) := by
  intro s hs
  refine ensures_guarded (fun e plan => ⟨hs, rfl, Nat.le_refl _⟩) (fun plan => ?_)
  exact (h s.inner hs).mono fun _ _ hmoved => ⟨hmoved.sound, hmoved.position_eq, hmoved.issued_le⟩

instance [LogStore σ] [LawfulStore σ] : LawfulStore (Faulty σ) where
  createTopic_steady topic n := steady_guarded (LawfulStore.createTopic_steady topic n)
  partitions_steady topic := steady_guarded (LawfulStore.partitions_steady topic)
  append_steady topic partition key value :=
    steady_guarded (LawfulStore.append_steady topic partition key value)
  read_steady topic partition start limit :=
    steady_guarded (LawfulStore.read_steady topic partition start limit)
  committed_steady group topic partition :=
    steady_guarded (LawfulStore.committed_steady group topic partition)
  join_steady now group topic := steady_guarded (LawfulStore.join_steady now group topic)
  heartbeat_steady now group topic member timeout s h := by
    have hsteady : Steady (guarded .heartbeat topic
        (LogStore.heartbeat now group topic member timeout : StoreM σ Membership)) :=
      steady_guarded (LawfulStore.heartbeat_steady now group topic member timeout)
    refine Ensures.bind (hsteady s h) (fun m s' hmoved => ?_) (fun _ _ hmoved => hmoved)
    unfold strikes
    rw [ensures_bind, ensures_on, StoreM.on_update]
    rcases Fault.consult .evict topic s'.plan with ⟨_ | _, plan⟩ <;>
      exact ⟨hmoved.sound, hmoved.position_eq, hmoved.issued_le⟩
  leave_steady group topic member :=
    steady_guarded (LawfulStore.leave_steady group topic member)
  read_consecutive topic partition start limit s h := by
    refine ensures_guarded (fun _ _ _ hresult => by cases hresult) (fun _ => ?_)
    exact LawfulStore.read_consecutive topic partition start limit s.inner h
  committed_eq group topic partition s h := by
    refine ensures_guarded (fun _ _ _ hresult => by cases hresult) (fun _ => ?_)
    exact LawfulStore.committed_eq group topic partition s.inner h
  join_new now group topic s h := by
    refine ensures_guarded (fun _ _ _ hresult => by cases hresult) (fun _ => ?_)
    exact LawfulStore.join_new now group topic s.inner h
  commit_advances group topic partition next s h := by
    refine ensures_guarded (fun _ _ => ⟨h, Nat.le_refl _, rfl⟩) (fun _ => ?_)
    exact LawfulStore.commit_advances group topic partition next s.inner h

end Faulty

end WorkQueue
