import WorkQueue.Proofs.Store.Calls
import WorkQueue.Proofs.Store.Instances

/-!
# The records of a store

A partition is a list of records, numbered from zero on, to which appending adds one at the end.
Nothing else changes it, and a read tells records of it. So whatever a store has once told of a
record stays true.

## Main definitions

* `RecordStore`: a log store whose records can be seen from outside

## Main statements

* `RecordStore MemoryLog`, `RecordStore TableLog`, `RecordStore (Faulty σ)`
* `Reached.mem_records`: a record that is there stays
-/

namespace WorkQueue

open StoreView

/-- A log store whose records can be seen from outside. -/
class RecordStore (σ : Type) [LogStore σ] extends LawfulStore σ where
  /-- The records of a partition of a topic. -/
  records : σ → String → Int → List Record
  records_consecutive (s : σ) (h : Sound s) (topic : String) (p : Int) :
    Consecutive topic p 0 (records s topic p)
  records_on (call : StoreCall) (s : σ) (h : Sound s)
    (hcall : ∀ topic p key value, call ≠ .append topic p key value) :
    records (call.on s) = records s
  records_append (topic : String) (p : Int) (key : String) (value : ByteArray) (s : σ)
    (h : Sound s) :
    Ensures (LogStore.append topic p key value) s fun result s' =>
      match result with
      | .ok offset => ∀ topic' p', records s' topic' p' = records s topic' p' ++
          if topic = topic' ∧ p = p' then [⟨topic, p, offset, key, value⟩] else []
      | .error _ => records s' = records s
  read_records (topic : String) (p start : Int) (limit : Nat) (s : σ) (h : Sound s) :
    Ensures (LogStore.read topic p start limit) s fun result _ =>
      ∀ found, result = .ok found → ∀ r ∈ found, r ∈ records s topic p

open RecordStore

/-- A record without a gap in front of it is found at its offset. -/
theorem Consecutive.getElem?_offset {topic : String} {p start : Int} {records : List Record}
    (h : Consecutive topic p start records) {r : Record} (hr : r ∈ records) :
    records[(r.offset - start).toNat]? = some r := by
  induction records generalizing start with
  | nil => cases hr
  | cons first rest ih =>
    have hle := h.le_offset hr
    obtain ⟨-, -, hoffset, hrest⟩ := h
    rcases List.mem_cons.mp hr with rfl | hr
    · rw [hoffset, Int.sub_self]
      rfl
    · have hfound := ih hrest hr
      have hle' := hrest.le_offset hr
      rw [show (r.offset - start).toNat = (r.offset - (start + 1)).toNat + 1 by omega]
      exact hfound

/-- Records without a gap are numbered from the first one on. -/
theorem Consecutive.offsets_eq {topic : String} {p start : Int} {records : List Record}
    (h : Consecutive topic p start records) :
    records.map (·.offset) = (List.range records.length).map fun i : Nat => start + (i : Int) := by
  induction records generalizing start with
  | nil => rfl
  | cons first rest ih =>
    obtain ⟨-, -, hoffset, hrest⟩ := h
    rw [List.map_cons, hoffset, ih hrest, List.length_cons, List.range_succ_eq_map, List.map_cons,
      List.map_map]
    congr 1
    · omega
    · refine List.map_congr_left fun i _ => ?_
      simp only [Function.comp_apply, Nat.succ_eq_add_one]
      omega

theorem Consecutive.pairwise_offset {topic : String} {p start : Int} {records : List Record}
    (h : Consecutive topic p start records) :
    records.Pairwise fun r r' => r.offset < r'.offset := by
  induction records generalizing start with
  | nil => exact .nil
  | cons first rest ih =>
    obtain ⟨-, -, hoffset, hrest⟩ := h
    refine List.pairwise_cons.mpr ⟨fun r hr => ?_, ih hrest⟩
    have hle := hrest.le_offset hr
    omega

section

variable {σ : Type} [LogStore σ]

variable [RecordStore σ] {s s' : σ} {topic : String} {p : Int} {r : Record}

theorem StoreCall.mem_records_on (call : StoreCall) (h : Sound s) (hr : r ∈ records s topic p) :
    r ∈ records (call.on s) topic p := by
  by_cases happend : ∃ topic p key value, call = .append topic p key value
  · obtain ⟨topic', p', key, value, rfl⟩ := happend
    have hrecords := records_append topic' p' key value s h
    rw [ensures_on] at hrecords
    show r ∈ records (StoreM.on (LogStore.append topic' p' key value) s).2 topic p
    cases hresult : (StoreM.on (LogStore.append topic' p' key value) s).1 with
    | ok offset =>
      rw [hresult] at hrecords
      rw [hrecords]
      exact List.mem_append_left _ hr
    | error e =>
      rw [hresult] at hrecords
      rw [hrecords]
      exact hr
  · rw [records_on call s h fun topic p key value heq => happend ⟨topic, p, key, value, heq⟩]
    exact hr

/-- A record that is there stays, whatever is called. -/
theorem Reached.mem_records {allowed : StoreCall → Prop} (h : Reached allowed s s') (hs : Sound s)
    (hr : r ∈ records s topic p) : r ∈ records s' topic p :=
  h.keeps_of_sound (I := fun s => r ∈ records s topic p) hs hr
    fun _ call hs₁ hr₁ _ => call.mem_records_on hs₁ hr₁

end

/-! ## In memory -/

namespace MemoryLog

/-- The records of a partition. -/
def recordsOf (s : MemoryLog) (topic : String) (p : Int) : List Record :=
  match s.log topic p with
  | .ok log => log.toList.zipIdx.map fun ((key, value), offset) =>
      { topic, partition := p, offset := (offset : Int), key, value }
  | .error _ => []

theorem recordsOf_congr {s s' : MemoryLog} (h : s'.topics = s.topics) :
    s'.recordsOf = s.recordsOf := by
  funext topic p
  simp only [recordsOf, log, topic?, h]

theorem log_eq_ok {s : MemoryLog} {topic : String} {p : Int} {found : Array (String × ByteArray)}
    (h : s.log topic p = .ok found) :
    ∃ logs, s.topic? topic = some logs ∧ 0 ≤ p ∧ logs[p.toNat]? = some found := by
  unfold log at h
  split at h
  · cases h
  · next logs htopic =>
    split at h
    · cases h
    · next hp =>
      split at h
      · next found' hfound =>
        obtain rfl := Except.ok.inj h
        exact ⟨logs, htopic, by omega, hfound⟩
      · cases h

/-- A topic begins with empty partitions. -/
theorem recordsOf_createTopic {s : MemoryLog} {topic : String} (hnone : s.topic? topic = none)
    (n : Nat) : recordsOf { s with topics := Keyed.put topic (Array.replicate n #[]) s.topics } =
      s.recordsOf := by
  funext topic' p
  by_cases htopic : topic' = topic
  · subst htopic
    have hbefore : s.recordsOf topic' p = [] := by simp [recordsOf, log, hnone]
    rw [hbefore]
    unfold recordsOf
    split
    · next found hlog =>
      obtain ⟨logs, hlogs, -, hfound⟩ := log_eq_ok hlog
      unfold topic? at hlogs
      rw [lookup_put_of_lawful, if_pos rfl] at hlogs
      obtain rfl := Option.some.inj hlogs
      rw [Array.getElem?_replicate] at hfound
      split at hfound
      · obtain rfl := Option.some.inj hfound
        rfl
      · cases hfound
    · rfl
  · simp only [recordsOf, log, topic?, lookup_put_of_lawful, if_neg htopic]

/-- The log of the partition is replaced by a longer one, every other log stays. -/
theorem log_append {s : MemoryLog} {topic : String} {p : Int} {key : String} {value : ByteArray}
    {found : Array (String × ByteArray)} (hlog : s.log topic p = .ok found) (topic' : String)
    (p' : Int) : (s.append topic p key value).2.log topic' p' =
      if topic = topic' ∧ p = p' then .ok (found.push (key, value)) else s.log topic' p' := by
  obtain ⟨logs, htopic, hp, hfound⟩ := log_eq_ok hlog
  have hlt := (Array.getElem?_eq_some_iff.mp hfound).1
  have hnonneg : ¬ p < 0 := by omega
  unfold append
  rw [hlog]
  unfold log topic?
  rw [lookup_put_of_lawful]
  by_cases heq : topic' = topic
  · subst heq
    have hlogs : s.topics.lookup topic' = some logs := htopic
    rw [if_pos rfl, hlogs]
    by_cases hpartition : p = p'
    · subst hpartition
      simp [hnonneg, hlt]
    · by_cases hneg : p' < 0
      · simp [hneg, hpartition]
      · have hne : p.toNat ≠ p'.toNat := by omega
        simp [hneg, hpartition, hne]
  · simp [heq, Ne.symm heq]

theorem recordsOf_append {s : MemoryLog} {topic : String} {p : Int} {key : String}
    {value : ByteArray} {found : Array (String × ByteArray)} (hlog : s.log topic p = .ok found)
    (topic' : String) (p' : Int) :
    (s.append topic p key value).2.recordsOf topic' p' = s.recordsOf topic' p' ++
      if topic = topic' ∧ p = p' then [⟨topic, p, found.size, key, value⟩] else [] := by
  unfold recordsOf
  rw [log_append hlog]
  by_cases heq : topic = topic' ∧ p = p'
  · obtain ⟨rfl, rfl⟩ := heq
    simp [hlog, List.zipIdx_append]
  · rw [if_neg heq, if_neg heq, List.append_nil]

theorem on_append (topic : String) (p : Int) (key : String) (value : ByteArray) (s : MemoryLog) :
    StoreM.on (LogStore.append topic p key value) s = s.append topic p key value := rfl

instance : RecordStore MemoryLog where
  records := recordsOf
  records_consecutive s _ topic p := by
    unfold recordsOf
    split
    · exact consecutive_zipIdx topic p _ 0
    · trivial
  records_on call s _ hcall := by
    cases call with
    | append topic p key value => exact absurd rfl (hcall topic p key value)
    | createTopic topic n =>
      simp only [StoreCall.on, LogStore.createTopic, StoreM.on_update]
      split
      · rfl
      · next hnone => exact recordsOf_createTopic hnone _
    | leave group topic member =>
      simp only [StoreCall.on, LogStore.leave, StoreM.on_update]
      split <;> exact recordsOf_congr rfl
    | _ => exact recordsOf_congr rfl
  records_append topic p key value s _ := by
    rw [ensures_on, on_append]
    cases hlog : s.log topic p with
    | error e =>
      have happend : s.append topic p key value = (.error e, s) := by
        simp only [append, hlog]
      rw [happend]
    | ok found =>
      have happend : (s.append topic p key value).1 = .ok (found.size : Int) := by
        simp only [append, hlog]
      rw [happend]
      exact recordsOf_append hlog
  read_records topic p start limit s _ := by
    rw [ensures_on]
    intro found hfound r hr
    have hread : s.read topic p start limit = .ok found := hfound
    unfold MemoryLog.read at hread
    cases hlog : s.log topic p with
    | error e => simp [hlog, Except.map] at hread
    | ok log =>
      simp only [hlog, Except.map, Except.ok.injEq] at hread
      subst hread
      obtain ⟨⟨⟨key, value⟩, offset⟩, hmem, rfl⟩ := List.mem_map.mp hr
      unfold recordsOf
      rw [hlog]
      refine List.mem_map.mpr ⟨((key, value), offset), ?_, rfl⟩
      rw [List.mk_mem_zipIdx_iff_le_and_getElem?_sub, Array.getElem?_toList,
        Array.getElem?_extract] at hmem
      rw [List.mk_mem_zipIdx_iff_getElem?, Array.getElem?_toList]
      obtain ⟨hle, hentry⟩ := hmem
      split at hentry
      · rw [← hentry]
        congr 1
        omega
      · cases hentry

end MemoryLog

/-! ## In tables -/

namespace TableLog

theorem recordsOf_eq_of_records {s s' : TableLog} (h : s'.records = s.records) :
    s'.recordsOf = s.recordsOf := by
  funext topic p
  simp only [recordsOf, rows, h]

/-- Membership is kept in other tables. -/
theorem records_refresh {s s' : TableLog} {now : Nat} {group topic : String} {id : Int}
    {rejoined : Bool} (h : s.refresh now group topic id = .ok (rejoined, s')) :
    s'.records = s.records := by
  unfold refresh at h
  split at h
  · obtain ⟨-, rfl⟩ := Prod.mk.inj (Except.ok.inj h)
    rfl
  · unfold insertMember at h
    split at h
    · cases h
    · obtain ⟨-, rfl⟩ := Prod.mk.inj (Except.ok.inj h)
      rfl

theorem records_heartbeat (s : TableLog) (now : Nat) (group topic : String) (member timeout : Nat) :
    (s.heartbeat now group topic member timeout).2.records = s.records := by
  unfold heartbeat
  split
  · rfl
  · next rejoined fresh hfresh =>
    have hrecords := records_refresh hfresh
    dsimp only
    split <;> exact hrecords

theorem records_join (s : TableLog) (now : Nat) (group topic : String) :
    (s.join now group topic).2.records = s.records := by
  unfold join insertMember
  dsimp only
  split
  · rfl
  · split
    · rfl
    · next s' hs' =>
      split at hs'
      · cases hs'
      · obtain rfl := Except.ok.inj hs'
        rfl

theorem append_cases (s : TableLog) (topic : String) (p : Int) (key : String)
    (value : ByteArray) : (∃ e, s.append topic p key value = (.error e, s)) ∨
      ∃ offset, s.append topic p key value =
        (.ok offset, { s with records := s.records.push ⟨topic, p, offset, key, value⟩ }) := by
  unfold append
  split
  · exact .inl ⟨_, rfl⟩
  · split
    · exact .inr ⟨_, rfl⟩
    · exact .inl ⟨_, rfl⟩

theorem on_append (topic : String) (p : Int) (key : String) (value : ByteArray) (s : TableLog) :
    StoreM.on (LogStore.append topic p key value) s = s.append topic p key value := rfl

instance : RecordStore TableLog where
  records := recordsOf
  records_consecutive _ h := h.numbered
  records_on call s _ hcall := by
    cases call with
    | append topic p key value => exact absurd rfl (hcall topic p key value)
    | createTopic topic n =>
      simp only [StoreCall.on, LogStore.createTopic, StoreM.on_update]
      split <;> exact recordsOf_eq_of_records rfl
    | join now group topic => exact recordsOf_eq_of_records (s.records_join now group topic)
    | heartbeat now group topic member timeout =>
      exact recordsOf_eq_of_records (s.records_heartbeat now group topic member timeout)
    | leave group topic member =>
      show recordsOf (s.leave group topic member) = _
      unfold leave
      dsimp only
      split <;> exact recordsOf_eq_of_records rfl
    | _ => exact recordsOf_eq_of_records rfl
  records_append topic p key value s _ := by
    rw [ensures_on, on_append]
    rcases s.append_cases topic p key value with ⟨e, happend⟩ | ⟨offset, happend⟩
    · rw [happend]
    · rw [happend]
      exact fun topic' p' => recordsOf_append topic' p'
  read_records topic p start limit s _ := by
    rw [ensures_on, on_read]
    intro found hfound r hr
    obtain rfl := Except.ok.inj hfound
    unfold TableLog.read at hr
    obtain ⟨row, hrow, rfl⟩ := List.mem_map.mp hr
    refine List.mem_map.mpr ⟨row, ?_, rfl⟩
    -- whatever the limit, the rows are some of those from the offset on
    split at hrow
    · exact (List.mem_filter.mp hrow).1
    · exact (List.mem_filter.mp (List.mem_of_mem_take hrow)).1

end TableLog

/-! ## Behind planned failures -/

namespace Faulty

variable {σ : Type}

theorem inner_guarded {α : Type} {point : FaultPoint} {topic : String} (m : StoreM σ α)
    (s : Faulty σ) : ((guarded point topic m).on s).2.inner = s.inner ∨
      ((guarded point topic m).on s).2.inner = (m.on s.inner).2 :=
  ensures_guarded (Q := fun _ s' => s'.inner = s.inner ∨ s'.inner = (m.on s.inner).2)
    (fun _ _ => .inl rfl) fun _ => .inr rfl

variable [LogStore σ]

/-- A call reaches the store behind the planned failures, or it does not. -/
theorem inner_on (call : StoreCall) (s : Faulty σ) :
    (call.on s).inner = s.inner ∨ (call.on s).inner = call.on s.inner := by
  cases call with
  | heartbeat now group topic member timeout =>
    have hguarded : Ensures (guarded .heartbeat topic
        (LogStore.heartbeat now group topic member timeout)) s fun _ s' => s'.inner = s.inner ∨
          s'.inner = StoreCall.on (.heartbeat now group topic member timeout) s.inner :=
      inner_guarded _ s
    have hensures : Ensures (LogStore.heartbeat now group topic member timeout) s fun _ s' =>
        s'.inner = s.inner ∨
          s'.inner = StoreCall.on (.heartbeat now group topic member timeout) s.inner := by
      refine hguarded.bind ?_ ?_
      · intro m s' hs'
        unfold strikes
        rw [ensures_bind, ensures_on, StoreM.on_update]
        -- an eviction changes what the caller is told, not the store
        rcases Fault.consult .evict topic s'.plan with ⟨_ | _, plan⟩ <;> exact hs'
      · exact fun _ _ hs' => hs'
    exact hensures
  | createTopic topic n => exact inner_guarded _ s
  | partitions topic => exact inner_guarded _ s
  | append topic p key value => exact inner_guarded _ s
  | read topic p start limit => exact inner_guarded _ s
  | committed group topic p => exact inner_guarded _ s
  | commit group topic p next => exact inner_guarded _ s
  | join now group topic => exact inner_guarded _ s
  | leave group topic member => exact inner_guarded _ s

instance [RecordStore σ] : RecordStore (Faulty σ) where
  records s := records s.inner
  records_consecutive s h := records_consecutive s.inner h
  records_on call s h hcall := by
    rcases inner_on call s with heq | heq
    · rw [heq]
    · rw [heq]
      exact records_on call s.inner h hcall
  records_append topic p key value s h := by
    refine ensures_guarded (fun _ _ => rfl) (fun _ => ?_)
    exact records_append topic p key value s.inner h
  read_records topic p start limit s h := by
    refine ensures_guarded (fun _ _ _ hresult => by cases hresult) (fun _ => ?_)
    exact read_records topic p start limit s.inner h

end Faulty

end WorkQueue
