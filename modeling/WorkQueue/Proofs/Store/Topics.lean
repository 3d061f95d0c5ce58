import WorkQueue.Proofs.Store.Records

/-!
# The topics of a store

Whoever creates a topic first fixes its number of partitions: nobody removes a topic, and creating
one again changes nothing. Appending needs a partition that the topic has.

## Main definitions

* `TopicStore`: a log store whose topics can be seen from outside

## Main statements

* `TopicStore MemoryLog`, `TopicStore TableLog`, `TopicStore (Faulty σ)`
* `Reached.count_eq`: a topic keeps its number of partitions
-/

namespace WorkQueue

open StoreView

/-- A log store whose topics can be seen from outside. -/
class TopicStore (σ : Type) [LogStore σ] extends RecordStore σ where
  /-- The number of partitions of a topic, if it exists. -/
  count : σ → String → Option Int
  count_on (call : StoreCall) {s : σ} {topic : String} {n : Int} (h : count s topic = some n) :
    count (call.on s) topic = some n
  partitions_eq (topic : String) (s : σ) :
    Ensures (LogStore.partitions topic) s fun result _ =>
      ∀ answer, result = .ok answer → answer = count s topic
  append_inside (topic : String) (p : Int) (key : String) (value : ByteArray) (s : σ) :
    Ensures (LogStore.append topic p key value) s fun result _ =>
      ∀ offset, result = .ok offset → ∃ n, count s topic = some n ∧ 0 ≤ p ∧ p < n

open RecordStore TopicStore

/-! ## In memory -/

namespace MemoryLog

variable {s : MemoryLog}

/-- The number of partitions of a topic. -/
def countOf (s : MemoryLog) (topic : String) : Option Int :=
  (s.topic? topic).map fun logs => (logs.size : Int)

theorem countOf_put {topic : String} {logs : Array (Array (String × ByteArray))} {n : Int}
    {topic' : String} (h : s.countOf topic' = some n)
    (hsize : ∀ old, s.topic? topic = some old → logs.size = old.size) :
    countOf { s with topics := Keyed.put topic logs s.topics } topic' = some n := by
  unfold countOf topic? at h ⊢
  rw [lookup_put_of_lawful]
  by_cases heq : topic' = topic
  · subst heq
    obtain ⟨old, hold, hn⟩ := Option.map_eq_some_iff.mp h
    rw [if_pos rfl, Option.map_some, hsize old hold, hn]
  · rwa [if_neg heq]

theorem countOf_on (call : StoreCall) {topic : String} {n : Int} (h : s.countOf topic = some n) :
    (call.on s).countOf topic = some n := by
  cases call with
  | createTopic topic' m =>
    simp only [StoreCall.on, LogStore.createTopic, StoreM.on_update]
    split
    · exact h
    · next hnone => exact countOf_put h fun old hold => by simp [hnone] at hold
  | append topic' p key value =>
    show countOf (s.append topic' p key value).2 topic = some n
    unfold MemoryLog.append
    split
    · exact h
    · refine countOf_put h fun old hold => ?_
      rw [hold, Option.getD_some, Array.size_setIfInBounds]
  | leave group topic' member =>
    simp only [StoreCall.on, LogStore.leave, StoreM.on_update]
    split <;> exact h
  | _ => exact h

/-- A record is refused outside of the partitions. -/
theorem ensures_inside (topic : String) (p : Int) (key : String) (value : ByteArray)
    (s : MemoryLog) : Ensures (LogStore.append topic p key value) s fun result _ =>
      ∀ offset, result = .ok offset → ∃ n, s.countOf topic = some n ∧ 0 ≤ p ∧ p < n := by
  rw [ensures_on, on_append]
  intro offset hoffset
  cases hlog : s.log topic p with
  | error e => simp [append, hlog] at hoffset
  | ok found =>
    obtain ⟨logs, hlogs, hp, hfound⟩ := log_eq_ok hlog
    have hlt := (Array.getElem?_eq_some_iff.mp hfound).1
    refine ⟨logs.size, ?_, hp, by omega⟩
    rw [countOf, hlogs, Option.map_some]

instance : TopicStore MemoryLog where
  count := countOf
  count_on call := countOf_on call
  partitions_eq _ _ := fun _ h => (Except.ok.inj h).symm
  append_inside := ensures_inside

end MemoryLog

/-! ## In tables -/

namespace TableLog

variable {s s' : TableLog}

/-- Membership is kept in other tables. -/
theorem topics_refresh {now : Nat} {group topic : String} {id : Int} {rejoined : Bool}
    (h : s.refresh now group topic id = .ok (rejoined, s')) : s'.topics = s.topics := by
  unfold refresh at h
  split at h
  · obtain ⟨-, rfl⟩ := Prod.mk.inj (Except.ok.inj h)
    rfl
  · unfold insertMember at h
    split at h
    · cases h
    · obtain ⟨-, rfl⟩ := Prod.mk.inj (Except.ok.inj h)
      rfl

theorem topics_heartbeat (s : TableLog) (now : Nat) (group topic : String) (member timeout : Nat) :
    (s.heartbeat now group topic member timeout).2.topics = s.topics := by
  unfold heartbeat
  split
  · rfl
  · next rejoined fresh hfresh =>
    have htopics := topics_refresh hfresh
    dsimp only
    split <;> exact htopics

theorem topics_join (s : TableLog) (now : Nat) (group topic : String) :
    (s.join now group topic).2.topics = s.topics := by
  unfold join insertMember
  dsimp only
  split
  · rfl
  · split
    · rfl
    · next s' hs' =>
      split at hs'
      · cases hs'
      · obtain rfl := Except.ok.inj hs'
        rfl

/-- Nothing but the creation of a topic changes the table of topics. -/
theorem topics_on (call : StoreCall) (s : TableLog)
    (hcall : ∀ topic n, call ≠ .createTopic topic n) : (call.on s).topics = s.topics := by
  cases call with
  | createTopic topic n => exact absurd rfl (hcall topic n)
  | append topic p key value =>
    show (s.append topic p key value).2.topics = _
    rcases s.append_cases topic p key value with ⟨e, happend⟩ | ⟨offset, happend⟩ <;> rw [happend]
  | join now group topic => exact s.topics_join now group topic
  | heartbeat now group topic member timeout => exact s.topics_heartbeat now group topic member timeout
  | leave group topic member =>
    show (s.leave group topic member).topics = _
    unfold leave
    dsimp only
    split <;> rfl
  | _ => rfl

instance : TopicStore TableLog where
  count s topic := s.topics.lookup topic
  count_on call s topic n h := by
    by_cases hcreate : ∃ topic n, call = .createTopic topic n
    · obtain ⟨topic', m, rfl⟩ := hcreate
      simp only [StoreCall.on, LogStore.createTopic, StoreM.on_update]
      split
      · exact h
      · next hnone =>
        rw [lookup_put_of_lawful, if_neg]
        · exact h
        · rintro rfl
          rw [h] at hnone
          cases hnone
    · rw [topics_on call s fun topic n heq => hcreate ⟨topic, n, heq⟩]
      exact h
  partitions_eq topic s := fun _ h => (Except.ok.inj h).symm
  append_inside topic p key value s := by
    rw [ensures_on, on_append]
    intro offset hoffset
    unfold TableLog.append at hoffset
    split at hoffset
    · cases hoffset
    · next n hn =>
      split at hoffset
      · next hinside => exact ⟨n, hn, hinside.1, hinside.2⟩
      · cases hoffset

end TableLog

/-! ## Behind planned failures -/

instance {σ : Type} [LogStore σ] [TopicStore σ] : TopicStore (Faulty σ) where
  count s := count s.inner
  count_on call s topic n h := by
    rcases Faulty.inner_on call s with heq | heq
    · rw [heq]
      exact h
    · rw [heq]
      exact count_on call h
  partitions_eq topic s := by
    refine Faulty.ensures_guarded (fun _ _ _ hresult => by cases hresult) (fun _ => ?_)
    exact partitions_eq topic s.inner
  append_inside topic p key value s := by
    refine Faulty.ensures_guarded (fun _ _ _ hresult => by cases hresult) (fun _ => ?_)
    exact append_inside topic p key value s.inner

/-! ## Topics and records behind calls -/

section

variable {σ : Type} [LogStore σ] {allowed : StoreCall → Prop} {s s' : σ}

/-- A topic that exists keeps its number of partitions, whatever is called. -/
theorem Reached.count_eq [TopicStore σ] (h : Reached allowed s s') {topic : String} {n : Int}
    (hn : count s topic = some n) : count s' topic = some n :=
  h.keeps (I := fun s' => count s' topic = some n) hn fun _ call hn _ => count_on call hn

/-- As long as nobody appends, records stay. -/
theorem Reached.records_eq [RecordStore σ] (h : Reached allowed s s') (hs : Sound s)
    (hallowed : ∀ call, allowed call → ∀ topic p key value, call ≠ .append topic p key value) :
    records s' = records s := by
  refine h.keeps_of_sound (I := fun s' => records s' = records s) hs rfl ?_
  intro s₁ call hs₁ heq hcall
  exact (records_on call s₁ hs₁ (hallowed call hcall)).trans heq

end

end WorkQueue
