import WorkQueue.Proofs.Cluster.Calls
import WorkQueue.Proofs.Store.Topics

/-!
# Where records of a key go

Brokers share a store, and each of them creates topics with its own number of partitions. The first
one to create a topic fixes the number for all, so that a key has one partition, whoever publishes
under it. A partition numbers what is appended to it from zero on, so records of one key are ordered
by their offsets.

## Main definitions

* `Act.sent?`, `Cluster.sent`: the records that brokers publish
* `Act.appended?`, `Cluster.appended`: all records that are appended

## Main statements

* `Cluster.records_after`: a partition holds what has been appended to it, in this order
* `Cluster.sent_ordered`: records of one key lie in one partition, in the order of their publication
-/

namespace WorkQueue

open StoreView RecordStore TopicStore

/-- The record under a key that a broker has found a place for, if it has. -/
def Record.placed? (topic key : String) (value : ByteArray) :
    Except BrokerError (Int × Int) → Option Record
  | .ok (p, o) => some ⟨topic, p, o, key, value⟩
  | .error _ => none

/-- Does a record lie in partition `p` of a topic? -/
def Record.within (topic : String) (p : Int) (r : Record) : Bool :=
  decide (r.topic = topic ∧ r.partition = p)

/-- Only who publishes or appends calls for an append. -/
theorem Act.append_of_mayCall {σ : Type} {a : Act} {c : Cluster σ} {topic : String} {p : Int}
    {key : String} {value : ByteArray} (h : a.MayCall c (.append topic p key value)) :
    (∃ broker, a = .outside (.send broker topic key value)) ∨
      a = .outside (.append topic p key value) := by
  cases a with
  | outside use => cases use <;> simp_all [Act.MayCall, Use.MayCall]
  | _ => simp [Act.MayCall] at h

variable {σ : Type} [LogStore σ]

/-! ## What a broker appends -/

section

variable [TopicStore σ]

/-- A record lies in the partition of its key among those that its topic has. -/
def Routed (s : σ) (r : Record) : Prop :=
  ∃ n, count s r.topic = some n ∧ r.partition = partitionFor r.key n ∧
    0 ≤ r.partition ∧ r.partition < n

theorem Reached.routed {allowed : StoreCall → Prop} {s s' : σ} {r : Record}
    (h : Reached allowed s s') (hr : Routed s r) : Routed s' r := by
  obtain ⟨n, hn, hplace⟩ := hr
  exact ⟨n, h.count_eq hn, hplace⟩

/-- The records of a store behind one that may have been appended. -/
def Extended (s s' : σ) (appended? : Option Record) : Prop :=
  ∀ topic p, records s' topic p = records s topic p ++ appended?.toList.filter (Record.within topic p)

theorem extended_none {s s' : σ} (h : records s' = records s) : Extended s s' none := by
  intro topic p
  rw [h]
  exact (List.append_nil _).symm

theorem ensures_append (topic : String) (p : Int) (key : String) (value : ByteArray) (s : σ)
    (h : Sound s) : Ensures (LogStore.append topic p key value) s fun result s' =>
      Extended s s' (Record.placed? topic key value (result.map fun o => (p, o))) := by
  refine (records_append topic p key value s h).mono fun result s' hresult => ?_
  cases result with
  | error e => exact extended_none hresult
  | ok o =>
    intro topic' p'
    have happended : [(⟨topic, p, o, key, value⟩ : Record)].filter (Record.within topic' p') =
        if topic = topic' ∧ p = p' then [⟨topic, p, o, key, value⟩] else [] := by
      simp only [List.filter_cons, List.filter_nil, Record.within, decide_eq_true_eq]
    exact (hresult topic' p').trans (congrArg _ happended.symm)

end

namespace Broker

variable [TopicStore σ] {s : σ}

/-- What the store answers is true, and still is after the question. -/
theorem ensures_partitions (topic : String) (s : σ) :
    Ensures (LogStore.partitions topic) s fun result s' =>
      ∀ n, result = .ok (some n) → count s' topic = some n := by
  have hanswer := partitions_eq topic s
  rw [ensures_on] at hanswer ⊢
  intro n hn
  exact count_on (.partitions topic) (hanswer _ hn).symm

/-- A broker that has seen to a topic knows its number of partitions. -/
theorem ensures_ensureTopic (b : Broker) (topic : String) (s : σ) :
    Ensures (b.ensureTopic topic) s fun result s' =>
      ∀ n, result = .ok n → count s' topic = some n := by
  unfold ensureTopic
  refine (ensures_partitions topic s).bind ?_ (fun _ _ _ _ h => by cases h)
  intro found s' hfound
  cases found with
  | some n =>
    rintro _ hn
    obtain rfl := Except.ok.inj hn
    exact hfound n rfl
  | none =>
    refine Ensures.bind (Q := fun _ _ => True) trivial ?_ (fun _ _ _ _ h => by cases h)
    intro _ created _
    refine (ensures_partitions topic created).bind ?_ (fun _ _ _ _ h => by cases h)
    intro found s'' hfound
    cases found with
    | none => exact fun _ h => by cases h
    | some n =>
      rintro _ hn
      obtain rfl := Except.ok.inj hn
      exact hfound n rfl

/-- A record that a broker publishes goes where its key goes, and nothing else is appended. -/
theorem ensures_append (b : Broker) (topic key : String) (value : ByteArray) (h : Sound s) :
    Ensures (b.append topic key value) s fun result s' =>
      (∀ r, Record.placed? topic key value result = some r → Routed s' r) ∧
        Extended s s' (Record.placed? topic key value result) := by
  let seen : StoreCall → Prop := fun call =>
    call = .partitions topic ∨ ∃ n, call = .createTopic topic n
  have hcalls : Calls seen (b.ensureTopic topic : StoreM σ Int) :=
    b.calls_ensureTopic (.inl rfl) fun n => .inr ⟨n, rfl⟩
  have hseen := hcalls s
  have hquiet : ∀ call, seen call → ∀ topic p key value, call ≠ .append topic p key value := by
    rintro call (rfl | ⟨n, rfl⟩) <;> exact fun _ _ _ _ heq => by cases heq
  unfold append
  refine ((b.ensures_ensureTopic topic s).and hseen).bind ?_ ?_
  · rintro n s₁ ⟨hcount, hreached⟩
    have hrecords : records s₁ = records s := hreached.records_eq h hquiet
    have hinside := append_inside topic (partitionFor key n) key value s₁
    have happend := WorkQueue.ensures_append topic (partitionFor key n) key value s₁
      (hreached.sound h)
    have hkept : Ensures (LogStore.append topic (partitionFor key n) key value) s₁ fun _ s' =>
        count s' topic = some n :=
      count_on (.append topic (partitionFor key n) key value) (hcount n rfl)
    refine (hinside.and (happend.and hkept)).bind ?_ ?_
    · rintro o s' ⟨hin, hadded, hn⟩
      obtain ⟨m, hm, hnonneg, hlt⟩ := hin o rfl
      obtain rfl : n = m := Option.some.inj ((hcount n rfl).symm.trans hm)
      refine ⟨fun r hr => ?_, fun topic' p' => ?_⟩
      · obtain rfl := Option.some.inj hr
        exact ⟨n, hn, rfl, hnonneg, hlt⟩
      · rw [← hrecords]
        exact hadded topic' p'
    · rintro e s' ⟨-, hsame, -⟩
      refine ⟨fun r hr => (by cases hr), fun topic' p' => ?_⟩
      rw [← hrecords]
      exact hsame topic' p'
  · rintro e s₁ ⟨-, hreached⟩
    exact ⟨fun r hr => (by cases hr), extended_none (hreached.records_eq h hquiet)⟩

end Broker

/-! ## What is published and appended -/

/-- The record that an act publishes through a broker, if it succeeds in one. -/
def Act.sent? (a : Act) (c : Cluster σ) : Option Record :=
  match a with
  | .outside (.send broker topic key value) =>
    Record.placed? topic key value ((Cluster.send broker topic key value).on c).1
  | _ => none

/-- The record that an act appends, through a broker or at the store itself. -/
def Act.appended? (a : Act) (c : Cluster σ) : Option Record :=
  match a with
  | .outside (.append topic p key value) =>
    Record.placed? topic key value
      ((StoreM.on (LogStore.append topic p key value) c.store).1.map fun o => (p, o))
  | a => a.sent? c

theorem Act.appended?_of_sent? {a : Act} {c : Cluster σ} {r : Record} (h : a.sent? c = some r) :
    a.appended? c = some r := by
  unfold appended?
  split
  · simp [sent?] at h
  · exact h

namespace Cluster

/-- The records that brokers publish, one after the other. -/
def sent : List Act → Cluster σ → List Record
  | [], _ => []
  | a :: rest, c => (a.sent? c).toList ++ sent rest (a.on c)

/-- The records that are appended, one after the other. -/
def appended : List Act → Cluster σ → List Record
  | [], _ => []
  | a :: rest, c => (a.appended? c).toList ++ appended rest (a.on c)

theorem sent_sublist_appended (acts : List Act) (c : Cluster σ) :
    (sent acts c).Sublist (appended acts c) := by
  induction acts generalizing c with
  | nil => exact .slnil
  | cons a rest ih =>
    refine List.Sublist.append ?_ (ih _)
    cases hsent : a.sent? c with
    | none => exact List.nil_sublist _
    | some r =>
      have happended := Act.appended?_of_sent? hsent
      simp [happended]

end Cluster

/-! ## Single acts -/

section

variable [TopicStore σ] {c : Cluster σ}

theorem Cluster.ensures_send (h : StoreView.Sound c.store) (broker : Nat) (topic key : String)
    (value : ByteArray) : Ensures (Cluster.send broker topic key value) c fun result c' =>
      (∀ r, Record.placed? topic key value result = some r → Routed c'.store r) ∧
        Extended c.store c'.store (Record.placed? topic key value result) := by
  unfold Cluster.send
  rw [ensures_bind, ClusterM.ensures_get]
  have happend : Ensures (ClusterM.store ((c.broker broker).append topic key value)) c
      fun result c' =>
        (∀ r, Record.placed? topic key value result = some r → Routed c'.store r) ∧
          Extended c.store c'.store (Record.placed? topic key value result) :=
    (c.broker broker).ensures_append topic key value h
  exact happend.bind (fun _ _ hplace => hplace) fun _ _ herror => herror

/-- A record that has been published lies where its key goes. -/
theorem Act.routed_of_sent? (h : Sound c.store) {a : Act} {r : Record} (hr : a.sent? c = some r) :
    Routed (a.on c).store r := by
  unfold sent? at hr
  split at hr
  · next broker topic key value =>
    rw [Cluster.on_send]
    exact (Cluster.ensures_send h broker topic key value).1 r hr
  · cases hr

/-- An act adds to the records what it appends. -/
theorem Act.extended_on (h : Sound c.store) (a : Act) :
    Extended c.store (a.on c).store (a.appended? c) := by
  unfold appended? sent?
  split
  · next topic p key value =>
    rw [Cluster.store_on_append]
    exact ensures_append topic p key value c.store h
  · next hother =>
    split
    · next broker topic key value =>
      rw [Cluster.on_send]
      exact (Cluster.ensures_send h broker topic key value).2
    · next hsilent =>
      -- nobody appends, so the records stay
      refine extended_none ((Cluster.reached_on a c fun _ => id).records_eq h ?_)
      rintro call hcall topic p key value rfl
      rcases append_of_mayCall hcall with ⟨broker, rfl⟩ | rfl
      · exact hsilent broker topic key value rfl
      · exact hother topic p key value rfl

end

/-! ## Histories -/

namespace Cluster

theorem later_after (acts : List Act) (c : Cluster σ) :
    Reached AnyCall c.store (c.after acts).store := by
  induction acts generalizing c with
  | nil => exact .refl c.store
  | cons a rest ih => exact (later_on a c).trans (ih (a.on c))

variable [TopicStore σ] {c : Cluster σ}

/-- A partition holds what it held before and what has been appended to it, in this order. -/
theorem records_after (h : StoreView.Sound c.store) (acts : List Act) (topic : String) (p : Int) :
    records (c.after acts).store topic p =
      records c.store topic p ++ (appended acts c).filter (Record.within topic p) := by
  induction acts generalizing c with
  | nil => exact (List.append_nil _).symm
  | cons a rest ih =>
    show records ((a.on c).after rest).store topic p = _
    rw [ih (sound_on h a), a.extended_on h topic p, List.append_assoc, ← List.filter_append]
    rfl

/-- A record that has been published lies where its key goes, whatever has happened since. -/
theorem routed_of_mem_sent (h : StoreView.Sound c.store) {acts : List Act} {r : Record}
    (hr : r ∈ sent acts c) : Routed (c.after acts).store r := by
  induction acts generalizing c with
  | nil => cases hr
  | cons a rest ih =>
    rcases List.mem_append.mp hr with hnow | hlater
    · have hrouted := Act.routed_of_sent? h (Option.mem_toList.mp hnow)
      exact (later_after rest (a.on c)).routed hrouted
    · exact ih (sound_on h a) hlater

/-- What is published under a key is found in its partition, in the order of publication. -/
theorem sent_sublist_records (h : StoreView.Sound c.store) (acts : List Act) {topic : String}
    {n : Int} (hn : count (c.after acts).store topic = some n) (key : String) :
    ((sent acts c).filter fun r => r.topic = topic ∧ r.key = key).Sublist
      (records (c.after acts).store topic (partitionFor key n)) := by
  have hwithin : ∀ r ∈ (sent acts c).filter fun r => r.topic = topic ∧ r.key = key,
      Record.within topic (partitionFor key n) r = true := by
    intro r hr
    obtain ⟨hmem, hkey⟩ := List.mem_filter.mp hr
    obtain ⟨htopic, hkey⟩ := of_decide_eq_true hkey
    obtain ⟨m, hm, hplace, -⟩ := routed_of_mem_sent h hmem
    rw [htopic, hn] at hm
    obtain rfl := Option.some.inj hm
    exact decide_eq_true ⟨htopic, hkey ▸ hplace⟩
  have hsent : ((sent acts c).filter fun r => r.topic = topic ∧ r.key = key).Sublist
      (appended acts c) := List.filter_sublist.trans (sent_sublist_appended acts c)
  have hsublist := hsent.filter (Record.within topic (partitionFor key n))
  rw [List.filter_eq_self.mpr hwithin] at hsublist
  rw [records_after h]
  exact hsublist.trans (List.sublist_append_right _ _)

/-- Records of one key lie in one partition, in the order of their publication. -/
theorem pairwise_sent (h : StoreView.Sound c.store) (acts : List Act) (topic key : String) :
    ((sent acts c).filter fun r => r.topic = topic ∧ r.key = key).Pairwise
      fun r r' => r.partition = r'.partition ∧ r.offset < r'.offset := by
  generalize hkey : ((sent acts c).filter fun r => r.topic = topic ∧ r.key = key) = published
  cases published with
  | nil => exact .nil
  | cons first rest =>
    have hfirst : first ∈ (sent acts c).filter fun r => r.topic = topic ∧ r.key = key :=
      hkey ▸ List.mem_cons_self
    obtain ⟨hmem, htopic⟩ := List.mem_filter.mp hfirst
    obtain ⟨n, hn, -⟩ := routed_of_mem_sent h hmem
    rw [(of_decide_eq_true htopic).1] at hn
    have hsublist := sent_sublist_records h acts hn key
    rw [hkey] at hsublist
    have hnumbered := records_consecutive (c.after acts).store ((later_after acts c).sound h) topic
      (partitionFor key n)
    refine (hnumbered.pairwise_offset.sublist hsublist).imp_of_mem fun hr hr' hlt => ⟨?_, hlt⟩
    exact (hnumbered.partition_of_mem (hsublist.subset hr)).trans
      (hnumbered.partition_of_mem (hsublist.subset hr')).symm

/-- What is published under a key goes to one partition of its topic, in the order of publication,
whichever broker publishes it and whoever has created the topic with whatever number of partitions:
the first one has fixed it for good. What a partition held before and what is appended to it are
numbered from zero on without a gap. -/
theorem sent_ordered (h : StoreView.Sound c.store) (acts : List Act) :
    (∀ r ∈ sent acts c, ∃ n, count (c.after acts).store r.topic = some n ∧
        r.partition = partitionFor r.key n ∧ 0 ≤ r.partition ∧ r.partition < n) ∧
      (∀ topic key, ((sent acts c).filter fun r => r.topic = topic ∧ r.key = key).Pairwise
        fun r r' => r.partition = r'.partition ∧ r.offset < r'.offset) ∧
      (∀ topic p, (records c.store topic p ++
          (appended acts c).filter (Record.within topic p)).map (·.offset) =
        (List.range (records (c.after acts).store topic p).length).map fun i : Nat => (i : Int)) ∧
      ∀ topic n, count (c.after acts).store topic = some n → ∀ later,
        count (c.after (acts ++ later)).store topic = some n ∧
          ∀ answer, (StoreM.on (LogStore.partitions topic) (c.after (acts ++ later)).store).1 =
            .ok answer → answer = some n := by
  have hsound : StoreView.Sound (c.after acts).store := (later_after acts c).sound h
  have hnumbered := fun topic p => records_consecutive (c.after acts).store hsound topic p
  refine ⟨fun r hr => routed_of_mem_sent h hr, fun topic key => ?_, fun topic p => ?_, ?_⟩
  · exact pairwise_sent h acts topic key
  · rw [← records_after h, (hnumbered topic p).offsets_eq]
    simp only [Int.zero_add]
  · intro topic n hn later
    have hkept : count (c.after (acts ++ later)).store topic = some n := by
      rw [after_append]
      exact (later_after later _).count_eq hn
    refine ⟨hkept, fun answer hanswer => ?_⟩
    have htold := partitions_eq topic (c.after (acts ++ later)).store
    rw [ensures_on] at htold
    rw [htold answer hanswer, hkept]

/-- Two brokers that would create topics with three and with five partitions. -/
def rivals : Cluster TableLog :=
  { store := .empty, brokers := #[{ defaultPartitions := 3 }, { defaultPartitions := 5 }] }

/-- A subscription at the second broker creates the topic, and both of them publish. -/
def rivalry : List Act :=
  [.subscribe 1 "workers" "jobs", .outside (.createTopic "jobs" 2),
    .outside (.send 0 "jobs" "k" .empty), .outside (.send 1 "jobs" "l" .empty),
    .outside (.send 1 "jobs" "k" .empty)]

/-- The one that comes first decides: there are five partitions, and one of them has both records
of a key. -/
theorem sent_ordered_rivals :
    StoreView.Sound rivals.store ∧
      (sent rivalry rivals).map (fun r => (r.key, r.partition, r.offset)) =
        [("k", 1, 0), ("l", 3, 0), ("k", 1, 1)] ∧
      (∀ r ∈ sent rivalry rivals, ∃ n, count (rivals.after rivalry).store r.topic = some n ∧
        r.partition = partitionFor r.key n ∧ 0 ≤ r.partition ∧ r.partition < n) ∧
      count (rivals.after rivalry).store "jobs" = some 5 ∧
      ∀ later, count (rivals.after (rivalry ++ later)).store "jobs" = some 5 := by
  have hsound : StoreView.Sound rivals.store := TableLog.sound_empty
  have hcount : count (rivals.after rivalry).store "jobs" = some 5 := by decide +kernel
  obtain ⟨hplaces, -, -, hfixed⟩ := sent_ordered hsound rivalry
  exact ⟨hsound, by decide +kernel, hplaces, hcount, fun later => (hfixed "jobs" 5 hcount later).1⟩

end Cluster

end WorkQueue
