import WorkQueue.Proofs.Cluster.Handover
import WorkQueue.Proofs.Store.Calls

/-!
# The calls of a cluster

What happens to a cluster reaches its store by calls. Each operation is described by the calls that
it may make, so a property of the store that these calls keep is kept by the operation.

## Main definitions

* `Use.MayCall`, `Act.MayCall`: the calls of what others do, and of whatever happens

## Main statements

* `Cluster.reached_turn`, `Cluster.reached_commit`, `Cluster.reached_send`,
  `Cluster.reached_subscribe`, `Cluster.reached_close`: the calls of each operation
* `Cluster.subscribed`: what a subscription that succeeds has done
* `Cluster.reached_on`: the calls of whatever happens
-/

namespace WorkQueue

variable {σ : Type} [LogStore σ] {allowed : StoreCall → Prop}

/-! ## Brokers -/

theorem Broker.calls_ensureTopic (b : Broker) {topic : String}
    (hask : allowed (.partitions topic)) (hcreate : ∀ n, allowed (.createTopic topic n)) :
    Calls (σ := σ) allowed (b.ensureTopic topic) := by
  unfold ensureTopic
  refine .bind (calls_partitions hask) fun found => ?_
  cases found with
  | some n => exact .pure n
  | none =>
    refine .bind (calls_createTopic (hcreate _)) fun _ => .bind (calls_partitions hask) fun found => ?_
    cases found with
    | some n => exact .pure n
    | none => exact .throw _

/-- Publishing creates the topic if need be, and appends one record to it. -/
theorem Broker.calls_append (b : Broker) {topic key : String} {value : ByteArray}
    (hask : allowed (.partitions topic)) (hcreate : ∀ n, allowed (.createTopic topic n))
    (happend : ∀ p, allowed (.append topic p key value)) :
    Calls (σ := σ) allowed (b.append topic key value) := by
  unfold append
  exact .bind (b.calls_ensureTopic hask hcreate) fun n =>
    .bind (WorkQueue.calls_append (happend _)) fun _ => .pure _

/-! ## Operations -/

namespace Cluster

variable {c : Cluster σ}

/-- A step of a cluster operation that is an operation on the store. -/
theorem ensures_calls {α : Type} {m : StoreM σ α} (h : Calls allowed m) (c : Cluster σ) :
    Ensures (ClusterM.store m) c fun _ c' => Reached allowed c.store c'.store := by
  rw [ClusterM.ensures_store]
  exact h c.store

theorem reached_turn (i : Nat) (h : ∀ k, c.consumer? i = some k →
    allowed (.heartbeat c.wall k.group k.topic k.id (c.broker k.broker).sessionTimeout) ∧
      (∀ p, allowed (.committed k.group k.topic p)) ∧
      ∀ p start, allowed (.read k.topic p start fetchBatch)) :
    Reached allowed c.store ((turn i).on c).2.store := by
  cases hk : c.consumer? i with
  | none =>
    rw [on_turn_none i hk]
    exact .refl c.store
  | some k =>
    obtain ⟨hbeat, hcommitted, hread⟩ := h k hk
    rw [on_turn i hk]
    exact k.calls_turn hbeat hcommitted hread k.fetch c.store

theorem reached_commit (i : Nat) (offsets : List (Int × Int)) (h : ∀ k, c.consumer? i = some k →
    allowed (.heartbeat c.wall k.group k.topic k.id (c.broker k.broker).sessionTimeout) ∧
      ∀ p o, (p, o) ∈ offsets → allowed (.commit k.group k.topic p (o + 1))) :
    Reached allowed c.store ((commit i offsets).on c).2.store := by
  have hensures : Ensures (commit i offsets) c fun _ c' => Reached allowed c.store c'.store := by
    unfold commit
    rw [ensures_bind, ClusterM.ensures_get]
    dsimp only
    cases hk : c.consumer? i with
    | none => exact Reached.refl c.store
    | some k =>
      obtain ⟨hbeat, hcommit⟩ := h k hk
      exact ensures_calls (k.calls_commit offsets hbeat hcommit) c
  exact hensures

theorem reached_send (broker : Nat) {topic key : String} {value : ByteArray}
    (hask : allowed (.partitions topic)) (hcreate : ∀ n, allowed (.createTopic topic n))
    (happend : ∀ p, allowed (.append topic p key value)) (c : Cluster σ) :
    Reached allowed c.store ((send broker topic key value).on c).2.store := by
  have hensures : Ensures (send broker topic key value) c fun _ c' =>
      Reached allowed c.store c'.store := by
    unfold send
    rw [ensures_bind, ClusterM.ensures_get]
    refine (ensures_calls ((c.broker broker).calls_append hask hcreate happend) c).bind ?_ ?_
    · exact fun _ _ h => h
    · exact fun _ _ h => h
  exact hensures

theorem reached_subscribe (broker : Nat) {group topic : String} (c : Cluster σ)
    (hask : allowed (.partitions topic)) (hcreate : ∀ n, allowed (.createTopic topic n))
    (hjoin : allowed (.join c.wall group topic)) :
    Reached allowed c.store ((subscribe broker group topic).on c).2.store := by
  have hensures : Ensures (subscribe broker group topic) c fun _ c' =>
      Reached allowed c.store c'.store := by
    unfold subscribe
    rw [ensures_bind, ClusterM.ensures_get]
    refine (ensures_calls ((c.broker broker).calls_ensureTopic hask hcreate) c).bind ?_
      (fun _ _ h => h)
    intro n c' hc'
    refine (ensures_calls (calls_join hjoin) c').bind ?_ (fun _ _ h => hc'.trans h)
    exact fun _ _ h => hc'.trans h
  exact hensures

/-- What a subscription that succeeds has done: it has seen to the topic, and its consumer has
joined, whose place is behind all others. -/
theorem subscribed (allowed : StoreCall → Prop) {broker place : Nat} {group topic : String}
    {c' : Cluster σ} (hask : allowed (.partitions topic))
    (hcreate : ∀ n, allowed (.createTopic topic n))
    (hon : (subscribe broker group topic).on c = (.ok place, c')) :
    ∃ s partitions id, Reached allowed c.store s ∧
      (LogStore.join c.wall group topic : StoreM σ Nat).on s = (.ok id, c'.store) ∧
      place = c.consumers.size ∧
      c'.consumer? place = some { id, broker, group, topic, partitions } := by
  have hensures : Ensures (subscribe broker group topic) c fun result c' => ∀ place,
      result = .ok place → ∃ s partitions id, Reached allowed c.store s ∧
        (LogStore.join c.wall group topic : StoreM σ Nat).on s = (.ok id, c'.store) ∧
        place = c.consumers.size ∧
        c'.consumer? place = some { id, broker, group, topic, partitions } := by
    unfold subscribe
    rw [ensures_bind, ClusterM.ensures_get]
    dsimp only
    rw [ensures_bind, ClusterM.ensures_store]
    apply ((c.broker broker).calls_ensureTopic hask hcreate c.store).mono
    intro result s hs
    cases result with
    | error e => exact fun _ h => by cases h
    | ok partitions =>
      dsimp only
      rw [ensures_bind, ClusterM.ensures_store, ensures_on]
      rcases hjoin : (LogStore.join c.wall group topic : StoreM σ Nat).on s with ⟨result, s'⟩
      cases result with
      | error e => exact fun _ h => by cases h
      | ok id =>
        intro place hplace
        obtain rfl := Except.ok.inj hplace
        exact ⟨s, partitions, id, hs, hjoin, rfl, @consumer?_push_size σ { c with store := s' } _ _ rfl⟩
  unfold Ensures at hensures
  rw [show ((ExceptT.run (subscribe broker group topic)).run c) = _ from hon] at hensures
  exact hensures place rfl

theorem reached_close (i : Nat)
    (h : ∀ k, c.consumer? i = some k → allowed (.leave k.group k.topic k.id)) :
    Reached allowed c.store (c.close i).store := by
  unfold close
  cases hk : c.consumer? i with
  | none => exact .refl c.store
  | some k =>
    dsimp only
    split
    · exact .refl c.store
    · exact .single (h k hk) c.store

end Cluster

/-! ## Whatever happens -/

/-- The calls that somebody else may make. -/
def Use.MayCall (use : Use) (c : Cluster σ) (call : StoreCall) : Prop :=
  match use with
  | .createTopic topic n => call = .createTopic topic (max n 1)
  | .partitions topic => call = .partitions topic
  | .send _ topic key value =>
    call = .partitions topic ∨ (∃ n, call = .createTopic topic n) ∨
      ∃ p, call = .append topic p key value
  | .append topic p key value => call = .append topic p key value
  | .read topic p start limit => call = .read topic p start limit
  | .committed group topic p => call = .committed group topic p
  | .join group topic => call = .join c.wall group topic
  | .heartbeat group topic member timeout => call = .heartbeat c.wall group topic member timeout
  | .leave group topic member => call = .leave group topic member
  | .commit group topic p next => call = .commit group topic p next

theorem Use.reached (use : Use) (c : Cluster σ) (h : ∀ call, use.MayCall c call → allowed call) :
    Reached allowed c.store (use.operation.on c).2.store := by
  -- a single call, what it tells is thrown away
  have hsingle : ∀ {α : Type} {m : StoreM σ α}, Calls allowed m →
      Ensures (do let _ ← ClusterM.store m : ClusterM σ Unit) c fun _ c' =>
        Reached allowed c.store c'.store :=
    fun hm => (Cluster.ensures_calls hm c).bind (fun _ _ h => h) fun _ _ h => h
  cases use with
  | createTopic topic n => exact Cluster.ensures_calls (calls_createTopic (h _ rfl)) c
  | partitions topic => exact hsingle (calls_partitions (h _ rfl))
  | send broker topic key value =>
    have hsend : Ensures (Cluster.send broker topic key value) c fun _ c' =>
        Reached allowed c.store c'.store :=
      Cluster.reached_send broker (h _ (.inl rfl)) (fun n => h _ (.inr (.inl ⟨n, rfl⟩)))
        (fun p => h _ (.inr (.inr ⟨p, rfl⟩))) c
    have hensures : Ensures (Use.send broker topic key value).operation c fun _ c' =>
        Reached allowed c.store c'.store := hsend.bind (fun _ _ h => h) fun _ _ h => h
    exact hensures
  | append topic p key value => exact hsingle (WorkQueue.calls_append (h _ rfl))
  | read topic p start limit => exact hsingle (calls_read (h _ rfl))
  | committed group topic p => exact hsingle (calls_committed (h _ rfl))
  | join group topic => exact hsingle (calls_join (h _ rfl))
  | heartbeat group topic member timeout => exact hsingle (calls_heartbeat (h _ rfl))
  | leave group topic member => exact Cluster.ensures_calls (calls_leave (h _ rfl)) c
  | commit group topic p next => exact Cluster.ensures_calls (calls_commit (h _ rfl)) c

/-- The calls that may be made when something happens. -/
def Act.MayCall (a : Act) (c : Cluster σ) (call : StoreCall) : Prop :=
  match a with
  | .subscribe _ group topic =>
    call = .partitions topic ∨ (∃ n, call = .createTopic topic n) ∨
      call = .join c.wall group topic
  | .poll i _ => ∃ k, c.consumer? i = some k ∧
      (call = .heartbeat c.wall k.group k.topic k.id (c.broker k.broker).sessionTimeout ∨
        (∃ p, call = .committed k.group k.topic p) ∨
        ∃ p start, call = .read k.topic p start fetchBatch)
  | .commit i offsets => ∃ k, c.consumer? i = some k ∧
      (call = .heartbeat c.wall k.group k.topic k.id (c.broker k.broker).sessionTimeout ∨
        ∃ p o, (p, o) ∈ offsets ∧ call = .commit k.group k.topic p (o + 1))
  | .close i => ∃ k, c.consumer? i = some k ∧ call = .leave k.group k.topic k.id
  | .pass _ _ => False
  | .outside use => use.MayCall c call

theorem Cluster.reached_on (a : Act) (c : Cluster σ)
    (h : ∀ call, a.MayCall c call → allowed call) : Reached allowed c.store (a.on c).store := by
  cases a with
  | subscribe broker group topic =>
    exact reached_subscribe broker c (h _ (.inl rfl)) (fun n => h _ (.inr (.inl ⟨n, rfl⟩)))
      (h _ (.inr (.inr rfl)))
  | poll i p =>
    have hturn : Reached allowed c.store ((turn i).on c).2.store :=
      reached_turn i fun k hk => ⟨h _ ⟨k, hk, .inl rfl⟩,
        fun p => h _ ⟨k, hk, .inr (.inl ⟨p, rfl⟩)⟩,
        fun p start => h _ ⟨k, hk, .inr (.inr ⟨p, start, rfl⟩)⟩⟩
    simp only [Act.on]
    -- a poll that waits or runs out of time calls nothing
    cases hpoll : c.poll? i p with
    | none => exact .refl c.store
    | some next =>
      obtain ⟨step, c'⟩ := next
      rcases poll?_cases hpoll with ⟨rfl, -⟩ | ⟨rfl, -⟩
      · exact .refl c'.store
      · exact hturn
  | commit i offsets =>
    exact reached_commit i offsets fun k hk =>
      ⟨h _ ⟨k, hk, .inl rfl⟩, fun p o ho => h _ ⟨k, hk, .inr ⟨p, o, ho, rfl⟩⟩⟩
  | close i => exact reached_close i fun k hk => h _ ⟨k, hk, rfl⟩
  | pass timers memberships => exact .refl c.store
  | outside use => exact use.reached c h

namespace Cluster

theorem on_send (broker : Nat) (topic key : String) (value : ByteArray) (c : Cluster σ) :
    (Act.outside (.send broker topic key value)).on c = ((send broker topic key value).on c).2 := by
  have hsend : Ensures (send broker topic key value) c fun _ c' =>
      c' = ((send broker topic key value).on c).2 := rfl
  have hensures : Ensures (Use.send broker topic key value).operation c fun _ c' =>
      c' = ((send broker topic key value).on c).2 := hsend.bind (fun _ _ h => h) fun _ _ h => h
  exact hensures

theorem store_on_append (topic : String) (p : Int) (key : String) (value : ByteArray)
    (c : Cluster σ) : ((Act.outside (.append topic p key value)).on c).store =
      (StoreM.on (LogStore.append topic p key value) c.store).2 := by
  have happend : Ensures (ClusterM.store (LogStore.append topic p key value)) c fun _ c' =>
      c'.store = (StoreM.on (LogStore.append topic p key value) c.store).2 := rfl
  have hensures : Ensures (Use.append topic p key value).operation c fun _ c' =>
      c'.store = (StoreM.on (LogStore.append topic p key value) c.store).2 :=
    happend.bind (fun _ _ h => h) fun _ _ h => h
  exact hensures

theorem later_on (a : Act) (c : Cluster σ) : Reached AnyCall c.store (a.on c).store :=
  reached_on a c fun _ _ => trivial

theorem after_append (c : Cluster σ) (acts more : List Act) :
    c.after (acts ++ more) = (c.after acts).after more := List.foldl_append ..

variable [LawfulStore σ] {c : Cluster σ}

theorem sound_on (h : StoreView.Sound c.store) (a : Act) : StoreView.Sound (a.on c).store :=
  (later_on a c).sound h

/-- A consumer is found at its place for good. -/
theorem consumer?_after (h : StoreView.Sound c.store) {i : Nat} {k : Consumer}
    (hk : c.consumer? i = some k) (acts : List Act) :
    ∃ k', (c.after acts).consumer? i = some k' ∧ k.Same k' := by
  induction acts generalizing c k with
  | nil => exact ⟨k, hk, .refl k⟩
  | cons a rest ih =>
    obtain ⟨k', hk', hsame, -⟩ := turned_on h a hk
    obtain ⟨k'', hk'', hsame'⟩ := ih (sound_on h a) hk'
    exact ⟨k'', hk'', hsame.trans hsame'⟩

end Cluster

end WorkQueue
