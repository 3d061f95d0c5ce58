import WorkQueue.Cluster.Polling
import WorkQueue.Proofs.Consumer.Reading

/-!
# What operations do to a cluster

A consumer keeps its number, group and topic for good, and what it has read changes only when it
polls. Apart from commits nothing moves a position. An operation on a cluster is therefore described
by the consumers whose reading it may change; for most operations there are none.

## Main definitions

* `Consumer.Same`: a consumer later on
* `Cluster.Steady`: an operation that commits nothing and adds nobody
* `Cluster.Sound`: the store is sound, and members have numbers of their own
* `Use`: what others do with the store

## Main statements

* `Cluster.steady_poll?`, `Cluster.handed_poll?`: a step of a poll
* `Cluster.steady_send`, `Cluster.steady_close`, `Cluster.subscribe_cases`, `Cluster.commit_steps`
* `Use.steady`: what others do with the store
-/

namespace WorkQueue

open StoreView

/-- The same consumer, whatever it has read meanwhile. -/
structure Consumer.Same (k k' : Consumer) : Prop where
  id_eq : k'.id = k.id
  group_eq : k'.group = k.group
  topic_eq : k'.topic = k.topic
  partitions_eq : k'.partitions = k.partitions

namespace Consumer.Same

theorem refl (k : Consumer) : k.Same k := ⟨rfl, rfl, rfl, rfl⟩

theorem trans {k k' k'' : Consumer} (h : k.Same k') (h' : k'.Same k'') : k.Same k'' :=
  ⟨h'.id_eq.trans h.id_eq, h'.group_eq.trans h.group_eq, h'.topic_eq.trans h.topic_eq,
    h'.partitions_eq.trans h.partitions_eq⟩

end Consumer.Same

namespace ClusterM

variable {σ α : Type} {c : Cluster σ}

theorem ensures_store {m : StoreM σ α} {Q : Except BrokerError α → Cluster σ → Prop} :
    Ensures (ClusterM.store m) c Q ↔
      Ensures m c.store fun result store => Q result { c with store } := Iff.rfl

theorem ensures_get {Q : Except BrokerError (Cluster σ) → Cluster σ → Prop} :
    Ensures (get : ClusterM σ (Cluster σ)) c Q ↔ Q (.ok c) c := Iff.rfl

end ClusterM

/-- The record that a step of a poll hands out, if any. -/
def PollStep.handed : PollStep → List Record
  | .done (.ok (some r)) => [r]
  | _ => []

/-- Has a poll failed with this step? -/
def PollStep.failed : PollStep → Bool
  | .done (.error _) => true
  | _ => false

namespace Cluster

variable {σ : Type}

theorem consumer?_modify {c c' : Cluster σ} {i : Nat} {change : Consumer → Consumer}
    (h : c'.consumers = c.consumers.modify i change) (j : Nat) :
    c'.consumer? j = if i = j then (c.consumer? j).map change else c.consumer? j := by
  simp [consumer?, h, Array.getElem?_modify]

theorem consumer?_push {c c' : Cluster σ} {k : Consumer} (h : c'.consumers = c.consumers.push k)
    (i : Nat) : c'.consumer? i = if i = c.consumers.size then some k else c.consumer? i := by
  simp only [consumer?, h, Array.getElem?_push]

/-- The one who has joined stands behind all others. -/
theorem consumer?_push_size {c c' : Cluster σ} {k : Consumer}
    (h : c'.consumers = c.consumers.push k) : c'.consumer? c.consumers.size = some k := by
  rw [consumer?_push h, if_pos rfl]

/-- Whoever was there is found at the same place after somebody has joined. -/
theorem consumer?_push_of_some {c c' : Cluster σ} {k l : Consumer}
    (h : c'.consumers = c.consumers.push k) {i : Nat} (hl : c.consumer? i = some l) :
    c'.consumer? i = some l := by
  have hne : i ≠ c.consumers.size := Nat.ne_of_lt (Array.getElem?_eq_some_iff.mp hl).1
  rw [consumer?_push h, if_neg hne]
  exact hl

/-- Whoever is found after somebody has joined was there before, or is the new one. -/
theorem consumer?_push_cases {c c' : Cluster σ} {k l : Consumer}
    (h : c'.consumers = c.consumers.push k) {i : Nat} (hl : c'.consumer? i = some l) :
    c.consumer? i = some l ∨ i = c.consumers.size ∧ l = k := by
  rw [consumer?_push h] at hl
  split at hl
  · next hi => exact .inr ⟨hi, (Option.some.inj hl).symm⟩
  · exact .inl hl

variable [LogStore σ] {own : Nat → Prop} {c c' c'' : Cluster σ}

theorem on_turn (i : Nat) {k : Consumer} (hk : c.consumer? i = some k) :
    (turn i).on c =
      (((k.turn c.wall (c.broker k.broker).sessionTimeout).on k.fetch c.store).1,
        { c with
          store := ((k.turn c.wall (c.broker k.broker).sessionTimeout).on k.fetch c.store).2.2
          consumers := c.consumers.modify i fun k' => { k' with
            fetch := ((k.turn c.wall (c.broker k.broker).sessionTimeout).on k.fetch c.store).2.1 } }) := by
  simp only [ClusterM.on, turn, ExceptT.run, StateT.run, hk]

theorem consumer?_turn (i : Nat) {k : Consumer} (hk : c.consumer? i = some k) (j : Nat) :
    ((turn i).on c).2.consumer? j =
      if i = j then (c.consumer? j).map fun k' => { k' with
        fetch := ((k.turn c.wall (c.broker k.broker).sessionTimeout).on k.fetch c.store).2.1 }
      else c.consumer? j := by
  rw [on_turn i hk]
  exact consumer?_modify rfl j

theorem on_turn_none (i : Nat) (hk : c.consumer? i = none) :
    (turn i).on c = (.error .closed, c) := by
  simp only [ClusterM.on, turn, ExceptT.run, StateT.run, hk]

/-- A step of a poll takes a turn, or does nothing. -/
theorem poll?_cases {i : Nat} {p : Polling} {step : PollStep} (h : c.poll? i p = some (step, c')) :
    (c' = c ∧ step.handed = []) ∨
      (c' = ((turn i).on c).2 ∧ step.handed = Consumer.handed ((turn i).on c).1 ∧
        (step.failed = false → ((turn i).on c).1.isOk = true)) := by
  unfold poll? at h
  dsimp only at h
  split at h
  -- no signal has come: the poll waits, or its time is up
  · split at h
    · obtain ⟨rfl, rfl⟩ := Prod.mk.inj (Option.some.inj h)
      exact .inl ⟨rfl, rfl⟩
    · cases h
  -- otherwise it takes a turn, and the cluster is the one behind that turn
  · rcases hturn : (turn i).on c with ⟨result, after⟩
    simp only [hturn] at h
    right
    split at h
    · obtain ⟨rfl, rfl⟩ := Prod.mk.inj (Option.some.inj h)
      exact ⟨rfl, rfl, fun hfailed => by cases hfailed⟩
    · obtain ⟨rfl, rfl⟩ := Prod.mk.inj (Option.some.inj h)
      exact ⟨rfl, rfl, fun _ => rfl⟩
    · obtain ⟨rfl, rfl⟩ := Prod.mk.inj (Option.some.inj h)
      exact ⟨rfl, rfl, fun _ => rfl⟩
    · split at h <;> obtain ⟨rfl, rfl⟩ := Prod.mk.inj (Option.some.inj h) <;>
        exact ⟨rfl, rfl, fun _ => rfl⟩

variable [LawfulStore σ]

/-- What an operation leaves behind that commits nothing, adds no consumer, and reads for none but
the consumers at the places `own`. -/
structure Steady (own : Nat → Prop) (c c' : Cluster σ) : Prop where
  store : Unmoved c.store c'.store
  size_eq : c'.consumers.size = c.consumers.size
  same : ∀ i k, c.consumer? i = some k →
    ∃ k', c'.consumer? i = some k' ∧ k.Same k' ∧ (¬ own i → k'.fetch = k.fetch)

namespace Steady

theorem refl (h : StoreView.Sound c.store) : Steady own c c :=
  ⟨.refl h, rfl, fun _ k hk => ⟨k, hk, .refl k, fun _ => rfl⟩⟩

theorem trans (h : Steady own c c') (h' : Steady own c' c'') : Steady own c c'' where
  store := h.store.trans h'.store
  size_eq := h'.size_eq.trans h.size_eq
  same i k hk := by
    obtain ⟨k', hk', hsame, hfetch⟩ := h.same i k hk
    obtain ⟨k'', hk'', hsame', hfetch'⟩ := h'.same i k' hk'
    exact ⟨k'', hk'', hsame.trans hsame', fun hown => (hfetch' hown).trans (hfetch hown)⟩

/-- Only the store has changed. -/
theorem of_store {store : σ} (h : Unmoved c.store store) : Steady own c { c with store } :=
  ⟨h, rfl, fun _ k hk => ⟨k, hk, .refl k, fun _ => rfl⟩⟩

end Steady

/-! ## Soundness -/

/-- The store is sound, and every consumer has a number of its own that the store has given out. -/
structure Sound (c : Cluster σ) : Prop where
  store : StoreView.Sound c.store
  id_pos : ∀ i k, c.consumer? i = some k → 0 < k.id
  id_le : ∀ i k, c.consumer? i = some k → k.id ≤ issued c.store
  id_inj : ∀ i j k k', c.consumer? i = some k → c.consumer? j = some k' → k.id = k'.id → i = j

/-- Nobody has been added. -/
theorem Steady.back (h : Steady own c c') {i : Nat} {k' : Consumer} (hk' : c'.consumer? i = some k') :
    ∃ k, c.consumer? i = some k ∧ k.Same k' := by
  -- there were as many places before, so somebody stood at this one
  have hlt : i < c.consumers.size := by
    rw [← h.size_eq]
    exact (Array.getElem?_eq_some_iff.mp hk').1
  have hk : c.consumer? i = some c.consumers[i] := Array.getElem?_eq_getElem hlt
  obtain ⟨k'', hk'', hsame, -⟩ := h.same i _ hk
  rw [hk'] at hk''
  obtain rfl := Option.some.inj hk''
  exact ⟨_, hk, hsame⟩

theorem Steady.sound (h : Steady own c c') (hc : c.Sound) : c'.Sound := by
  refine ⟨h.store.sound, ?_, ?_, ?_⟩
  · intro i k' hk'
    obtain ⟨k, hk, hsame⟩ := h.back hk'
    rw [hsame.id_eq]
    exact hc.id_pos i k hk
  · intro i k' hk'
    obtain ⟨k, hk, hsame⟩ := h.back hk'
    rw [hsame.id_eq]
    exact Nat.le_trans (hc.id_le i k hk) h.store.issued_le
  · intro i j k' l' hk' hl' hid
    obtain ⟨k, hk, hsame⟩ := h.back hk'
    obtain ⟨l, hl, hsame'⟩ := h.back hl'
    exact hc.id_inj i j k l hk hl (by rw [← hsame.id_eq, ← hsame'.id_eq, hid])

/-- Somebody joins under a number that the store has not given out before. -/
theorem Sound.push (hc : c.Sound) {k : Consumer} (hmoved : Unmoved c.store c'.store)
    (hlt : issued c.store < k.id) (hle : k.id ≤ issued c'.store)
    (hpush : c'.consumers = c.consumers.push k) : c'.Sound := by
  refine ⟨hmoved.sound, ?_, ?_, ?_⟩
  · intro i l hl
    rcases consumer?_push_cases hpush hl with hl | ⟨-, rfl⟩
    · exact hc.id_pos i l hl
    · exact Nat.zero_lt_of_lt hlt
  · intro i l hl
    rcases consumer?_push_cases hpush hl with hl | ⟨-, rfl⟩
    · exact Nat.le_trans (hc.id_le i l hl) hmoved.issued_le
    · exact hle
  · intro i j l l' hl hl' hid
    -- the new number is above every old one, so it meets itself only
    rcases consumer?_push_cases hpush hl with hl | ⟨rfl, rfl⟩
    · rcases consumer?_push_cases hpush hl' with hl' | ⟨-, rfl⟩
      · exact hc.id_inj i j l l' hl hl' hid
      · have hsmall := hc.id_le i l hl
        omega
    · rcases consumer?_push_cases hpush hl' with hl' | ⟨rfl, -⟩
      · have hsmall := hc.id_le j l' hl'
        omega
      · rfl

/-! ## Reading -/

/-- A turn reads for the consumer whose turn it is. -/
theorem steady_turn (h : StoreView.Sound c.store) (i : Nat) :
    Steady (· = i) c ((turn i).on c).2 := by
  cases hk : c.consumer? i with
  | none =>
    rw [on_turn_none i hk]
    exact .refl h
  | some k =>
    have hmoved := (Consumer.ensures_turned h k.fetch (k := k) c.wall
      (c.broker k.broker).sessionTimeout).1
    have hsize : ((turn i).on c).2.consumers.size = c.consumers.size := by
      rw [on_turn i hk]
      exact Array.size_modify
    refine ⟨by rw [on_turn i hk]; exact hmoved, hsize, fun j l hl => ?_⟩
    rw [consumer?_turn i hk, hl]
    -- a turn writes the state of one consumer back, and no other
    by_cases hij : i = j
    · rw [if_pos hij]
      exact ⟨_, rfl, ⟨rfl, rfl, rfl, rfl⟩, fun hown => absurd hij.symm hown⟩
    · rw [if_neg hij]
      exact ⟨l, rfl, .refl l, fun _ => rfl⟩

/-- What becomes of the consumer whose turn it is. -/
theorem turned_turn (h : StoreView.Sound c.store) {i : Nat} {k : Consumer}
    (hk : c.consumer? i = some k) :
    ∃ k', ((turn i).on c).2.consumer? i = some k' ∧ k.Same k' ∧
      k.Turned (position c.store k.group k.topic) k.fetch ((turn i).on c).1 k'.fetch := by
  rw [consumer?_turn i hk, if_pos rfl, hk, on_turn i hk]
  exact ⟨_, rfl, ⟨rfl, rfl, rfl, rfl⟩,
    (Consumer.ensures_turned h k.fetch c.wall (c.broker k.broker).sessionTimeout).2⟩

theorem steady_poll? (hc : StoreView.Sound c.store) {i : Nat} {p : Polling} {step : PollStep}
    (h : c.poll? i p = some (step, c')) : Steady (· = i) c c' := by
  rcases poll?_cases h with ⟨rfl, -⟩ | ⟨rfl, -, -⟩
  · exact .refl hc
  · exact steady_turn hc i

/-- What reading keeps holds behind a step of a poll, up to the record handed out. -/
theorem handed_poll? (hc : StoreView.Sound c.store) {i : Nat} {p : Polling} {step : PollStep}
    (h : c.poll? i p = some (step, c')) {k : Consumer} (hk : c.consumer? i = some k)
    {I : Fetch → Prop} (hI : k.Keeps (position c.store k.group k.topic) I) (hf : I k.fetch) :
    ∃ k', c'.consumer? i = some k' ∧ k.Same k' ∧
      I { k'.fetch with buffer := step.handed ++ k'.fetch.buffer } := by
  rcases poll?_cases h with ⟨rfl, hhanded⟩ | ⟨rfl, hhanded, -⟩
  · refine ⟨k, hk, .refl k, ?_⟩
    rw [hhanded]
    exact hf
  · rw [hhanded]
    obtain ⟨k', hk', hsame, hturned⟩ := turned_turn hc hk
    exact ⟨k', hk', hsame, hI.turned hturned hf⟩

/-! ## Publishing and leaving -/

theorem ensures_ensureTopic (b : Broker) (topic : String) {s : σ} (h : StoreView.Sound s) :
    Ensures (b.ensureTopic topic) s fun _ s' => Unmoved s s' := by
  unfold Broker.ensureTopic
  refine (LawfulStore.partitions_steady topic s h).bind ?_ (fun _ _ hmoved => hmoved)
  intro found s' hmoved
  -- up to three calls, none of which commits, and any of which may fail
  cases found with
  | some n => exact hmoved
  | none =>
    refine (LawfulStore.createTopic_steady topic b.defaultPartitions s' hmoved.sound).bind ?_
      (fun _ _ hmoved' => hmoved.trans hmoved')
    intro _ s'' hmoved'
    refine (LawfulStore.partitions_steady topic s'' hmoved'.sound).bind ?_
      (fun _ _ hmoved'' => (hmoved.trans hmoved').trans hmoved'')
    intro found _ hmoved''
    cases found <;> exact (hmoved.trans hmoved').trans hmoved''

theorem ensures_append (b : Broker) (topic key : String) (value : ByteArray) {s : σ}
    (h : StoreView.Sound s) :
    Ensures (b.append topic key value) s fun _ s' => Unmoved s s' := by
  unfold Broker.append
  refine (ensures_ensureTopic b topic h).bind ?_ (fun _ _ hmoved => hmoved)
  intro n s' hmoved
  refine (LawfulStore.append_steady topic (partitionFor key n) key value s' hmoved.sound).bind ?_
    (fun _ _ hmoved' => hmoved.trans hmoved')
  exact fun _ _ hmoved' => hmoved.trans hmoved'

/-- Publishing reads for nobody. -/
theorem steady_send (h : StoreView.Sound c.store) (broker : Nat) (topic key : String)
    (value : ByteArray) : Steady own c ((send broker topic key value).on c).2 := by
  have hensures : Ensures (send broker topic key value) c fun _ c' => Steady own c c' := by
    unfold send
    rw [ensures_bind, ClusterM.ensures_get]
    dsimp only
    rw [ensures_bind, ClusterM.ensures_store]
    apply (ensures_append (c.broker broker) topic key value h).mono
    intro result store hmoved
    cases result with
    | error e => exact .of_store hmoved
    | ok place => exact ⟨hmoved, rfl, fun _ k hk => ⟨k, hk, .refl k, fun _ => rfl⟩⟩
  exact hensures

/-- Leaving a group changes nothing that has been read. -/
theorem steady_close (h : StoreView.Sound c.store) (i : Nat) : Steady own c (c.close i) := by
  unfold close
  cases hk : c.consumer? i with
  | none => exact .refl h
  | some k =>
    dsimp only
    split
    · exact .refl h
    · have hleft := LawfulStore.leave_steady k.group k.topic k.id c.store h
      refine ⟨hleft, Array.size_modify, fun j l hl => ?_⟩
      rw [@consumer?_modify σ c _ i ({ · with closed := true }) rfl j, hl]
      by_cases hij : i = j
      · rw [if_pos hij]
        exact ⟨{ l with closed := true }, rfl, ⟨rfl, rfl, rfl, rfl⟩, fun _ => rfl⟩
      · rw [if_neg hij]
        exact ⟨l, rfl, .refl l, fun _ => rfl⟩

/-! ## Joining and committing -/

/-- Subscribing fails without a trace among the consumers, or puts a new one behind all others,
with a number that nobody had. -/
theorem subscribe_cases (h : StoreView.Sound c.store) (broker : Nat) (group topic : String) :
    (∃ e c', (subscribe broker group topic).on c = (.error e, c') ∧ Steady own c c') ∨
      ∃ c' id partitions, (subscribe broker group topic).on c = (.ok c.consumers.size, c') ∧
        Unmoved c.store c'.store ∧ issued c.store < id ∧ id ≤ issued c'.store ∧
        c'.consumers = c.consumers.push { id, broker, group, topic, partitions } := by
  have hensures : Ensures (subscribe broker group topic) c fun result c' =>
      match result with
      | .error _ => Steady own c c'
      | .ok place => place = c.consumers.size ∧ ∃ id partitions,
          Unmoved c.store c'.store ∧ issued c.store < id ∧ id ≤ issued c'.store ∧
          c'.consumers = c.consumers.push { id, broker, group, topic, partitions } := by
    unfold subscribe
    rw [ensures_bind, ClusterM.ensures_get]
    dsimp only
    rw [ensures_bind, ClusterM.ensures_store]
    apply (ensures_ensureTopic (c.broker broker) topic h).mono
    intro result s hs
    cases result with
    | error e => exact .of_store hs
    | ok partitions =>
      dsimp only
      rw [ensures_bind, ClusterM.ensures_store]
      refine ((LawfulStore.join_steady c.wall group topic s hs.sound).and
        (LawfulStore.join_new c.wall group topic s hs.sound)).mono ?_
      intro result s' ⟨hs', hnew⟩
      cases result with
      | error e => exact .of_store (hs.trans hs')
      | ok id =>
        have hid := hnew id rfl
        exact ⟨rfl, id, partitions, hs.trans hs', Nat.lt_of_le_of_lt hs.issued_le hid.1, hid.2, rfl⟩
  -- from what holds behind the operation to what its two results look like
  unfold Ensures at hensures
  rcases hon : (subscribe broker group topic).on c with ⟨_ | place, c'⟩
  · rw [show ((ExceptT.run (subscribe broker group topic)).run c) = _ from hon] at hensures
    exact .inl ⟨_, c', rfl, hensures⟩
  · rw [show ((ExceptT.run (subscribe broker group topic)).run c) = _ from hon] at hensures
    obtain ⟨rfl, id, partitions, hrest⟩ := hensures
    exact .inr ⟨c', id, partitions, rfl, hrest⟩

/-- A commit changes the store alone, and there only positions of the consumer's group and topic. -/
theorem commit_steps (h : StoreView.Sound c.store) (i : Nat) (offsets : List (Int × Int)) :
    ∃ store, ((commit i offsets).on c).2 = { c with store } ∧ StoreView.Sound store ∧
      issued c.store ≤ issued store ∧ ∀ group topic p n, position store group topic p = some n →
        position c.store group topic p = some n ∨ ∃ k o, c.consumer? i = some k ∧
          group = k.group ∧ topic = k.topic ∧ (p, o) ∈ offsets ∧ n = o + 1 := by
  have hensures : Ensures (commit i offsets) c fun _ c' => ∃ store, c' = { c with store } ∧
      StoreView.Sound store ∧ issued c.store ≤ issued store ∧
      ∀ group topic p n, position store group topic p = some n →
        position c.store group topic p = some n ∨ ∃ k o, c.consumer? i = some k ∧
          group = k.group ∧ topic = k.topic ∧ (p, o) ∈ offsets ∧ n = o + 1 := by
    unfold commit
    rw [ensures_bind, ClusterM.ensures_get]
    dsimp only
    cases hk : c.consumer? i with
    | none => exact ⟨c.store, rfl, h, Nat.le_refl _, fun _ _ _ _ => .inl⟩
    | some k =>
      dsimp only
      rw [ClusterM.ensures_store]
      apply (Consumer.ensures_commit h c.wall (c.broker k.broker).sessionTimeout offsets).mono
      intro _ store ⟨hsound, hissued, hsteps⟩
      refine ⟨store, rfl, hsound, hissued, fun group topic p n hn => ?_⟩
      apply (hsteps group topic p n hn).imp_right
      rintro ⟨hgroup, htopic, o, ho, heq⟩
      exact ⟨k, o, rfl, hgroup, htopic, ho, heq⟩
  exact hensures

end Cluster

/-! ## What others do -/

/-- What somebody else does with the store: anything that it offers. -/
inductive Use where
  | createTopic (topic : String) (partitions : Int)
  | partitions (topic : String)
  | send (broker : Nat) (topic key : String) (value : ByteArray)
  | append (topic : String) (partition : Int) (key : String) (value : ByteArray)
  | read (topic : String) (partition start : Int) (limit : Nat)
  | committed (group topic : String) (partition : Int)
  | join (group topic : String)
  | heartbeat (group topic : String) (member timeout : Nat)
  | leave (group topic : String) (member : Nat)
  | commit (group topic : String) (partition next : Int)

section

variable {σ : Type} [LogStore σ]

/-- The operation on the cluster. -/
def Use.operation : Use → ClusterM σ Unit
  | .createTopic topic n => Cluster.createTopic topic n
  | .partitions topic => do
    let _ ← ClusterM.store (LogStore.partitions topic)
  | .send broker topic key value => do
    let _ ← Cluster.send broker topic key value
  | .append topic p key value => do
    let _ ← ClusterM.store (LogStore.append topic p key value)
  | .read topic p start limit => do
    let _ ← ClusterM.store (LogStore.read topic p start limit)
  | .committed group topic p => do
    let _ ← ClusterM.store (LogStore.committed group topic p)
  | .join group topic => do
    let _ ← ClusterM.store (LogStore.join (← get).wall group topic)
  | .heartbeat group topic member timeout => do
    let _ ← ClusterM.store (LogStore.heartbeat (← get).wall group topic member timeout)
  | .leave group topic member => .store (LogStore.leave group topic member)
  | .commit group topic p next => .store (LogStore.commit group topic p next)

variable [LawfulStore σ]

/-- Whatever others do apart from commits reads for nobody and moves no position. -/
theorem Use.steady (use : Use) {c : Cluster σ} (h : StoreView.Sound c.store)
    (hcommit : ∀ g topic p n, use ≠ .commit g topic p n) :
    Cluster.Steady (fun _ => False) c ((use.operation).on c).2 := by
  -- a single call to the store, whatever it returns
  have hstore : ∀ {α : Type} {m : StoreM σ α}, Steady m →
      Ensures (ClusterM.store m) c fun _ c' => Cluster.Steady (fun _ => False) c c' := by
    intro α m hm
    rw [ClusterM.ensures_store]
    exact (hm c.store h).mono fun _ _ => .of_store
  have hensures : Ensures use.operation c fun _ c' => Cluster.Steady (fun _ => False) c c' := by
    cases use with
    | createTopic topic n => exact hstore (LawfulStore.createTopic_steady topic _)
    | partitions topic =>
      have hfound := hstore (LawfulStore.partitions_steady topic)
      exact hfound.bind (fun _ _ hc => hc) fun _ _ hc => hc
    | send broker topic key value =>
      have hsend : Ensures (Cluster.send broker topic key value) c fun _ c' =>
          Cluster.Steady (fun _ => False) c c' := Cluster.steady_send h broker topic key value
      exact hsend.bind (fun _ _ hc => hc) fun _ _ hc => hc
    | append topic p key value =>
      have happend := hstore (LawfulStore.append_steady topic p key value)
      exact happend.bind (fun _ _ hc => hc) fun _ _ hc => hc
    | read topic p start limit =>
      have hread := hstore (LawfulStore.read_steady topic p start limit)
      exact hread.bind (fun _ _ hc => hc) fun _ _ hc => hc
    | committed g topic p =>
      have hcommitted := hstore (LawfulStore.committed_steady g topic p)
      exact hcommitted.bind (fun _ _ hc => hc) fun _ _ hc => hc
    | join g topic =>
      have hjoin := hstore (LawfulStore.join_steady c.wall g topic)
      unfold Use.operation
      rw [ensures_bind, ClusterM.ensures_get]
      exact hjoin.bind (fun _ _ hc => hc) fun _ _ hc => hc
    | heartbeat g topic member timeout =>
      have hbeat := hstore (LawfulStore.heartbeat_steady c.wall g topic member timeout)
      unfold Use.operation
      rw [ensures_bind, ClusterM.ensures_get]
      exact hbeat.bind (fun _ _ hc => hc) fun _ _ hc => hc
    | leave g topic member => exact hstore (LawfulStore.leave_steady g topic member)
    | commit g topic p n => exact absurd rfl (hcommit g topic p n)
  exact hensures

end

end WorkQueue
