import WorkQueue.Proofs.Cluster.Calls
import WorkQueue.Proofs.Consumer.Alone

/-!
# A consumer that is alone in its group

A consumer stays alone in its group as long as others keep out of the group. What they do otherwise
makes no difference to it, and whatever its own polls hand out comes behind what they have handed out
before.

## Main definitions

* `Cluster.Sole`: the consumer at a place is alone in its group

## Main statements

* `Cluster.consumer?_on`: only its own polls and leaving change a consumer
* `Cluster.Sole.aside`, `Cluster.Sole.poll`, `Cluster.Sole.commit`, `Cluster.Sole.send`: what keeps
  it alone
* `Cluster.Sole.of_subscribe`: who subscribes to a group without members is alone
-/

namespace WorkQueue

open StoreView GroupStore

variable {σ : Type}

/-! ## Who changes a consumer -/

namespace Cluster

theorem ensures_consumers {α : Type} (m : StoreM σ α) (c : Cluster σ) :
    Ensures (ClusterM.store m) c fun _ c' => c'.consumers = c.consumers := rfl

variable [LogStore σ] {c c' : Cluster σ}

theorem consumers_send (broker : Nat) (topic key : String) (value : ByteArray) (c : Cluster σ) :
    ((send broker topic key value).on c).2.consumers = c.consumers := by
  have hensures : Ensures (send broker topic key value) c fun _ c' =>
      c'.consumers = c.consumers := by
    unfold send
    rw [ensures_bind, ClusterM.ensures_get]
    exact (ensures_consumers _ c).bind (fun _ _ h => h) fun _ _ h => h
  exact hensures

theorem consumers_commit (i : Nat) (offsets : List (Int × Int)) (c : Cluster σ) :
    ((commit i offsets).on c).2.consumers = c.consumers := by
  have hensures : Ensures (commit i offsets) c fun _ c' => c'.consumers = c.consumers := by
    unfold commit
    rw [ensures_bind, ClusterM.ensures_get]
    dsimp only
    cases c.consumer? i with
    | none => rfl
    | some k => exact ensures_consumers _ c
  exact hensures

/-- Subscribing adds a consumer behind all others, if any. -/
theorem consumers_subscribe (broker : Nat) (group topic : String) (c : Cluster σ) :
    ((subscribe broker group topic).on c).2.consumers = c.consumers ∨
      ∃ k, ((subscribe broker group topic).on c).2.consumers = c.consumers.push k := by
  have hensures : Ensures (subscribe broker group topic) c fun _ c' =>
      c'.consumers = c.consumers ∨ ∃ k, c'.consumers = c.consumers.push k := by
    unfold subscribe
    rw [ensures_bind, ClusterM.ensures_get]
    refine (ensures_consumers _ c).bind ?_ (fun _ _ h => .inl h)
    intro n c₁ h₁
    refine (ensures_consumers _ c₁).bind ?_ (fun _ _ h => .inl (h.trans h₁))
    intro id c₂ h₂
    exact .inr ⟨_, congrArg (Array.push · _) (h₂.trans h₁)⟩
  exact hensures

/-- Others change no consumer. -/
theorem consumers_use (use : Use) (c : Cluster σ) :
    (use.operation.on c).2.consumers = c.consumers := by
  have hsingle : ∀ {α : Type} (m : StoreM σ α),
      Ensures (do let _ ← ClusterM.store m : ClusterM σ Unit) c fun _ c' =>
        c'.consumers = c.consumers :=
    fun m => (ensures_consumers m c).bind (fun _ _ h => h) fun _ _ h => h
  cases use with
  | send broker topic key value =>
    have hsend : Ensures (send broker topic key value) c fun _ c' => c'.consumers = c.consumers :=
      consumers_send broker topic key value c
    have hensures : Ensures (Use.send broker topic key value).operation c fun _ c' =>
        c'.consumers = c.consumers := hsend.bind (fun _ _ h => h) fun _ _ h => h
    exact hensures
  | partitions topic => exact hsingle _
  | append topic p key value => exact hsingle _
  | read topic p start limit => exact hsingle _
  | committed group topic p => exact hsingle _
  | join group topic => exact hsingle (LogStore.join c.wall group topic)
  | heartbeat group topic member timeout =>
    exact hsingle (LogStore.heartbeat c.wall group topic member timeout)
  | _ => rfl

/-- A poll changes the one who polls. -/
theorem consumer?_poll? {i j : Nat} (hij : i ≠ j) {p : Polling} {step : PollStep}
    (h : c.poll? i p = some (step, c')) : c'.consumer? j = c.consumer? j := by
  rcases poll?_cases h with ⟨rfl, -⟩ | ⟨rfl, -⟩
  · rfl
  · cases hk : c.consumer? i with
    | none => rw [on_turn_none i hk]
    | some k => rw [consumer?_turn i hk, if_neg hij]

/-- Apart from its polls and from leaving, nothing changes a consumer. -/
theorem consumer?_on {a : Act} {i : Nat} {k : Consumer} (hk : c.consumer? i = some k)
    (hpoll : ∀ p, a ≠ .poll i p) (hclose : a ≠ .close i) : (a.on c).consumer? i = some k := by
  have hsame : (a.on c).consumers = c.consumers → (a.on c).consumer? i = some k := fun h => by
    unfold consumer? at hk ⊢
    rw [h]
    exact hk
  cases a with
  | subscribe broker group topic =>
    rcases consumers_subscribe broker group topic c with heq | ⟨l, heq⟩
    · exact hsame heq
    · exact consumer?_push_of_some heq hk
  | poll j p =>
    have hij : j ≠ i := fun heq => hpoll p (heq ▸ rfl)
    simp only [Act.on]
    cases hstep : c.poll? j p with
    | none => exact hk
    | some next => exact (consumer?_poll? hij hstep).trans hk
  | commit j offsets => exact hsame (consumers_commit j offsets c)
  | close j =>
    have hij : j ≠ i := fun heq => hclose (heq ▸ rfl)
    simp only [Act.on, close]
    cases c.consumer? j with
    | none => exact hk
    | some l =>
      dsimp only
      split
      · exact hk
      · rw [@consumer?_modify σ c _ j ({ · with closed := true }) rfl i, if_neg hij]
        exact hk
  | pass timers memberships => exact hk
  | outside use => exact hsame (consumers_use use c)

end Cluster

/-! ## Alone in a group -/

variable [LogStore σ] [GroupStore σ]

/-- Whatever is buffered is of the consumer's topic. -/
theorem Fetch.Linked.topic_of_mem {topic : String} {f : Fetch} (h : f.Linked topic) {r : Record}
    (hr : r ∈ f.buffer) : r.topic = topic := by
  have hmem : r ∈ f.bufferOf r.partition := List.mem_filter.mpr ⟨hr, beq_iff_eq.mpr rfl⟩
  cases hn : f.position? r.partition with
  | none =>
    rw [h.held r.partition hn] at hmem
    cases hmem
  | some n =>
    obtain ⟨start, hrecords, -⟩ := h.joined r.partition n hn
    exact hrecords.topic_of_mem hmem

namespace Cluster

/-- The consumer at place `i` is alone in its group, and holds nothing but partitions of its
topic. -/
structure Sole (c : Cluster σ) (i : Nat) (k : Consumer) : Prop where
  consumer : c.consumer? i = some k
  orderly : Orderly c.store
  valid : Valid σ k.id
  alone : k.Alone c.store
  linked : k.fetch.Linked k.topic
  among : k.fetch.Among k.whole

namespace Sole

variable {c c' : Cluster σ} {i : Nat} {k : Consumer}

/-- Calls that bring nobody else into the group. -/
theorem reached (h : c.Sole i k) {allowed : StoreCall → Prop}
    (hreached : Reached allowed c.store c'.store) (hallowed : ∀ call, allowed call → k.Suits σ call)
    (hk : c'.consumer? i = some k) : c'.Sole i k := by
  obtain ⟨ho, halone⟩ := hreached.alone h.orderly hallowed h.alone
  exact ⟨hk, ho, h.valid, halone, h.linked, h.among⟩

/-- Others keep out of the group. -/
theorem aside (h : c.Sole i k) {a : Act} (hspares : ∀ call, a.MayCall c call →
    call.By (Valid σ) ∧ ¬ call.Concerns k.group k.topic) : (a.on c).Sole i k := by
  have hsuits : ∀ call, a.MayCall c call → k.Suits σ call := fun call hcall =>
    ⟨(hspares call hcall).1, fun hconcerns => absurd hconcerns (hspares call hcall).2⟩
  apply h.reached (reached_on a c fun _ hcall => hcall) hsuits
  -- its own polls and its leaving would have to do with the group
  apply consumer?_on h.consumer
  · rintro p rfl
    exact (hspares _ ⟨k, h.consumer, .inl rfl⟩).2 ⟨rfl, rfl⟩
  · rintro rfl
    exact (hspares _ ⟨k, h.consumer, rfl⟩).2 ⟨rfl, rfl⟩

/-- What the consumer calls when it polls or commits: no group but its own is concerned, and that
one by heartbeats of its own. -/
theorem mayCall (h : c.Sole i k) {a : Act} (ha : (∃ p, a = .poll i p) ∨ ∃ offsets, a = .commit i offsets)
    {call : StoreCall} (hcall : a.MayCall c call) :
    call.By (Valid σ) ∧ ∀ group topic, call.Concerns group topic →
      group = k.group ∧ topic = k.topic ∧
        call = .heartbeat c.wall k.group k.topic k.id (c.broker k.broker).sessionTimeout := by
  have honly : ∀ k', c.consumer? i = some k' → k' = k := fun k' hk' =>
    Option.some.inj (hk'.symm.trans h.consumer)
  rcases ha with ⟨p, rfl⟩ | ⟨offsets, rfl⟩
  · obtain ⟨k', hk', rfl | ⟨p, rfl⟩ | ⟨p, start, rfl⟩⟩ := hcall
    · obtain rfl := honly k' hk'
      exact ⟨h.valid, fun group topic ⟨hg, ht⟩ => ⟨hg.symm, ht.symm, rfl⟩⟩
    · exact ⟨trivial, fun _ _ hconcerns => hconcerns.elim⟩
    · exact ⟨trivial, fun _ _ hconcerns => hconcerns.elim⟩
  · obtain ⟨k', hk', rfl | ⟨p, o, -, rfl⟩⟩ := hcall
    · obtain rfl := honly k' hk'
      exact ⟨h.valid, fun group topic ⟨hg, ht⟩ => ⟨hg.symm, ht.symm, rfl⟩⟩
    · exact ⟨trivial, fun _ _ hconcerns => hconcerns.elim⟩

theorem suits (h : c.Sole i k) {a : Act} (ha : (∃ p, a = .poll i p) ∨ ∃ offsets, a = .commit i offsets)
    (call : StoreCall) (hcall : a.MayCall c call) : k.Suits σ call := by
  obtain ⟨hby, hconcerns⟩ := h.mayCall ha hcall
  exact ⟨hby, fun hgroup => ⟨_, _, (hconcerns _ _ hgroup).2.2⟩⟩

/-- A consumer of another topic keeps out of the group when it polls or commits. -/
theorem other (h : c.Sole i k) {j : Nat} {l : Consumer} (hl : c.Sole j l) (hne : l.topic ≠ k.topic)
    {a : Act} (ha : (∃ p, a = .poll j p) ∨ ∃ offsets, a = .commit j offsets) : (a.on c).Sole i k := by
  apply h.aside
  intro call hcall
  obtain ⟨hby, hconcerns⟩ := hl.mayCall ha hcall
  exact ⟨hby, fun hgroup => hne (hconcerns _ _ hgroup).2.1.symm⟩

theorem commit (h : c.Sole i k) (offsets : List (Int × Int)) :
    ((Cluster.commit i offsets).on c).2.Sole i k := by
  have hsuits := h.suits (.inr ⟨offsets, rfl⟩)
  refine h.reached (reached_on (.commit i offsets) c fun _ hcall => hcall) hsuits ?_
  unfold Cluster.consumer?
  rw [consumers_commit]
  exact h.consumer

/-- Publishing has nothing to do with groups. -/
theorem send (h : c.Sole i k) (broker : Nat) (topic key : String) (value : ByteArray) :
    ((Cluster.send broker topic key value).on c).2.Sole i k := by
  have hreached : Reached (k.Suits σ) c.store ((Cluster.send broker topic key value).on c).2.store :=
    reached_send broker ⟨trivial, False.elim⟩ (fun _ => ⟨trivial, False.elim⟩)
      (fun _ => ⟨trivial, False.elim⟩) c
  refine h.reached hreached (fun _ hcall => hcall) ?_
  unfold consumer?
  rw [consumers_send]
  exact h.consumer

/-- A step of a poll. It hands out records that come behind those handed out before. -/
theorem poll (h : c.Sole i k) {p : Polling} {step : PollStep} (hpoll : c.poll? i p = some (step, c')) :
    ∃ fetch, c'.Sole i { k with fetch } ∧
      (∀ r ∈ step.handed, r.topic = k.topic ∧ r.partition ∈ k.whole) ∧
      ∀ p offsets, Leads offsets (k.fetch.resume? p) →
        Leads (offsets ++ offsetsIn p step.handed) (fetch.resume? p) := by
  rcases poll?_cases hpoll with ⟨rfl, hhanded⟩ | ⟨rfl, hhanded, -⟩
  · refine ⟨k.fetch, h, ?_, fun p offsets hoffsets => ?_⟩
    · rw [hhanded]
      exact nofun
    · rw [hhanded, offsetsIn_nil, List.append_nil]
      exact hoffsets
  · have hstore := sound_of_orderly c.store h.orderly
    have hturned := (Consumer.ensures_turned hstore k.fetch (k := k) c.wall
      (c.broker k.broker).sessionTimeout).2
    have hgrows := Consumer.ensures_alone h.orderly h.valid h.alone h.among c.wall
      (c.broker k.broker).sessionTimeout
    have hlinked := Fetch.keeps_linked.turned hturned h.linked
    have hreached : Reached (k.Suits σ) c.store ((Cluster.turn i).on c).2.store := by
      refine reached_turn i fun k' hk' => ?_
      obtain rfl := Option.some.inj (hk'.symm.trans h.consumer)
      exact ⟨⟨h.valid, fun _ => ⟨_, _, rfl⟩⟩, fun _ => ⟨trivial, False.elim⟩,
        fun _ _ => ⟨trivial, False.elim⟩⟩
    obtain ⟨ho, halone⟩ := hreached.alone h.orderly (fun _ hcall => hcall) h.alone
    rw [hhanded]
    refine ⟨((k.turn c.wall (c.broker k.broker).sessionTimeout).on k.fetch c.store).2.1,
      ⟨?_, ho, h.valid, halone, hlinked.of_front, hgrows.1.among⟩, fun r hr => ?_,
      fun p offsets hoffsets => ?_⟩
    · rw [consumer?_turn i h.consumer, if_pos rfl, h.consumer]
      rfl
    · rw [on_turn i h.consumer] at hr
      exact ⟨hlinked.topic_of_mem (List.mem_append_left _ hr), hgrows.2 r hr⟩
    · rw [on_turn i h.consumer]
      exact hturned.leads h.linked (hgrows.1.kept p) hoffsets

/-- Who subscribes to a group without members is alone in it. -/
theorem of_subscribe (ho : Orderly c.store) {broker : Nat} {group topic : String}
    (hempty : (roster c.store group topic).members = []) {place : Nat}
    (hon : (subscribe broker group topic).on c = (.ok place, c')) :
    ∃ k, c'.Sole place k ∧ k.group = group ∧ k.topic = topic ∧ k.fetch = {} ∧ k.closed = false ∧
      place = c.consumers.size ∧ issued c.store < k.id ∧ k.id ≤ issued c'.store := by
  obtain ⟨s, n, id, hs, hjoin, hplace, hk⟩ :=
    subscribed (fun call => Fair σ call ∧ ¬ call.Concerns group topic) ⟨trivial, False.elim⟩
      (fun _ => ⟨trivial, False.elim⟩) hon
  have ho' := (hs.roster_later ho (fun _ hcall => hcall.1) group topic).1
  rw [← hs.roster_eq ho (fun _ hcall => hcall.1) fun _ hcall => hcall.2] at hempty
  have hreached : Ensures (LogStore.join c.wall group topic : StoreM σ Nat) s fun _ s' =>
      Reached (Fair σ) s s' := calls_join trivial s
  have hvalid := join_valid c.wall group topic s ho'
  have hnew := LawfulStore.join_new c.wall group topic s (sound_of_orderly s ho')
  rw [ensures_on, hjoin] at hreached hvalid hnew
  obtain ⟨hlt, hle⟩ := hnew id rfl
  have hissued := hs.issued_le (sound_of_orderly c.store ho)
  refine ⟨_, ⟨hk, (hreached.roster_later ho' (fun _ hcall => hcall) group topic).1, hvalid.1 id rfl,
    ?_, Fetch.linked_empty, nofun, nofun⟩, rfl, rfl, rfl, rfl, hplace,
    Nat.lt_of_le_of_lt hissued hlt, hle⟩
  -- nobody was a member in front of it
  intro id' hid'
  rcases hvalid.2 id' hid' with hold | hnew
  · rw [hempty] at hold
    cases hold
  · exact (Except.ok.inj hnew).symm

/-- Who subscribes to another topic keeps out of the group. -/
theorem subscribe (h : c.Sole i k) (broker : Nat) (group : String) {topic : String}
    (hne : topic ≠ k.topic) : ((Cluster.subscribe broker group topic).on c).2.Sole i k := by
  have hspares : ∀ call, (Act.subscribe broker group topic).MayCall c call →
      call.By (Valid σ) ∧ ¬ call.Concerns k.group k.topic := by
    rintro call (rfl | ⟨n, rfl⟩ | rfl)
    · exact ⟨trivial, id⟩
    · exact ⟨trivial, id⟩
    · exact ⟨trivial, fun hgroup => hne hgroup.2⟩
  exact h.aside hspares

end Sole

/-- Subscribing leaves the groups of other topics as they are. -/
theorem roster_subscribe {c : Cluster σ} (ho : Orderly c.store) (broker : Nat) (group : String)
    {topic other : String} (hne : topic ≠ other) :
    roster ((Cluster.subscribe broker group topic).on c).2.store group other =
      roster c.store group other := by
  have hreached : Reached (fun call => Fair σ call ∧ ¬ call.Concerns group other) c.store
      ((Cluster.subscribe broker group topic).on c).2.store :=
    reached_subscribe broker c ⟨trivial, id⟩ (fun _ => ⟨trivial, id⟩)
      ⟨trivial, fun hgroup => hne hgroup.2⟩
  exact hreached.roster_eq ho (fun _ hcall => hcall.1) fun _ hcall => hcall.2

end Cluster

end WorkQueue
