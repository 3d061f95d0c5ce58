import WorkQueue.Proofs.Cluster.Calls
import WorkQueue.Proofs.Consumer.Shares
import WorkQueue.Proofs.Store.MemoryGroups
import WorkQueue.Proofs.Store.TableGroups

/-!
# Agreement within a generation

Members learn of each other by heartbeats only. Whoever hears of the same generation hears of the
same members, so all of them deal out the partitions alike, and no two of them return records of the
same partition while the generation lasts, whatever else happens to the group in between.

## Main definitions

* `Cluster.rosters`, `Cluster.heard`: the memberships of a group along what happens, and those told
  by heartbeats
* `Cluster.receipts`: the records returned by polls, with the membership heard last
* `Cluster.Agreed`: the invariant

## Main statements

* `Cluster.Agreed.on`: whatever happens keeps it
* `Cluster.agreement`: consumers agree on who reads what
-/

namespace WorkQueue

open StoreView GroupStore

/-- The members in whose name something happens have numbers that are valid. -/
def Act.By (valid : Nat → Prop) : Act → Prop
  | .outside (.heartbeat _ _ member _) => valid member
  | .outside (.leave _ _ member) => valid member
  | _ => True

/-- A record that a poll has returned. -/
structure Receipt where
  /-- The place of the consumer. -/
  consumer : Nat
  member : Nat
  /-- The number of partitions it knows of. -/
  partitions : Int
  /-- What the last heartbeat of the poll has told. -/
  heard : Option Membership
  record : Record

/-- What is returned belongs to the consumer's share in the membership `m` that was heard of. -/
structure Receipt.InShare {σ : Type} (c : Cluster σ) (d : Receipt) (m : Membership) : Prop where
  consumer : ∃ k, c.consumer? d.consumer = some k ∧ k.id = d.member
  heard : d.heard = some m
  member : d.member ∈ m.members
  share : d.record.partition ∈ m.share d.partitions d.member

variable {σ : Type} [LogStore σ]

namespace Cluster

/-- The membership that a heartbeat of consumer `i` tells, if it is in the group. -/
def beat (group topic : String) (i : Nat) (c : Cluster σ) : Option Membership :=
  match c.consumer? i with
  | none => none
  | some k =>
    if k.group = group ∧ k.topic = topic then
      k.beat c.wall (c.broker k.broker).sessionTimeout c.store
    else none

end Cluster

namespace Act

/-- The membership that a heartbeat of the group tells, if one is sent and succeeds. -/
def heard (group topic : String) (a : Act) (c : Cluster σ) : Option Membership :=
  match a with
  -- a poll that waits sends none
  | .poll i p => if p.seen = some (c.signalsOf i) then none else c.beat group topic i
  | .commit i _ => c.beat group topic i
  | .outside (.heartbeat g t member timeout) =>
    if g = group ∧ t = topic then
      (StoreM.on (LogStore.heartbeat c.wall g t member timeout) c.store).1.toOption
    else none
  | _ => none

/-- The records that polls of the group return. -/
def returned (group topic : String) (a : Act) (c : Cluster σ) : List Receipt :=
  match a with
  | .poll i _ =>
    match c.consumer? i with
    | none => []
    | some k =>
      if k.group = group ∧ k.topic = topic then
        (((a.step? i c).map PollStep.handed).getD []).map fun record =>
          { consumer := i, member := k.id, partitions := k.partitions,
            heard := a.heard group topic c, record }
      else []
  | _ => []

end Act

namespace Cluster

/-- The memberships that heartbeats of a group tell, one after the other. -/
def heard (group topic : String) : List Act → Cluster σ → List Membership
  | [], _ => []
  | a :: rest, c => (a.heard group topic c).toList ++ heard group topic rest (a.on c)

/-- The records that polls of a group return, one after the other. -/
def receipts (group topic : String) : List Act → Cluster σ → List Receipt
  | [], _ => []
  | a :: rest, c => a.returned group topic c ++ receipts group topic rest (a.on c)

/-! ## Polls and heartbeats -/

variable {c : Cluster σ}

theorem beat_eq_some {group topic : String} {i : Nat} {m : Membership}
    (h : c.beat group topic i = some m) : ∃ k, c.consumer? i = some k ∧ k.group = group ∧
      k.topic = topic ∧ k.beat c.wall (c.broker k.broker).sessionTimeout c.store = some m := by
  unfold beat at h
  split at h
  · cases h
  · next k hk =>
    split at h
    · next hplace => exact ⟨k, hk, hplace.1, hplace.2, h⟩
    · cases h

/-- A poll that waits, or whose time is up while it waits, returns nothing. -/
theorem handed_of_seen {i : Nat} {p : Polling} (h : p.seen = some (c.signalsOf i)) :
    (((Act.poll i p).step? i c).map PollStep.handed).getD [] = [] := by
  unfold Act.step? poll?
  dsimp only
  rw [if_pos rfl, if_pos h]
  split <;> rfl

/-- Any other poll takes a turn. -/
theorem poll_of_ne {i : Nat} {p : Polling} (h : p.seen ≠ some (c.signalsOf i)) :
    (Act.poll i p).on c = ((turn i).on c).2 ∧
      (((Act.poll i p).step? i c).map PollStep.handed).getD [] =
        Consumer.handed ((turn i).on c).1 := by
  unfold Act.on Act.step? poll?
  dsimp only
  rw [if_pos rfl, if_neg h]
  rcases (turn i).on c with ⟨_ | _ | _ | _, after⟩
  · exact ⟨rfl, rfl⟩
  · exact ⟨rfl, rfl⟩
  · exact ⟨rfl, rfl⟩
  · by_cases hdeadline : p.deadline ≤ c.now
    · simp only [if_pos hdeadline]
      exact ⟨trivial, rfl⟩
    · simp only [if_neg hdeadline]
      exact ⟨trivial, rfl⟩

theorem store_heartbeat (group topic : String) (member timeout : Nat) (c : Cluster σ) :
    ((Act.outside (.heartbeat group topic member timeout)).on c).store =
      (StoreM.on (LogStore.heartbeat c.wall group topic member timeout) c.store).2 := by
  have hstore : Ensures
      (ClusterM.store (LogStore.heartbeat c.wall group topic member timeout)) c fun _ c' =>
        c'.store = (StoreM.on (LogStore.heartbeat c.wall group topic member timeout) c.store).2 :=
    rfl
  have hensures : Ensures (Use.heartbeat group topic member timeout).operation c fun _ c' =>
      c'.store = (StoreM.on (LogStore.heartbeat c.wall group topic member timeout) c.store).2 := by
    unfold Use.operation
    rw [ensures_bind, ClusterM.ensures_get]
    exact hstore.bind (fun _ _ h => h) fun _ _ h => h
  exact hensures

/-- One act returns records of one consumer only. -/
theorem consumer_of_mem_returned {a : Act} {group topic : String} {d d' : Receipt}
    (hd : d ∈ a.returned group topic c) (hd' : d' ∈ a.returned group topic c) :
    d.consumer = d'.consumer := by
  have hplace : ∀ {d : Receipt}, d ∈ a.returned group topic c →
      ∃ p, a = .poll d.consumer p := by
    intro d hd
    cases a with
    | poll i p =>
      unfold Act.returned at hd
      dsimp only at hd
      split at hd
      · cases hd
      · split at hd
        · obtain ⟨r, -, rfl⟩ := List.mem_map.mp hd
          exact ⟨p, rfl⟩
        · cases hd
    | _ => cases hd
  obtain ⟨p, rfl⟩ := hplace hd
  obtain ⟨p', heq⟩ := hplace hd'
  exact (Act.poll.inj heq).1

variable [GroupStore σ]

/-- The memberships of a group before, between and behind the acts. -/
def rosters (group topic : String) : List Act → Cluster σ → List Membership
  | [], c => [roster c.store group topic]
  | a :: rest, c => roster c.store group topic :: rosters group topic rest (a.on c)

/-! ## Who is there -/

/-- The cluster is sound, its groups are in order, and whatever a consumer holds in the latest
generation belongs to its share. -/
structure Agreed (c : Cluster σ) : Prop where
  orderly : Orderly c.store
  sound : c.Sound
  valid : ∀ i k, c.consumer? i = some k → Valid σ k.id
  within : ∀ i k, c.consumer? i = some k →
    (roster c.store k.group k.topic).generation ≤ maxWord64 → k.fetch.Within k c.store

theorem within_same {k k' : Consumer} {f : Fetch} {s : σ} (h : f.Within k s) (hsame : k.Same k') :
    f.Within k' s := by
  constructor
  · rw [hsame.group_eq, hsame.topic_eq]
    exact h.generation_le
  · rw [hsame.group_eq, hsame.topic_eq, hsame.id_eq, hsame.partitions_eq]
    exact h.share

/-- An act by members with valid numbers makes fair calls only. -/
theorem Agreed.fair (h : c.Agreed) {a : Act} (hby : a.By (Valid σ)) (call : StoreCall)
    (hcall : a.MayCall c call) : Fair σ call := by
  cases a with
  | subscribe broker group topic => rcases hcall with rfl | ⟨n, rfl⟩ | rfl <;> trivial
  | poll i p =>
    obtain ⟨k, hk, rfl | ⟨p, rfl⟩ | ⟨p, start, rfl⟩⟩ := hcall
    · exact h.valid i k hk
    · trivial
    · trivial
  | commit i offsets =>
    obtain ⟨k, hk, rfl | ⟨p, o, -, rfl⟩⟩ := hcall
    · exact h.valid i k hk
    · trivial
  | close i =>
    obtain ⟨k, hk, rfl⟩ := hcall
    exact h.valid i k hk
  | pass timers memberships => exact hcall.elim
  | outside use =>
    cases use with
    | heartbeat group topic member timeout =>
      obtain rfl := hcall
      exact hby
    | leave group topic member =>
      obtain rfl := hcall
      exact hby
    | send broker topic key value => rcases hcall with rfl | ⟨n, rfl⟩ | ⟨p, rfl⟩ <;> trivial
    | _ =>
      obtain rfl := hcall
      trivial

theorem Agreed.roster_later (h : c.Agreed) {a : Act} (hby : a.By (Valid σ)) (group topic : String) :
    Orderly (a.on c).store ∧
      (roster c.store group topic).Later (roster (a.on c).store group topic) :=
  (reached_on a c fun _ hcall => hcall).roster_later h.orderly (h.fair hby) group topic

/-- Subscribing gives the new consumer a valid number. -/
theorem valid_subscribe (ho : Orderly c.store) (broker : Nat) (group topic : String) (i : Nat)
    (k : Consumer) (hk : ((subscribe broker group topic).on c).2.consumer? i = some k) :
    c.consumer? i = some k ∨ Valid σ k.id := by
  have hensures : Ensures (subscribe broker group topic) c fun _ c' => ∀ i k,
      c'.consumer? i = some k → c.consumer? i = some k ∨ Valid σ k.id := by
    have hcalls : Calls (Fair σ) ((c.broker broker).ensureTopic topic : StoreM σ Int) :=
      Broker.calls_ensureTopic _ trivial fun _ => trivial
    unfold subscribe
    rw [ensures_bind, ClusterM.ensures_get]
    dsimp only
    rw [ensures_bind, ClusterM.ensures_store]
    apply (hcalls c.store).mono
    intro result s hs
    cases result with
    | error e => exact fun i k hk => .inl hk
    | ok n =>
      have hs' := (hs.roster_later ho (fun _ hcall => hcall) group topic).1
      dsimp only
      rw [ensures_bind, ClusterM.ensures_store]
      apply (join_valid c.wall group topic s hs').mono
      intro result s' ⟨hvalid, _⟩
      cases result with
      | error e => exact fun i k hk => .inl hk
      | ok id =>
        intro i k hk
        rcases @consumer?_push_cases σ { c with store := s' } _ _ k rfl i hk with hold | ⟨-, rfl⟩
        · exact .inl hold
        · exact .inr (hvalid id rfl)
  exact hensures i k hk

/-- Whatever happens leaves the consumers where they are, changes the store alone, or adds a
consumer. -/
theorem on_kinds (h : StoreView.Sound c.store) (a : Act) :
    (∃ own, Steady own c (a.on c)) ∨
      (∃ store, a.on c = { c with store } ∧ StoreView.Sound store ∧
        issued c.store ≤ issued store) ∨
      ∃ broker group topic, a = .subscribe broker group topic := by
  cases a with
  | subscribe broker group topic => exact .inr (.inr ⟨broker, group, topic, rfl⟩)
  | poll i p =>
    left
    simp only [Act.on]
    cases hpoll : c.poll? i p with
    | none => exact ⟨fun _ => False, .refl h⟩
    | some next => exact ⟨_, steady_poll? h hpoll⟩
  | commit i offsets =>
    obtain ⟨store, hafter, hsound, hissued, -⟩ := commit_steps h i offsets
    exact .inr (.inl ⟨store, hafter, hsound, hissued⟩)
  | close i => exact .inl ⟨fun _ => False, steady_close h i⟩
  | pass timers memberships =>
    exact .inl ⟨fun _ => False, .refl h, rfl, fun _ k hk => ⟨k, hk, .refl k, fun _ => rfl⟩⟩
  | outside use =>
    by_cases hcommit : ∃ group topic p n, use = .commit group topic p n
    · obtain ⟨group, topic, p, n, rfl⟩ := hcommit
      have hmoved := LawfulStore.commit_advances group topic p n c.store h
      exact .inr (.inl ⟨_, rfl, hmoved.1, hmoved.2.1⟩)
    · refine .inl ⟨_, use.steady h fun group topic p n heq => ?_⟩
      exact hcommit ⟨group, topic, p, n, heq⟩

theorem Sound.on (h : c.Sound) (a : Act) : (a.on c).Sound := by
  rcases on_kinds h.store a with
    ⟨own, hsteady⟩ | ⟨store, hafter, hsound, hissued⟩ | ⟨broker, group, topic, rfl⟩
  · exact hsteady.sound h
  · rw [hafter]
    exact ⟨hsound, h.id_pos, fun i k hk => Nat.le_trans (h.id_le i k hk) hissued, h.id_inj⟩
  · show ((subscribe broker group topic).on c).2.Sound
    rcases @subscribe_cases σ _ (fun _ => False) c _ h.store broker group topic with
      ⟨e, c', hon, hsteady⟩ | ⟨c', id, n, hon, hmoved, hlt, hle, hconsumers⟩
    · rw [hon]
      exact hsteady.sound h
    · rw [hon]
      exact h.push hmoved hlt hle hconsumers

theorem Agreed.valid_on (h : c.Agreed) (a : Act) (i : Nat) (k' : Consumer)
    (hk' : (a.on c).consumer? i = some k') : Valid σ k'.id := by
  rcases on_kinds h.sound.store a with
    ⟨own, hsteady⟩ | ⟨store, hafter, -, -⟩ | ⟨broker, group, topic, rfl⟩
  · obtain ⟨k, hk, hsame⟩ := hsteady.back hk'
    rw [hsame.id_eq]
    exact h.valid i k hk
  · rw [hafter] at hk'
    exact h.valid i k' hk'
  · rcases valid_subscribe h.orderly broker group topic i k' hk' with hold | hvalid
    · exact h.valid i k' hold
    · exact hvalid

/-! ## What consumers hold -/

/-- What a turn of consumer `j` hands out belongs to the share that it is told, and what it leaves
belongs to it as long as the generation is not over. -/
theorem Agreed.turned (h : c.Agreed) {j : Nat} {k : Consumer} (hk : c.consumer? j = some k) :
    ∃ k', ((turn j).on c).2.consumer? j = some k' ∧ k.Same k' ∧
      (∀ m, c.beat k.group k.topic j = some m → m.Tells k.group k.topic ((turn j).on c).2.store) ∧
      ((roster ((turn j).on c).2.store k.group k.topic).generation ≤ maxWord64 →
        k'.fetch.Within k ((turn j).on c).2.store ∧
          ∀ r ∈ Consumer.handed ((turn j).on c).1, ∃ m, c.beat k.group k.topic j = some m ∧
            k.id ∈ m.members ∧ r.partition ∈ m.share k.partitions k.id) := by
  have hbeat : c.beat k.group k.topic j =
      k.beat c.wall (c.broker k.broker).sessionTimeout c.store := by
    simp [beat, hk]
  obtain ⟨htells, hwithin⟩ := Consumer.ensures_within h.orderly (h.valid j k hk) c.wall
    (c.broker k.broker).sessionTimeout (h.within j k hk)
  rw [consumer?_turn j hk, if_pos rfl, hk, on_turn j hk, hbeat]
  refine ⟨_, rfl, ⟨rfl, rfl, rfl, rfl⟩, htells, fun hfits => ?_⟩
  obtain ⟨hleft, hhanded⟩ := hwithin hfits
  refine ⟨hleft, fun r hr => ?_⟩
  obtain ⟨m, hm, hmem, -, hshare⟩ := hhanded r hr
  exact ⟨m, hm, hmem, hshare⟩

/-- Whatever happens keeps the invariant. -/
theorem Agreed.on (h : c.Agreed) {a : Act} (hby : a.By (Valid σ)) : (a.on c).Agreed := by
  refine ⟨(h.roster_later hby "" "").1, h.sound.on a, h.valid_on a, fun i k' hk' hfits => ?_⟩
  have hlater := (h.roster_later hby k'.group k'.topic).2
  rcases on_cases h.sound.store a with ⟨hstill, -⟩ | ⟨j, hon, -⟩
  · cases hk : c.consumer? i with
    | none =>
      rw [hstill.fresh i k' hk hk']
      exact Fetch.within_empty k' _
    | some k =>
      obtain ⟨k'', hk'', hsame, hfetch⟩ := hstill.same i k hk
      obtain rfl := Option.some.inj (hk''.symm.trans hk')
      rw [hsame.group_eq, hsame.topic_eq] at hlater hfits
      have hwithin := h.within i k hk (Nat.le_trans hlater.generation_le hfits)
      rw [hfetch]
      exact within_same (hwithin.later hlater) hsame
  · have hsteady := steady_turn h.sound.store j
    rw [hon] at hk' hlater hfits ⊢
    obtain ⟨k, hk, -⟩ := hsteady.back hk'
    by_cases hij : i = j
    · subst hij
      obtain ⟨k'', hk'', hsame, -, hturned⟩ := h.turned hk
      obtain rfl := Option.some.inj (hk''.symm.trans hk')
      rw [hsame.group_eq, hsame.topic_eq] at hfits
      exact within_same (hturned hfits).1 hsame
    · obtain ⟨k'', hk'', hsame, hfetch⟩ := hsteady.same i k hk
      obtain rfl := Option.some.inj (hk''.symm.trans hk')
      rw [hsame.group_eq, hsame.topic_eq] at hlater hfits
      have hwithin := h.within i k hk (Nat.le_trans hlater.generation_le hfits)
      rw [hfetch hij]
      exact within_same (hwithin.later hlater) hsame

/-! ## What heartbeats tell -/

/-- Behind a commit the group is as its heartbeat has told. -/
theorem Agreed.commit_tells (h : c.Agreed) {i : Nat} {k : Consumer} (hk : c.consumer? i = some k)
    (offsets : List (Int × Int)) {m : Membership}
    (hm : k.beat c.wall (c.broker k.broker).sessionTimeout c.store = some m) :
    m.Tells k.group k.topic ((commit i offsets).on c).2.store := by
  have hensures : Ensures (commit i offsets) c fun _ c' => m.Tells k.group k.topic c'.store := by
    unfold commit
    rw [ensures_bind, ClusterM.ensures_get]
    dsimp only
    rw [hk]
    dsimp only
    rw [ClusterM.ensures_store]
    unfold Consumer.commit
    refine (Consumer.ensures_told h.orderly (h.valid i k hk) c.wall
      (c.broker k.broker).sessionTimeout).bind ?_ (fun _ s' hs' => hs'.2.2 m hm)
    -- positions of the group are moved, its members stay
    intro ⟨_, assigned⟩ s' ⟨ho, _, htells⟩
    have hcalls : Calls (fun call => ∃ p o, call = .commit k.group k.topic p (o + 1))
        (k.commitAll assigned offsets none : StoreM σ (Option Int)) :=
      k.calls_commitAll assigned offsets none fun p o _ _ => ⟨p, o, rfl⟩
    have hkept : Ensures (k.commitAll assigned offsets none) s' fun _ s'' =>
        m.Tells k.group k.topic s'' := by
      apply (hcalls s').mono
      intro _ s'' hreached
      apply (htells m hm).congr
      refine hreached.roster_eq ho ?_ ?_
      · rintro _ ⟨p, o, rfl⟩
        trivial
      · rintro _ ⟨p, o, rfl⟩
        exact fun hconcerns => hconcerns
    refine hkept.bind (fun rejected _ hs'' => ?_) (fun _ _ hs'' => hs'')
    cases rejected <;> exact hs''
  exact hensures

/-- A heartbeat tells who is in the group behind the act that sends it. -/
theorem Agreed.heard_tells (h : c.Agreed) {a : Act} (hby : a.By (Valid σ)) {group topic : String}
    {m : Membership} (hm : a.heard group topic c = some m) : m.Tells group topic (a.on c).store := by
  cases a with
  | poll i p =>
    unfold Act.heard at hm
    dsimp only at hm
    split at hm
    · cases hm
    · next hturn =>
      obtain ⟨k, hk, rfl, rfl, hbeat⟩ := beat_eq_some hm
      obtain ⟨k', -, -, htells, -⟩ := h.turned hk
      rw [(poll_of_ne hturn).1]
      exact htells m hm
  | commit i offsets =>
    obtain ⟨k, hk, rfl, rfl, hbeat⟩ := beat_eq_some hm
    exact h.commit_tells hk offsets hbeat
  | outside use =>
    cases use with
    | heartbeat g t member timeout =>
      unfold Act.heard at hm
      dsimp only at hm
      split at hm
      · next hplace =>
        obtain ⟨rfl, rfl⟩ := hplace
        have htells := heartbeat_tells c.wall g t member timeout c.store h.orderly hby
        rw [ensures_on] at htells
        cases hresult : (StoreM.on (LogStore.heartbeat c.wall g t member timeout) c.store).1 with
        | error e =>
          rw [hresult] at hm
          cases hm
        | ok m' =>
          rw [hresult] at hm
          obtain rfl := Option.some.inj hm
          rw [store_heartbeat]
          exact ⟨(htells.1 m' hresult).1, (htells.1 m' hresult).2⟩
      · cases hm
    | _ => cases hm
  | _ => cases hm

/-- A record is returned only of the share that the poll has been told of. -/
theorem Agreed.returned_share (h : c.Agreed) {a : Act} {group topic : String}
    (hfits : (roster (a.on c).store group topic).generation ≤ maxWord64) {d : Receipt}
    (hd : d ∈ a.returned group topic c) :
    (∃ k, c.consumer? d.consumer = some k ∧ k.id = d.member) ∧
      ∃ m, d.heard = some m ∧ a.heard group topic c = some m ∧ d.member ∈ m.members ∧
        d.record.partition ∈ m.share d.partitions d.member := by
  cases a with
  | poll i p =>
    unfold Act.returned at hd
    dsimp only at hd
    split at hd
    · cases hd
    · next k hk =>
      split at hd
      · next hplace =>
        obtain ⟨rfl, rfl⟩ := hplace
        obtain ⟨r, hr, rfl⟩ := List.mem_map.mp hd
        refine ⟨⟨k, hk, rfl⟩, ?_⟩
        by_cases hseen : p.seen = some (c.signalsOf i)
        · rw [handed_of_seen hseen] at hr
          cases hr
        · obtain ⟨hon, hhanded⟩ := poll_of_ne hseen
          rw [hhanded] at hr
          rw [hon] at hfits
          obtain ⟨k', -, -, -, hturned⟩ := h.turned hk
          obtain ⟨m, hbeat, hmem, hshare⟩ := (hturned hfits).2 r hr
          have hheard : (Act.poll i p).heard k.group k.topic c = some m := by
            unfold Act.heard
            dsimp only
            rw [if_neg hseen, hbeat]
          exact ⟨m, hheard, hheard, hmem, hshare⟩
      · cases hd
  | _ => cases hd

/-! ## Along what happens -/

variable {group topic : String}

theorem Agreed.after (h : c.Agreed) {acts : List Act} (hacts : ∀ a ∈ acts, a.By (Valid σ))
    (group topic : String) : (c.after acts).Agreed ∧
      (roster c.store group topic).Later (roster (c.after acts).store group topic) := by
  induction acts generalizing c with
  | nil => exact ⟨h, .refl _⟩
  | cons a rest ih =>
    obtain ⟨hby, hrest⟩ := List.forall_mem_cons.mp hacts
    obtain ⟨hagreed, hlater⟩ := ih (h.on hby) hrest
    exact ⟨hagreed, (h.roster_later hby group topic).2.trans hlater⟩

theorem Agreed.rosters_later (h : c.Agreed) {acts : List Act}
    (hacts : ∀ a ∈ acts, a.By (Valid σ)) : (rosters group topic acts c).Pairwise Membership.Later ∧
      ∀ m ∈ rosters group topic acts c, (roster c.store group topic).Later m := by
  induction acts generalizing c with
  | nil =>
    refine ⟨List.pairwise_singleton _ _, fun m hm => ?_⟩
    rw [List.mem_singleton.mp hm]
    exact .refl _
  | cons a rest ih =>
    obtain ⟨hby, hrest⟩ := List.forall_mem_cons.mp hacts
    obtain ⟨hpairwise, hlater⟩ := ih (h.on hby) hrest
    have hstep := (h.roster_later hby group topic).2
    refine ⟨List.pairwise_cons.mpr ⟨fun m hm => hstep.trans (hlater m hm), hpairwise⟩,
      fun m hm => ?_⟩
    rcases List.mem_cons.mp hm with rfl | hm
    · exact .refl _
    · exact hstep.trans (hlater m hm)

/-- What is heard are the memberships of the group, in ascending order of members. -/
theorem Agreed.heard_later (h : c.Agreed) {acts : List Act} (hacts : ∀ a ∈ acts, a.By (Valid σ))
    (hfits : (roster (c.after acts).store group topic).generation ≤ maxWord64) :
    (heard group topic acts c).Pairwise Membership.Later ∧ ∀ m ∈ heard group topic acts c,
      (roster c.store group topic).Later m ∧ m.members.Pairwise (· < ·) := by
  induction acts generalizing c with
  | nil => exact ⟨List.Pairwise.nil, nofun⟩
  | cons a rest ih =>
    obtain ⟨hby, hrest⟩ := List.forall_mem_cons.mp hacts
    have hagreed := h.on hby
    obtain ⟨hpairwise, hlater⟩ := ih hagreed hrest hfits
    have hstep := (h.roster_later hby group topic).2
    have hfits' := Nat.le_trans (hagreed.after hrest group topic).2.generation_le hfits
    -- what this act hears is the membership that the others begin with
    have hfirst : ∀ m ∈ (a.heard group topic c).toList, m = roster (a.on c).store group topic :=
      fun m hm => (h.heard_tells hby (Option.mem_toList.mp hm)).eq_roster hfits'
    unfold heard
    refine ⟨List.pairwise_append.mpr ⟨?_, hpairwise, fun m hm m' hm' => ?_⟩, fun m hm => ?_⟩
    · cases a.heard group topic c with
      | none => exact List.Pairwise.nil
      | some m => exact List.pairwise_singleton _ _
    · rw [hfirst m hm]
      exact (hlater m' hm').1
    · rcases List.mem_append.mp hm with hm | hm
      · rw [hfirst m hm]
        exact ⟨hstep, ascending_roster _ hagreed.orderly group topic⟩
      · exact ⟨hstep.trans (hlater m hm).1, (hlater m hm).2⟩

theorem Agreed.receipts_share (h : c.Agreed) {acts : List Act} (hacts : ∀ a ∈ acts, a.By (Valid σ))
    (hfits : (roster (c.after acts).store group topic).generation ≤ maxWord64) :
    (∀ d ∈ receipts group topic acts c, ∃ m, Receipt.InShare (c.after acts) d m ∧
        (roster c.store group topic).Later m) ∧
      (receipts group topic acts c).Pairwise fun d d' => d.consumer ≠ d'.consumer →
        d.heard.map (·.generation) = d'.heard.map (·.generation) →
          d.record.partition ≠ d'.record.partition := by
  induction acts generalizing c with
  | nil => exact ⟨nofun, List.Pairwise.nil⟩
  | cons a rest ih =>
    obtain ⟨hby, hrest⟩ := List.forall_mem_cons.mp hacts
    have hagreed := h.on hby
    obtain ⟨hshare, hpairwise⟩ := ih hagreed hrest hfits
    obtain ⟨hend, hlater⟩ := hagreed.after hrest group topic
    have hstep := (h.roster_later hby group topic).2
    have hfits' := Nat.le_trans hlater.generation_le hfits
    -- what this act returns belongs to a share of the membership that the others begin with
    have hfirst : ∀ d ∈ a.returned group topic c,
        Receipt.InShare (c.after (a :: rest)) d (roster (a.on c).store group topic) := by
      intro d hd
      obtain ⟨⟨k, hk, hid⟩, m, hm, hheard, hmember, hpartition⟩ := h.returned_share hfits' hd
      obtain ⟨k', hk', hsame⟩ := consumer?_after h.sound.store hk (a :: rest)
      obtain rfl := (h.heard_tells hby hheard).eq_roster hfits'
      exact ⟨⟨k', hk', hsame.id_eq.trans hid⟩, hm, hmember, hpartition⟩
    unfold receipts
    refine ⟨fun d hd => ?_, List.pairwise_append.mpr ⟨?_, hpairwise, fun d hd d' hd' => ?_⟩⟩
    · rcases List.mem_append.mp hd with hd | hd
      · exact ⟨_, hfirst d hd, hstep⟩
      · obtain ⟨m, hm, hlater'⟩ := hshare d hd
        exact ⟨m, hm, hstep.trans hlater'⟩
    -- one act returns records of one consumer only
    · refine List.pairwise_of_forall_mem_list fun d hd d' hd' hne => ?_
      exact absurd (consumer_of_mem_returned hd hd') hne
    · intro hne hgeneration hpartition
      have hd := hfirst d hd
      obtain ⟨m, hd', hlater'⟩ := hshare d' hd'
      rw [hd.heard, hd'.heard] at hgeneration
      obtain rfl := hlater'.eq_of_generation_eq (Option.some.inj hgeneration).symm
      -- one membership, and two members
      have hmember : d.member ≠ d'.member := by
        obtain ⟨k, hk, hid⟩ := hd.consumer
        obtain ⟨k', hk', hid'⟩ := hd'.consumer
        exact fun heq => hne (hend.sound.id_inj _ _ k k' hk hk' (by rw [hid, hid', heq]))
      exact Membership.not_mem_share hd.member hmember hd.share (hpartition ▸ hd'.share)

/-- Nobody has joined, and the groups of the store are in order. -/
theorem Idle.agreed (h : c.Idle) (ho : Orderly c.store) : c.Agreed where
  orderly := ho
  sound := ⟨h.store, fun i k hk => by simp [consumer?, h.alone] at hk,
    fun i k hk => by simp [consumer?, h.alone] at hk,
    fun i j k k' hk => by simp [consumer?, h.alone] at hk⟩
  valid i k hk := by simp [consumer?, h.alone] at hk
  within i k hk := by simp [consumer?, h.alone] at hk

/-- Members of a group agree on who reads what, whatever they do and whenever, as long as they use
numbers that have been given out. What is assigned to a consumer is its share in the membership it
is told. Generations never go back and grow with every change of the members. As long as they fit
into words, heartbeats of one generation tell the same members, in ascending order; these deal out
the partitions evenly, each to one of them; and what a poll returns belongs to the share that its
last heartbeat has told, so that polls of two consumers within one generation never return records
of one partition. -/
theorem agreement {c₀ : Cluster σ} (h : c₀.Idle) (ho : Orderly c₀.store) {acts : List Act}
    (hacts : ∀ a ∈ acts, a.By (Valid σ)) (group topic : String) :
    (∀ (k : Consumer) (now timeout : Nat) (s : σ),
      Ensures (k.assignment now timeout) s fun result _ => ∀ generation assigned,
        result = .ok (generation, assigned) → ∃ m, k.beat now timeout s = some m ∧
          k.id ∈ m.members ∧ generation = m.generation ∧ assigned = m.share k.partitions k.id) ∧
      (rosters group topic acts c₀).Pairwise Membership.Later ∧
      ((roster (c₀.after acts).store group topic).generation ≤ maxWord64 →
        (heard group topic acts c₀).Pairwise Membership.Later ∧
        (∀ m ∈ heard group topic acts c₀, m.members.Pairwise (· < ·) ∧ ∀ n, m.Deals n) ∧
        (∀ d ∈ receipts group topic acts c₀, ∃ m, Receipt.InShare (c₀.after acts) d m) ∧
        (receipts group topic acts c₀).Pairwise fun d d' => d.consumer ≠ d'.consumer →
          d.heard.map (·.generation) = d'.heard.map (·.generation) →
            d.record.partition ≠ d'.record.partition) := by
  have hagreed := h.agreed ho
  refine ⟨fun k => k.ensures_share, (hagreed.rosters_later hacts).1, fun hfits => ?_⟩
  obtain ⟨hheard, hmembers⟩ := hagreed.heard_later hacts hfits
  obtain ⟨hshare, hapart⟩ := hagreed.receipts_share hacts hfits
  refine ⟨hheard, fun m hm => ?_, fun d hd => ?_, hapart⟩
  · have hascending := (hmembers m hm).2
    exact ⟨hascending, fun n => Membership.deals_of_ascending hascending n⟩
  · obtain ⟨m, hd', -⟩ := hshare d hd
    exact ⟨m, hd'⟩

/-- Two consumers share two partitions, each of which has a record, until the second one leaves. -/
def sharedOut : List Act :=
  let put (p : Int) : Act := .outside (.append "t" p "k" ⟨#[97]⟩)
  [.outside (.createTopic "t" 2), put 0, put 1, .subscribe 0 "g" "t", .subscribe 0 "g" "t",
    .poll 0 atOnce, .poll 0 atOnce, .poll 1 atOnce, .poll 1 atOnce,
    .outside (.leave "g" "t" 2), .outside (.heartbeat "g" "t" 1 30000)]

theorem agreement_sharedOut :
    (receipts "g" "t" sharedOut deserted).map (fun d => (d.consumer, d.record.partition)) =
        [(0, 0), (1, 1)] ∧
      (rosters "g" "t" sharedOut deserted).getLast? = some ⟨3, [1]⟩ ∧
      (heard "g" "t" sharedOut deserted).Pairwise Membership.Later ∧
      ∀ d ∈ receipts "g" "t" sharedOut deserted, ∃ m,
        Receipt.InShare (deserted.after sharedOut) d m := by
  have hreceipts : (receipts "g" "t" sharedOut deserted).map
      (fun d => (d.consumer, d.record.partition)) = [(0, 0), (1, 1)] := by decide +kernel
  have hrosters : (rosters "g" "t" sharedOut deserted).getLast? = some ⟨3, [1]⟩ := by
    decide +kernel
  have hfits : (roster (deserted.after sharedOut).store "g" "t").generation ≤ maxWord64 := by
    decide +kernel
  have hacts : ∀ a ∈ sharedOut, a.By (Valid MemoryLog) := by
    simp [sharedOut, Act.By, Valid]
  have hagreement := agreement idle_deserted MemoryLog.orderly_empty hacts "g" "t"
  obtain ⟨hheard, -, hshare, -⟩ := hagreement.2.2 hfits
  exact ⟨hreceipts, hrosters, hheard, hshare⟩

end Cluster

end WorkQueue
