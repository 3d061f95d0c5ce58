import WorkQueue.Proofs.Cluster.Operations
import WorkQueue.Proofs.Consumer.Resume
import WorkQueue.Proofs.Store.Instances

/-!
# Partitions that change hands

Members join and leave a group, and partitions go from one consumer to another and come back. A
consumer looks at the generations it happens to see: it goes on in each partition that it holds and
is assigned in the new generation, and begins at the group's position in the others. A generation
that it does not see leaves no trace. So a partition that was somebody else's in between is read
from the group's position if the consumer has given it up meanwhile, or is not behind that position;
otherwise records are read again that others have committed.

## Main definitions

* `Act`, `Cluster.after`: what happens to a cluster
* `Cluster.given`, `Cluster.stays`: what a consumer is given of a partition, and whether it stays
  with the generation it has noted
* `Cluster.Linked`: the invariant

## Main statements

* `Cluster.Linked.yields_of_stays`: what is given in one generation
* `Cluster.position_le_offset_iff`: when it lies behind the group's position
-/

namespace WorkQueue

open StoreView

/-! ## What happens to a cluster -/

/-- Something that happens to a cluster. -/
inductive Act where
  | subscribe (broker : Nat) (group topic : String)
  /-- A step of a poll of a consumer. -/
  | poll (consumer : Nat) (polling : Polling)
  | commit (consumer : Nat) (offsets : List (Int × Int))
  | close (consumer : Nat)
  | pass (timers memberships : Nat)
  /-- Somebody else uses the store. -/
  | outside (use : Use)

variable {σ : Type} [LogStore σ]

namespace Act

/-- The cluster behind it. A poll that has to wait changes nothing. -/
def on (a : Act) (c : Cluster σ) : Cluster σ :=
  match a with
  | .subscribe broker group topic => ((Cluster.subscribe broker group topic).on c).2
  | .poll i p =>
    match c.poll? i p with
    | some (_, c) => c
    | none => c
  | .commit i offsets => ((Cluster.commit i offsets).on c).2
  | .close i => c.close i
  | .pass timers memberships =>
    { c with now := c.now + timers, wall := c.wall + memberships }
  | .outside use => (use.operation.on c).2

/-- The step that a poll of consumer `i` takes. -/
def step? (i : Nat) (a : Act) (c : Cluster σ) : Option PollStep :=
  match a with
  | .poll j p => if j = i then (c.poll? j p).map (·.1) else none
  | _ => none

end Act

namespace Cluster

/-- The cluster behind a number of acts. -/
def after (c : Cluster σ) (acts : List Act) : Cluster σ := acts.foldl (fun c a => a.on c) c

/-- The generation that a consumer has noted. -/
def noted (c : Cluster σ) (i : Nat) : Option Nat := (c.consumer? i).bind (·.fetch.generation)

/-- The records of partition `p` that consumer `i` is given, one after the other. -/
def given (i : Nat) (p : Int) : List Act → Cluster σ → List Record
  | [], _ => []
  | a :: rest, c =>
    (((a.step? i c).map PollStep.handed).getD []).filter (·.partition == p) ++
      given i p rest (a.on c)

/-- Consumer `i` stays with the generation it has noted, and none of its polls fails. -/
def stays (i : Nat) : List Act → Cluster σ → Bool
  | [], _ => true
  | a :: rest, c =>
    ((a.step? i c).map PollStep.failed).getD false == false &&
      (a.on c).noted i == c.noted i && stays i rest (a.on c)

/-! ## Single acts -/

variable [LawfulStore σ] {c c' : Cluster σ}

/-- The store is sound, and every consumer holds what belongs together. -/
structure Linked (c : Cluster σ) : Prop where
  store : StoreView.Sound c.store
  fetch : ∀ i k, c.consumer? i = some k → k.fetch.Linked k.topic

/-- Nobody has read anything. Consumers that are new have nothing. -/
structure Still (c c' : Cluster σ) : Prop where
  store : StoreView.Sound c'.store
  same : ∀ i k, c.consumer? i = some k →
    ∃ k', c'.consumer? i = some k' ∧ k.Same k' ∧ k'.fetch = k.fetch
  fresh : ∀ i k', c.consumer? i = none → c'.consumer? i = some k' → k'.fetch = {}

theorem Steady.still (h : Steady (fun _ => False) c c') : Still c c' where
  store := h.store.sound
  same i k hk := by
    obtain ⟨k', hk', hsame, hfetch⟩ := h.same i k hk
    exact ⟨k', hk', hsame, hfetch id⟩
  fresh i k' hnone hk' := by
    obtain ⟨k, hk, -⟩ := h.back hk'
    rw [hk] at hnone
    cases hnone

/-- Only the store has changed. -/
theorem still_of_store {store : σ} (h : StoreView.Sound store) : Still c { c with store } where
  store := h
  same _ k hk := ⟨k, hk, .refl k, rfl⟩
  fresh i k' hnone hk' := by
    have hk : c.consumer? i = some k' := hk'
    rw [hk] at hnone
    cases hnone

theorem still_subscribe (h : StoreView.Sound c.store) (broker : Nat) (group topic : String) :
    Still c ((subscribe broker group topic).on c).2 := by
  rcases subscribe_cases h broker group topic with
    ⟨e, c', hon, hsteady⟩ | ⟨c', id, n, hon, hmoved, -, -, hconsumers⟩
  · rw [hon]
    exact hsteady.still
  · rw [hon]
    constructor
    · exact hmoved.sound
    · exact fun i k hk => ⟨k, consumer?_push_of_some hconsumers hk, .refl k, rfl⟩
    · intro i k' hnone hk'
      rcases consumer?_push_cases hconsumers hk' with hold | ⟨-, rfl⟩
      · rw [hnone] at hold
        cases hold
      · rfl

theorem still_use (h : StoreView.Sound c.store) (use : Use) :
    Still c (use.operation.on c).2 := by
  -- commits move positions, but read for nobody
  by_cases hcommit : ∃ group topic p n, use = .commit group topic p n
  · obtain ⟨group, topic, p, n, rfl⟩ := hcommit
    exact still_of_store (LawfulStore.commit_advances group topic p n c.store h).1
  · refine (use.steady h ?_).still
    exact fun group topic p n heq => hcommit ⟨group, topic, p, n, heq⟩

/-- An act takes a turn of reading for one consumer, or for nobody. -/
theorem on_cases (h : StoreView.Sound c.store) (a : Act) :
    (Still c (a.on c) ∧ ∀ i, ((a.step? i c).map PollStep.handed).getD [] = []) ∨
      ∃ j, a.on c = ((turn j).on c).2 ∧
        (∀ i, i ≠ j → ((a.step? i c).map PollStep.handed).getD [] = []) ∧
        ((a.step? j c).map PollStep.handed).getD [] = Consumer.handed ((turn j).on c).1 ∧
        (((a.step? j c).map PollStep.failed).getD false = false →
          ((turn j).on c).1.isOk = true) := by
  cases a with
  | subscribe broker group topic => exact .inl ⟨still_subscribe h broker group topic, fun _ => rfl⟩
  | commit i offsets =>
    obtain ⟨store, hafter, hsound, -⟩ := commit_steps h i offsets
    refine .inl ⟨?_, fun _ => rfl⟩
    show Still c ((commit i offsets).on c).2
    rw [hafter]
    exact still_of_store hsound
  | close i => exact .inl ⟨(steady_close h i).still, fun _ => rfl⟩
  | pass timers memberships =>
    exact .inl ⟨⟨h, fun _ k hk => ⟨k, hk, .refl k, rfl⟩, fun i k' hnone hk' => by
      have hk : c.consumer? i = some k' := hk'
      rw [hk] at hnone
      cases hnone⟩, fun _ => rfl⟩
  | outside use => exact .inl ⟨still_use h use, fun _ => rfl⟩
  | poll j p =>
    simp only [Act.on, Act.step?]
    -- a poll that waits or runs out of time does nothing; any other takes a turn
    cases hpoll : c.poll? j p with
    | none =>
      refine .inl ⟨(Steady.refl h).still, fun i => ?_⟩
      split <;> rfl
    | some next =>
      obtain ⟨step, c'⟩ := next
      rcases poll?_cases hpoll with ⟨rfl, hhanded⟩ | ⟨rfl, hhanded, hok⟩
      · refine .inl ⟨(Steady.refl h).still, fun i => ?_⟩
        split
        · exact hhanded
        · rfl
      · refine .inr ⟨j, rfl, fun i hi => ?_, ?_, ?_⟩
        · rw [if_neg (Ne.symm hi)]
          rfl
        · rw [if_pos rfl]
          exact hhanded
        · rw [if_pos rfl]
          exact hok

/-- What becomes of a consumer: it takes a turn, or nothing. -/
theorem turned_on (h : StoreView.Sound c.store) (a : Act) {i : Nat} {k : Consumer}
    (hk : c.consumer? i = some k) :
    ∃ k', (a.on c).consumer? i = some k' ∧ k.Same k' ∧
      (k'.fetch = k.fetch ∧ ((a.step? i c).map PollStep.handed).getD [] = [] ∨
        ∃ result, k.Turned (position c.store k.group k.topic) k.fetch result k'.fetch ∧
          ((a.step? i c).map PollStep.handed).getD [] = Consumer.handed result ∧
          (((a.step? i c).map PollStep.failed).getD false = false → result.isOk = true)) := by
  rcases on_cases h a with ⟨hstill, hnothing⟩ | ⟨j, hon, hothers, hhanded, hok⟩
  · obtain ⟨k', hk', hsame, hfetch⟩ := hstill.same i k hk
    exact ⟨k', hk', hsame, .inl ⟨hfetch, hnothing i⟩⟩
  · rw [hon]
    -- the turn is that of the consumer itself, or somebody else's
    by_cases hij : i = j
    · subst hij
      obtain ⟨k', hk', hsame, hturned⟩ := turned_turn h hk
      exact ⟨k', hk', hsame, .inr ⟨_, hturned, hhanded, hok⟩⟩
    · obtain ⟨k', hk', hsame, hfetch⟩ := (steady_turn h j).same i k hk
      exact ⟨k', hk', hsame, .inl ⟨hfetch hij, hothers i hij⟩⟩

theorem Linked.on (h : c.Linked) (a : Act) : (a.on c).Linked := by
  rcases on_cases h.store a with ⟨hstill, -⟩ | ⟨j, hon, -⟩
  · refine ⟨hstill.store, fun i k' hk' => ?_⟩
    cases hk : c.consumer? i with
    | none =>
      rw [hstill.fresh i k' hk hk']
      exact Fetch.linked_empty
    | some k =>
      obtain ⟨k'', hk'', hsame, hfetch⟩ := hstill.same i k hk
      obtain rfl := Option.some.inj (hk''.symm.trans hk')
      rw [hfetch, hsame.topic_eq]
      exact h.fetch i k hk
  · rw [hon]
    have hsteady := steady_turn h.store j
    refine ⟨hsteady.store.sound, fun i k' hk' => ?_⟩
    obtain ⟨k, hk, -⟩ := hsteady.back hk'
    by_cases hij : i = j
    · subst hij
      obtain ⟨k'', hk'', hsame, hturned⟩ := turned_turn h.store hk
      obtain rfl := Option.some.inj (hk''.symm.trans hk')
      rw [hsame.topic_eq]
      exact (Fetch.keeps_linked.turned hturned (h.fetch i k hk)).of_front
    · obtain ⟨k'', hk'', hsame, hfetch⟩ := hsteady.same i k hk
      obtain rfl := Option.some.inj (hk''.symm.trans hk')
      rw [hfetch hij, hsame.topic_eq]
      exact h.fetch i k hk

/-! ## One generation -/

/-- In one generation, a consumer is given what comes next of a partition, without a gap. -/
theorem Linked.yields_of_stays (h : c.Linked) {i : Nat} {k : Consumer}
    (hk : c.consumer? i = some k) (p : Int) {acts : List Act} (hstays : stays i acts c = true) :
    ∃ f, k.fetch.Yields k.topic p (given i p acts c) f := by
  induction acts generalizing c k with
  | nil => exact ⟨k.fetch, Fetch.yields_nil rfl⟩
  | cons a rest ih =>
    simp only [stays, Bool.and_eq_true, beq_iff_eq] at hstays
    obtain ⟨⟨hfailed, hnoted⟩, hrest⟩ := hstays
    obtain ⟨k', hk', hsame, hstep⟩ := turned_on h.store a hk
    obtain ⟨f, hyields⟩ := ih (h.on a) hk' hrest
    rw [hsame.topic_eq] at hyields
    -- what the first act gives goes in front of what the others give
    refine ⟨f, Fetch.Yields.trans ?_ hyields⟩
    rcases hstep with ⟨hfetch, hnothing⟩ | ⟨result, hturned, hhanded, hok⟩
    · rw [hnothing]
      exact Fetch.yields_nil (by rw [hfetch])
    · have hgeneration : k'.fetch.generation = k.fetch.generation := by
        simpa [noted, hk, hk'] using hnoted
      rw [hhanded]
      exact hturned.yields_of_same (h.fetch i k hk) hgeneration (hok hfailed) p

/-! ## From one generation to another -/

/-- Nobody has joined yet. -/
structure Idle (c : Cluster σ) : Prop where
  store : StoreView.Sound c.store
  alone : c.consumers = #[]

theorem Idle.linked_after (h : c.Idle) (acts : List Act) : (c.after acts).Linked := by
  have hstart : c.Linked := ⟨h.store, fun i k hk => by simp [consumer?, h.alone] at hk⟩
  -- only the invariant is kept along the acts, not that nobody has joined
  clear h
  induction acts generalizing c with
  | nil => exact hstart
  | cons a rest ih => exact ih (hstart.on a)

/-- Consumer `i` notes a new generation when the group stands at `stored` in partition `p`. What it
is given of the partition from then on, up to the next generation, goes on where the consumer was if
it held something of the partition, and at `stored` if not. So none of it lies in front of `stored`
exactly if the consumer held nothing, or was not behind. -/
theorem position_le_offset_iff {c₀ : Cluster σ} (h : c₀.Idle) {before : List Act}
    (hc : c₀.after before = c) {i : Nat} {k : Consumer} (hk : c.consumer? i = some k)
    {polling : Polling} {acts : List Act}
    (hnew : ((Act.poll i polling).on c).noted i ≠ c.noted i)
    (hstays : stays i acts ((Act.poll i polling).on c) = true) {p stored : Int}
    (hstored : (position c.store k.group k.topic p).getD 0 = stored) {records : List Record}
    (hrecords : given i p (.poll i polling :: acts) c = records) :
    Consecutive k.topic p ((k.fetch.resume? p).getD (max stored 0)) records ∧
      (records ≠ [] → ((∀ r ∈ records, stored ≤ r.offset) ↔
        ∀ next, k.fetch.resume? p = some next → stored ≤ next)) := by
  have hlinked : c.Linked := hc ▸ h.linked_after before
  obtain ⟨k', hk', hsame, hstep⟩ := turned_on hlinked.store (.poll i polling) hk
  have hgeneration : k'.fetch.generation ≠ k.fetch.generation := by
    simpa [noted, hk, hk'] using hnew
  rcases hstep with ⟨hfetch, -⟩ | ⟨result, hturned, hhanded, -⟩
  · exact absurd (congrArg Fetch.generation hfetch) hgeneration
  -- what is given in front of the next generation, in one piece
  obtain ⟨g, hfirst, hstart⟩ := hturned.yields (hlinked.fetch i k hk) p
  obtain ⟨f, hmore⟩ := (hlinked.on (.poll i polling)).yields_of_stays hk' p hstays
  rw [hsame.topic_eq] at hmore
  have hyields := hfirst.trans hmore
  rw [← hhanded] at hyields
  have hall : g.Yields k.topic p records f := hrecords ▸ hyields
  rw [hstored] at hstart
  generalize hnext : (k.fetch.resume? p).getD (max stored 0) = next at hstart ⊢
  have hconsecutive : Consecutive k.topic p next records := by
    unfold Fetch.Yields at hall
    -- without an offset to go on with, the partition is not assigned and nothing is given
    split at hall
    · next start hresume =>
      rw [← hstart start hresume]
      exact hall.1
    · rw [hall.1]
      trivial
  refine ⟨hconsecutive, fun hne => ?_⟩
  -- the first record decides, and it is the one that the consumer goes on with
  rw [hconsecutive.forall_le_offset_iff hne, ← hnext]
  cases hm : k.fetch.resume? p with
  | none =>
    constructor
    · intro _ m hnone
      cases hnone
    · exact fun _ => Int.le_max_left stored 0
  | some m => simp

/-! ## A generation seen and one not seen -/

/-- A poll that does not wait. -/
def atOnce : Polling := { deadline := 0 }

/-- Nobody has come yet. -/
def deserted : Cluster MemoryLog where
  store := {}
  brokers := #[{}]

theorem idle_deserted : deserted.Idle := ⟨trivial, rfl⟩

/-- Consumer 0 reads the first of three records of partition 1, and consumer 1 joins. -/
def shared : List Act :=
  let put (value : UInt8) : Act := .outside (.append "t" 1 "k" ⟨#[value]⟩)
  [.outside (.createTopic "t" 2), .subscribe 0 "g" "t", put 97, put 98, put 99, .poll 0 atOnce,
    .poll 0 atOnce, .subscribe 0 "g" "t"]

/-- Consumer 1 reads the three records, commits them and leaves. -/
def takenOver : List Act :=
  [.poll 1 atOnce, .poll 1 atOnce, .poll 1 atOnce, .poll 1 atOnce, .commit 1 [(1, 2)], .close 1]

/-- Consumer 0 has seen that the partition went to consumer 1, so it comes back to it at the
position, where the next record arrives. -/
theorem position_le_offset_of_seen :
    let c := deserted.after (shared ++ .poll 0 atOnce :: takenOver ++
      [.outside (.append "t" 1 "k" ⟨#[100]⟩)])
    position c.store "g" "t" 1 = some 3 ∧ given 0 1 [.poll 0 atOnce, .poll 0 atOnce] c ≠ [] ∧
      ∀ r ∈ given 0 1 [.poll 0 atOnce, .poll 0 atOnce] c, 3 ≤ r.offset := by
  intro c
  have hposition : position c.store "g" "t" 1 = some 3 := by decide +kernel
  have hsome : given 0 1 [.poll 0 atOnce, .poll 0 atOnce] c ≠ [] := by
    have hlength : (given 0 1 [.poll 0 atOnce, .poll 0 atOnce] c).length = 1 := by decide +kernel
    exact List.ne_nil_of_length_eq_add_one hlength
  -- the consumer holds nothing of the partition any more
  have hheld : (c.consumer? 0).map (fun k => (k.group, k.topic, k.fetch.resume? 1)) =
      some ("g", "t", none) := by decide +kernel
  obtain ⟨k, hk, heq⟩ := Option.map_eq_some_iff.mp hheld
  obtain ⟨hgroup, hrest⟩ := Prod.mk.inj heq
  obtain ⟨htopic, hresume⟩ := Prod.mk.inj hrest
  have hstored : (position c.store k.group k.topic 1).getD 0 = 3 := by
    rw [hgroup, htopic, hposition]
    rfl
  have hnew : ((Act.poll 0 atOnce).on c).noted 0 ≠ c.noted 0 := by decide +kernel
  have hstays : stays 0 [.poll 0 atOnce] ((Act.poll 0 atOnce).on c) = true := by decide +kernel
  have hexact := position_le_offset_iff idle_deserted rfl hk hnew hstays hstored rfl
  refine ⟨hposition, hsome, (hexact.2 hsome).mpr fun next hnext => ?_⟩
  rw [hresume] at hnext
  cases hnext

/-- Consumer 0 has not seen it. Consumer 1 has had the partition up to the position, but consumer 0
is given a record from in front of it. -/
theorem lt_position_of_unseen :
    let c := deserted.after (shared ++ takenOver)
    (c.noted 0 = some 1 ∧ c.noted 1 = some 2 ∧ ((Act.poll 0 atOnce).on c).noted 0 = some 3) ∧
      (c.consumer? 1).bind (·.fetch.position? 1) = some 3 ∧
      position c.store "g" "t" 1 = some 3 ∧
      ¬ ∀ r ∈ given 0 1 [.poll 0 atOnce] c, 3 ≤ r.offset := by
  decide +kernel

end Cluster

end WorkQueue
