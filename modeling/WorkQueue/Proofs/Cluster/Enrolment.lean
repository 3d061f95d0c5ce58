import WorkQueue.Proofs.Cluster.Sole
import WorkQueue.Proofs.Consumer.Enrolled

/-!
# Joining, committing and leaving

What becomes of a consumer that is alone in its group and in time, from its subscription until it is
closed: it is a member all the while, and the positions of its group are where its own commits have
put them.

## Main definitions

* `Cluster.Timely`: nobody at a broker is late by a heartbeat of its own

## Main statements

* `Cluster.enrolled_of_subscribe`: who subscribes is a member, and finds the positions as they were
* `Cluster.Sole.minds_poll`, `Cluster.Sole.minds_other`, `Cluster.Sole.enrolled_subscribe`: polls and
  subscriptions leave the positions alone
* `Cluster.Sole.enrolled_commit`: a commit raises them
* `Cluster.Sole.close`: who is closed is no member any more
-/

namespace WorkQueue

open StoreView GroupStore DependableStore

variable {σ : Type} [LogStore σ] [DependableStore σ]

namespace Cluster

/-- Nobody at a broker is late by a heartbeat of its own. -/
def Timely (c : Cluster σ) (broker : Nat) : Prop :=
  DependableStore.Timely σ c.wall (c.broker broker).sessionTimeout

variable {c c' : Cluster σ} {i j : Nat} {k l : Consumer} {start : Int → Option Int}

/-- Who has subscribed is a member, and has committed nothing so far. -/
theorem enrolled_of_subscribe (ho : Orderly c.store) {broker place : Nat} {group topic : String}
    (hon : (subscribe broker group topic).on c = (.ok place, c')) (hk : c'.consumer? place = some k) :
    k.broker = broker ∧ k.closed = false ∧ k.Enrolled (position c.store group topic) c'.store := by
  obtain ⟨s, n, id, hs, hjoin, -, hfound⟩ :=
    subscribed (fun call => Fair σ call ∧ ¬ call.Commits group topic) ⟨trivial, False.elim⟩
      (fun _ => ⟨trivial, False.elim⟩) hon
  obtain rfl := Option.some.inj (hk.symm.trans hfound)
  have ho' := (hs.roster_later ho (fun _ hcall => hcall.1) group topic).1
  have hreached : Ensures (LogStore.join c.wall group topic : StoreM σ Nat) s fun _ s' =>
      Reached (fun call => ¬ call.Commits group topic) s s' := calls_join False.elim s
  have hmember := join_member c.wall group topic s ho'
  rw [ensures_on, hjoin] at hreached hmember
  refine ⟨rfl, rfl, hmember id rfl, fun p => ?_⟩
  exact (hreached.position_eq (sound_of_orderly s ho') (fun _ hcall => hcall) p).trans
    (hs.position_eq (sound_of_orderly c.store ho) (fun _ hcall => hcall.2) p)

namespace Sole

/-- The consumer's own polls. -/
theorem minds_poll (h : c.Sole i k) (htimely : c.Timely k.broker) {p : Polling} {call : StoreCall}
    (hcall : (Act.poll i p).MayCall c call) : k.Minds σ call := by
  obtain ⟨hby, hconcerns⟩ := h.mayCall (.inl ⟨p, rfl⟩) hcall
  refine ⟨hby, ?_, fun hgroup => ⟨_, _, htimely, (hconcerns _ _ hgroup).2.2⟩⟩
  obtain ⟨k', -, rfl | ⟨p, rfl⟩ | ⟨p, start, rfl⟩⟩ := hcall <;> exact id

/-- Polls and commits of a consumer of another topic. -/
theorem minds_other (h : c.Sole j l) (hne : l.topic ≠ k.topic) {a : Act}
    (ha : (∃ p, a = .poll j p) ∨ ∃ offsets, a = .commit j offsets) {call : StoreCall}
    (hcall : a.MayCall c call) : k.Minds σ call := by
  obtain ⟨hby, hconcerns⟩ := h.mayCall ha hcall
  refine ⟨hby, ?_, fun hgroup => absurd (hconcerns _ _ hgroup).2.1.symm hne⟩
  rcases ha with ⟨p, rfl⟩ | ⟨offsets, rfl⟩
  · obtain ⟨l', -, rfl | ⟨p, rfl⟩ | ⟨p, start, rfl⟩⟩ := hcall <;> exact id
  · obtain ⟨l', hl', rfl | ⟨p, o, -, rfl⟩⟩ := hcall
    · exact id
    · obtain rfl := Option.some.inj (hl'.symm.trans h.consumer)
      exact fun heq => hne heq.2

/-- A subscription to another topic. -/
theorem enrolled_subscribe (h : c.Sole i k) (broker : Nat) (group : String) {topic : String}
    (hne : topic ≠ k.topic) (hk : k.Enrolled start c.store) :
    k.Enrolled start ((Cluster.subscribe broker group topic).on c).2.store := by
  have hreached : Reached (k.Minds σ) c.store ((Cluster.subscribe broker group topic).on c).2.store :=
    reached_subscribe broker c ⟨trivial, id, False.elim⟩ (fun _ => ⟨trivial, id, False.elim⟩)
      ⟨trivial, id, fun heq => absurd heq.2 hne⟩
  exact hreached.enrolled h.orderly (fun _ hcall => hcall) hk

/-- A commit raises the positions past the offsets that it names. -/
theorem enrolled_commit (h : c.Sole i k) (hopen : k.closed = false) (htimely : c.Timely k.broker)
    (hk : k.Enrolled start c.store) {offsets : List (Int × Int)}
    (hwhole : ∀ po ∈ offsets, po.1 ∈ k.whole) :
    k.Enrolled (fun p => (Ledger.offsetsAt p offsets).foldl raisedPast (start p))
      ((Cluster.commit i offsets).on c).2.store := by
  have hensures : Ensures (Cluster.commit i offsets) c fun _ c' =>
      k.Enrolled (fun p => (Ledger.offsetsAt p offsets).foldl raisedPast (start p)) c'.store := by
    unfold Cluster.commit
    rw [ensures_bind, ClusterM.ensures_get]
    dsimp only
    rw [h.consumer]
    dsimp only
    rw [ClusterM.ensures_store]
    exact Consumer.ensures_enrolled h.orderly h.valid h.alone hopen hk htimely hwhole
  exact hensures

/-- Who is closed leaves its group. -/
theorem close (h : c.Sole i k) (hopen : k.closed = false) :
    (c.close i).store = StoreCall.on (.leave k.group k.topic k.id) c.store ∧
      k.id ∉ (roster (c.close i).store k.group k.topic).members := by
  have hstore : (c.close i).store = StoreCall.on (.leave k.group k.topic k.id) c.store := by
    unfold Cluster.close
    rw [h.consumer]
    dsimp only
    rw [hopen]
    rfl
  refine ⟨hstore, fun hmem => ?_⟩
  have hleft := leave_members k.group k.topic k.id c.store h.orderly h.valid
  rw [ensures_on] at hleft
  rw [hstore] at hmem
  exact (hleft k.id hmem).1 rfl

end Sole

end Cluster

end WorkQueue
