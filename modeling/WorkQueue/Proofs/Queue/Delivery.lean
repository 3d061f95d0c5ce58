import WorkQueue.Proofs.Queue.Processes
import WorkQueue.Proofs.Store.Instances
import WorkQueue.Queue.System

/-!
# At least once

Any number of queues of one group work side by side. Their processes take steps in any order, runs
begin, are canceled or torn down, a queue may lose all it has in memory at any moment, and others
use the store in any way except that they do not commit for the group. Whatever happens, the group's
position in a partition never gets ahead of a record that no execution has brought to an end: a
record that is lost on its way is in front of the position, and is read again.

What executions come to is kept beside the system, since a queue may forget it before anybody has
asked.

## Main definitions

* `Event`, `Chronicle`, `Chronicle.after`: what happens, and what came of it
* `System.Apart`: no consumer belongs to two runs
* `Chronicle.Sound`: the invariant

## Main statements

* `Chronicle.Sound.next`: whatever happens keeps the invariant
* `Chronicle.resolved_of_lt_position`: nothing in front of a position is unresolved
-/

namespace WorkQueue

open StoreView

/-! ## Parts of a system -/

/-- A run that has not begun has no consumers. -/
theorem Run.not_owns_unused (place : Nat) : ¬ Run.Owns {} place := by
  rintro ⟨source, hused, -⟩
  cases source <;> exact hused rfl

namespace System

variable {σ : Type} {sys : System σ} {s s' : Scene σ} {q i : Nat}

theorem scene?_eq_some_iff : sys.scene? q i = some s ↔
    ∃ slot r, sys.slots[q]? = some slot ∧ slot.runs[i]? = some r ∧
      s = ⟨sys.cluster, slot.queue, r⟩ := by
  unfold scene?
  constructor
  · intro h
    split at h
    · cases h
    · next slot hslot =>
      split at h
      · cases h
      · next r hr => exact ⟨slot, r, hslot, hr, (Option.some.inj h).symm⟩
  · rintro ⟨slot, r, hslot, hr, rfl⟩
    simp only [hslot, hr]

theorem cluster_of_scene? (hs : sys.scene? q i = some s) : s.cluster = sys.cluster := by
  obtain ⟨slot, r, -, -, rfl⟩ := scene?_eq_some_iff.mp hs
  rfl

/-- The scenes of a system after one of them has been put back. -/
theorem scene?_restore_cases (hs : sys.scene? q i = some s) {q' i' : Nat} {t' : Scene σ}
    (ht' : (sys.restore q i s').scene? q' i' = some t') :
    (q', i') = (q, i) ∧ t' = s' ∨
      (q', i') ≠ (q, i) ∧ ∃ t, sys.scene? q' i' = some t ∧ t'.run = t.run ∧
        t'.cluster = s'.cluster ∧
        (q' = q ∧ t.queue = s.queue ∧ t'.queue = s'.queue ∨ q' ≠ q ∧ t'.queue = t.queue) := by
  obtain ⟨slot, r, hslot, hr, rfl⟩ := scene?_eq_some_iff.mp hs
  obtain ⟨slot', r', hslot', hr', rfl⟩ := scene?_eq_some_iff.mp ht'
  simp only [restore, Array.getElem?_modify] at hslot'
  -- the same queue or another one, and then the same run or another one
  split at hslot'
  · next hq =>
    subst hq
    rw [hslot] at hslot'
    obtain rfl := Option.some.inj hslot'
    simp only [Array.getElem?_setIfInBounds] at hr'
    split at hr'
    · next hi =>
      subst hi
      have hlt : i < slot.runs.size := (Array.getElem?_eq_some_iff.mp hr).1
      rw [if_pos hlt] at hr'
      obtain rfl := Option.some.inj hr'
      exact .inl ⟨rfl, rfl⟩
    · next hi =>
      refine .inr ⟨fun heq => hi (Prod.mk.inj heq).2.symm, _,
        scene?_eq_some_iff.mpr ⟨slot, r', hslot, hr', rfl⟩, rfl, rfl, .inl ⟨rfl, rfl, rfl⟩⟩
  · next hq =>
    refine .inr ⟨fun heq => hq (Prod.mk.inj heq).1.symm, _,
      scene?_eq_some_iff.mpr ⟨slot', r', hslot', hr', rfl⟩, rfl, rfl, .inr ⟨Ne.symm hq, rfl⟩⟩

/-- Starting adds a run to a queue. -/
theorem slot_of_start {q' : Nat} {slot' : Slot} (h : (sys.start q).slots[q']? = some slot') :
    ∃ slot, sys.slots[q']? = some slot ∧ slot'.queue = slot.queue ∧
      ∀ (i : Nat) (r : Run), slot'.runs[i]? = some r →
        slot.runs[i]? = some r ∨ slot.runs[i]? = none ∧ r = {} := by
  simp only [start, Array.getElem?_modify] at h
  split at h
  · obtain ⟨slot, hslot, rfl⟩ := Option.map_eq_some_iff.mp h
    refine ⟨slot, hslot, rfl, fun i r hr => ?_⟩
    rw [Array.getElem?_push] at hr
    split at hr
    · next hi =>
      rw [hi]
      exact .inr ⟨Array.getElem?_size, (Option.some.inj hr).symm⟩
    · exact .inl hr
  · exact ⟨slot', h, rfl, fun i r hr => .inl hr⟩

/-- The scenes of a system after a run has been started. -/
theorem scene?_start_cases {q' : Nat} (hs : (sys.start q).scene? q' i = some s) :
    sys.scene? q' i = some s ∨ sys.scene? q' i = none ∧ s.run = {} := by
  obtain ⟨slot', r, hslot', hr, rfl⟩ := scene?_eq_some_iff.mp hs
  obtain ⟨slot, hold, hqueue, hruns⟩ := slot_of_start hslot'
  rcases hruns i r hr with hr' | ⟨hnone, hnew⟩
  · exact .inl (scene?_eq_some_iff.mpr ⟨slot, r, hold, hr', by rw [hqueue]; rfl⟩)
  · refine .inr ⟨?_, hnew⟩
    simp only [scene?, hold, hnone]

/-- No consumer belongs to two runs. -/
def Apart (sys : System σ) : Prop :=
  ∀ q i s q' i' s', sys.scene? q i = some s → sys.scene? q' i' = some s' →
    (q, i) ≠ (q', i') → ∀ place, s.run.Owns place → ¬ s'.run.Owns place

/-- A run goes on with its consumers, and with new ones, which stand behind all others. -/
theorem Apart.restore (h : sys.Apart)
    (hinside : ∀ q i s, sys.scene? q i = some s → ∀ place, s.run.Owns place →
      place < sys.cluster.consumers.size)
    (hs : sys.scene? q i = some s)
    (howns : ∀ place, s'.run.Owns place → s.run.Owns place ∨ sys.cluster.consumers.size ≤ place) :
    (sys.restore q i s').Apart := by
  have hbeside : ∀ {q' i' t place}, sys.scene? q' i' = some t → (q', i') ≠ (q, i) →
      s'.run.Owns place → ¬ t.run.Owns place := by
    intro q' i' t place ht hne hgone hother
    rcases howns place hgone with hold | hbehind
    · exact h q' i' t q i s ht hs hne place hother hold
    · exact absurd (hinside q' i' t ht place hother) (Nat.not_lt.mpr hbehind)
  intro q₁ i₁ t₁ q₂ i₂ t₂ ht₁ ht₂ hne place howns₁ howns₂
  -- at most one of the two is the run that has gone on
  rcases scene?_restore_cases hs ht₁ with ⟨heq₁, rfl⟩ | ⟨hne₁, u₁, hu₁, hrun₁, -⟩ <;>
    rcases scene?_restore_cases hs ht₂ with ⟨heq₂, rfl⟩ | ⟨hne₂, u₂, hu₂, hrun₂, -⟩
  · exact hne (heq₁.trans heq₂.symm)
  · rw [hrun₂] at howns₂
    exact hbeside hu₂ hne₂ howns₁ howns₂
  · rw [hrun₁] at howns₁
    exact hbeside hu₁ hne₁ howns₂ howns₁
  · rw [hrun₁] at howns₁
    rw [hrun₂] at howns₂
    exact h q₁ i₁ u₁ q₂ i₂ u₂ hu₁ hu₂ hne place howns₁ howns₂

/-- Every run is one of before, or has not begun. -/
theorem Apart.of_runs {sys' : System σ} (h : sys.Apart)
    (hruns : ∀ q i t, sys'.scene? q i = some t →
      (∃ s, sys.scene? q i = some s ∧ t.run = s.run) ∨ t.run = {}) : sys'.Apart := by
  intro q₁ i₁ t₁ q₂ i₂ t₂ ht₁ ht₂ hne place howns₁ howns₂
  rcases hruns q₁ i₁ t₁ ht₁ with ⟨u₁, hu₁, hrun₁⟩ | hnew₁
  · rcases hruns q₂ i₂ t₂ ht₂ with ⟨u₂, hu₂, hrun₂⟩ | hnew₂
    · rw [hrun₁] at howns₁
      rw [hrun₂] at howns₂
      exact h q₁ i₁ u₁ q₂ i₂ u₂ hu₁ hu₂ hne place howns₁ howns₂
    · rw [hnew₂] at howns₂
      exact Run.not_owns_unused place howns₂
  · rw [hnew₁] at howns₁
    exact Run.not_owns_unused place howns₁

end System

/-- The consumers of a run are there. -/
theorem Run.Sound.lt_of_owns {σ : Type} {group : String} {w : World σ} {r : Run}
    (h : r.Sound group w) {place : Nat} (howns : r.Owns place) : place < w.cluster.consumers.size := by
  obtain ⟨source, hused, rfl⟩ := howns
  rcases h.lane source with ⟨hzero, -⟩ | ⟨-, k, hk, -⟩
  · exact absurd hzero hused
  · exact (Array.getElem?_eq_some_iff.mp hk).1

/-- A run that has not begun relies on nothing. -/
theorem Run.sound_unused {σ : Type} (group : String) (w : World σ) : Run.Sound group w {} where
  lane source := by
    cases source <;> exact .inl ⟨rfl, rfl⟩
  apart hused := absurd rfl hused
  sender _ hd := by cases hd
  drained _ := rfl
  closed := by rintro (hend | hend) <;> cases hend
  task _ ht := by cases ht

/-! ## What happens -/

section

variable {σ : Type} [LogStore σ]

/-- Commits for the group are up to its queues. -/
def Use.Spares (group : String) : Use → Prop
  | .commit other _ _ _ => other ≠ group
  | _ => True

/-- Something that happens: a move of the system, or a queue loses all it has in memory. -/
inductive Event (σ : Type) where
  | move (move : System.Move σ)
  | crash (queue : Nat)

/-- Others use the store in the ways known, and leave the positions of the group alone. -/
def Event.Spares (group : String) : Event σ → Prop
  | .move (.outside operation) => ∃ use : Use, use.Spares group ∧ operation = use.operation
  | _ => True

/-- A queue starts over. Its consumers are left to expire. -/
def System.crash (sys : System σ) (queue : Nat) : System σ :=
  { sys with slots := sys.slots.modify queue fun slot =>
    { queue := { slot.queue with ledger := {}, counters := [] } } }

/-- The outcome that a move brings about. -/
def System.resolved (sys : System σ) : Move σ → List Resolution
  | .step p =>
    match sys.scene? p.queue p.run with
    | some s => s.resolved sys.jitter p.process
    | none => []
  | _ => []

/-- A system, and what executions have come to so far. -/
structure Chronicle (σ : Type) where
  system : System σ
  outcomes : List Resolution := []

namespace Chronicle

/-- What is behind an event. A move that is not possible changes nothing. -/
def next (c : Chronicle σ) : Event σ → Chronicle σ
  | .move m =>
    match c.system.move? m with
    | some system => { system, outcomes := c.outcomes ++ c.system.resolved m }
    | none => c
  | .crash queue => { c with system := c.system.crash queue }

/-- What is behind a number of events. -/
def after (c : Chronicle σ) (events : List (Event σ)) : Chronicle σ := events.foldl next c

variable [LawfulStore σ]

/-- Queues of a group that have done nothing yet, over a store for which the group has never
committed. -/
structure Begins (group : String) (c : Chronicle σ) : Prop where
  store : StoreView.Sound c.system.cluster.store
  uncommitted : ∀ topic p, position c.system.cluster.store group topic p = none
  alone : c.system.cluster.consumers = #[]
  slot : ∀ (q : Nat) (slot : Slot), c.system.slots[q]? = some slot →
    slot.queue.config.groupId = group ∧ slot.queue.ledger = {} ∧ slot.runs = #[]

/-- What holds at any moment. -/
structure Sound (group : String) (c : Chronicle σ) : Prop where
  settled : World.Settled group c.system.cluster c.outcomes
  slot : ∀ (q : Nat) (slot : Slot), c.system.slots[q]? = some slot →
    slot.queue.config.groupId = group ∧
      World.Sound group ⟨c.system.cluster, slot.queue.ledger, c.outcomes⟩
  run : ∀ q i s, c.system.scene? q i = some s → s.run.Sound group (s.world c.outcomes)
  /-- No consumer belongs to two runs. -/
  apart : ∀ q i s q' i' s', c.system.scene? q i = some s → c.system.scene? q' i' = some s' →
    (q, i) ≠ (q', i') → ∀ place, s.run.Owns place → ¬ s'.run.Owns place

end Chronicle

/-! ## Who owns which consumer -/

variable [LawfulStore σ] {group : String} {outcomes outcomes' : List Resolution} {s s' : Scene σ}

/-- A run keeps its consumers, or gets new ones. -/
theorem Scene.Goes.owns (h : Scene.Goes group outcomes outcomes' s s') {place : Nat}
    (howns : s'.run.Owns place) : s.run.Owns place ∨ s.cluster.consumers.size ≤ place := by
  obtain ⟨source, hused, rfl⟩ := howns
  rcases h.lane source with ⟨hconsumer, hplace⟩ | hnew
  · exact .inl ⟨source, hconsumer ▸ hused, hplace.symm⟩
  · exact .inr hnew

namespace Chronicle.Sound

variable {c : Chronicle σ} {q i : Nat}

/-! ## Single scenes -/

theorem scene (h : c.Sound group) (hs : c.system.scene? q i = some s) :
    s.Sound group c.outcomes := by
  have hrun := h.run q i s hs
  obtain ⟨slot, r, hslot, -, rfl⟩ := System.scene?_eq_some_iff.mp hs
  obtain ⟨hgroup, hworld⟩ := h.slot q slot hslot
  exact ⟨hgroup, hworld, hrun⟩

/-- What a ledger beside the run sees of a step: others keep what they can rely on. -/
theorem beside (hs : c.system.scene? q i = some s)
    (hgoes : s.Goes group c.outcomes outcomes' s') {l : Ledger}
    (hl : World.Sound group ⟨c.system.cluster, l, c.outcomes⟩) :
    World.Sound group ⟨s'.cluster, l, outcomes'⟩ ∧
      World.Advances s.run.Owns ⟨c.system.cluster, l, c.outcomes⟩ ⟨s'.cluster, l, outcomes'⟩ := by
  rw [← System.cluster_of_scene? hs] at hl ⊢
  exact hl.beside hgoes.advances hgoes.sound.world.settled

/-- Another run stays sound, be it one of the same queue or not. -/
theorem run_restore (h : c.Sound group) (hs : c.system.scene? q i = some s)
    (hgoes : s.Goes group c.outcomes outcomes' s') {q' i' : Nat} {t' : Scene σ}
    (ht' : (c.system.restore q i s').scene? q' i' = some t') :
    t'.run.Sound group (t'.world outcomes') := by
  rcases System.scene?_restore_cases hs ht' with
    ⟨-, rfl⟩ | ⟨hne, t, ht, hrun, hcluster', hqueue⟩
  · exact hgoes.sound.run
  have hold := h.run q' i' t ht
  have hown : t.run.channel.closed = false → ∀ place, t.run.Owns place → ¬ s.run.Owns place :=
    fun _ => h.apart q' i' t q i s ht hs hne
  have hcluster := System.cluster_of_scene? hs
  rw [hrun]
  rcases hqueue with ⟨rfl, hqueue, hqueue'⟩ | ⟨hq, hqueue⟩
  -- another run of the same queue sees the world that the step has left
  · have hworld : t.world c.outcomes = s.world c.outcomes := by
      rw [Scene.world, Scene.world, System.cluster_of_scene? ht, hcluster, hqueue]
    have hworld' : t'.world outcomes' = s'.world outcomes' := by
      rw [Scene.world, Scene.world, hcluster', hqueue']
    rw [hworld']
    rw [hworld] at hold
    exact hold.mono hgoes.advances hown
  -- a run of another queue has a ledger of its own
  · obtain ⟨slot, r, hslot, -, rfl⟩ := System.scene?_eq_some_iff.mp ht
    have hworld' : t'.world outcomes' = ⟨s'.cluster, slot.queue.ledger, outcomes'⟩ := by
      rw [Scene.world, hcluster', hqueue]
    rw [hworld']
    exact hold.mono (beside hs hgoes (h.slot q' slot hslot).2).2 hown

/-- A run goes on. Nobody else is concerned. -/
theorem restore (h : c.Sound group) (hs : c.system.scene? q i = some s)
    (hgoes : s.Goes group c.outcomes outcomes' s') :
    Chronicle.Sound group ⟨c.system.restore q i s', outcomes'⟩ := by
  constructor
  · exact hgoes.sound.world.settled
  · intro q' slot' hslot'
    simp only [System.restore, Array.getElem?_modify] at hslot'
    split at hslot'
    · obtain ⟨-, -, rfl⟩ := Option.map_eq_some_iff.mp hslot'
      exact ⟨hgoes.sound.group_eq, hgoes.sound.world⟩
    · obtain ⟨hgroup, hworld⟩ := h.slot q' slot' hslot'
      exact ⟨hgroup, (beside hs hgoes hworld).1⟩
  · exact fun q' i' t' ht' => h.run_restore hs hgoes ht'
  · refine System.Apart.restore h.apart (fun q' i' t ht place howns => ?_) hs fun place howns => ?_
    · rw [← System.cluster_of_scene? ht]
      exact (h.run q' i' t ht).lt_of_owns howns
    · rw [← System.cluster_of_scene? hs]
      exact hgoes.owns howns

/-- The latest run of a queue changes. -/
theorem onLatest (h : c.Sound group) (q : Nat) {change : Scene σ → Scene σ}
    (hchange : ∀ s : Scene σ, s.Sound group c.outcomes →
      s.GoesOn group c.outcomes c.outcomes (change s)) :
    Chronicle.Sound group ⟨c.system.onLatest q change, c.outcomes⟩ := by
  unfold System.onLatest
  split
  · exact h
  · next i _ =>
    split
    · exact h
    · next s hs => exact h.restore hs (hchange s (h.scene hs)).goes

/-! ## The whole system -/

/-- The cluster changes, and no queue has a part in it. -/
theorem cluster (h : c.Sound group) {cluster : Cluster σ}
    (hadvances : World.Advances (fun _ => False) ⟨c.system.cluster, {}, c.outcomes⟩
      ⟨cluster, {}, c.outcomes⟩)
    (hsettled : World.Settled group cluster c.outcomes) :
    Chronicle.Sound group ⟨{ c.system with cluster }, c.outcomes⟩ := by
  have hscene : ∀ q i (t : Scene σ), System.scene? { c.system with cluster } q i = some t →
      ∃ slot, c.system.slots[q]? = some slot ∧ t.queue = slot.queue ∧ t.cluster = cluster ∧
        c.system.scene? q i = some { t with cluster := c.system.cluster } := by
    intro q i t ht
    obtain ⟨slot, r, hslot, hr, rfl⟩ := System.scene?_eq_some_iff.mp ht
    exact ⟨slot, hslot, rfl, rfl, System.scene?_eq_some_iff.mpr ⟨slot, r, hslot, hr, rfl⟩⟩
  constructor
  · exact hsettled
  · intro q slot hslot
    obtain ⟨hgroup, hworld⟩ := h.slot q slot hslot
    exact ⟨hgroup, (hworld.beside hadvances hsettled).1⟩
  · intro q i t ht
    obtain ⟨slot, hslot, hqueue, rfl, hold⟩ := hscene q i t ht
    have hworld := (h.slot q slot hslot).2
    have hcarried := (hworld.beside hadvances hsettled).2
    have hrun := h.run q i _ hold
    unfold Scene.world at hrun ⊢
    rw [hqueue] at hrun ⊢
    exact hrun.mono hcarried fun _ _ _ => id
  · refine System.Apart.of_runs h.apart fun q i t ht => ?_
    obtain ⟨-, -, -, -, hold⟩ := hscene q i t ht
    exact .inl ⟨_, hold, rfl⟩

/-- The cluster goes on without a commit, and nobody reads. -/
theorem steady (h : c.Sound group) {cluster : Cluster σ}
    (hc : Cluster.Steady (fun _ => False) c.system.cluster cluster) :
    Chronicle.Sound group ⟨{ c.system with cluster }, c.outcomes⟩ := by
  obtain ⟨hworld, hadvances⟩ := (World.Sound.empty h.settled).steady hc
  exact h.cluster hadvances hworld.settled

/-- Queues change between runs: every run is one of before, or has not begun. -/
theorem slots (h : c.Sound group) {slots : Array Slot}
    (hslot : ∀ (q : Nat) (slot : Slot), slots[q]? = some slot →
      slot.queue.config.groupId = group ∧
        World.Sound group ⟨c.system.cluster, slot.queue.ledger, c.outcomes⟩)
    (hscene : ∀ q i t, System.scene? { c.system with slots } q i = some t →
      c.system.scene? q i = some t ∨ c.system.scene? q i = none ∧ t.run = {}) :
    Chronicle.Sound group ⟨{ c.system with slots }, c.outcomes⟩ := by
  constructor
  · exact h.settled
  · exact hslot
  · intro q i t ht
    rcases hscene q i t ht with hold | ⟨-, hnew⟩
    · exact h.run q i t hold
    · rw [hnew]
      exact Run.sound_unused _ _
  · refine System.Apart.of_runs h.apart fun q i t ht => ?_
    exact (hscene q i t ht).imp (fun hold => ⟨t, hold, rfl⟩) And.right

/-- A run is started. -/
theorem start (h : c.Sound group) (q : Nat) :
    Chronicle.Sound group ⟨c.system.start q, c.outcomes⟩ := by
  apply h.slots
  · intro q' slot' hslot'
    obtain ⟨slot, hold, hqueue, -⟩ := System.slot_of_start hslot'
    rw [hqueue]
    exact h.slot q' slot hold
  · exact fun q' i t => System.scene?_start_cases

/-- A queue loses what it had in memory: the lanes of its runs are gone, and its ledger is empty. -/
theorem crash (h : c.Sound group) (q : Nat) :
    Chronicle.Sound group ⟨c.system.crash q, c.outcomes⟩ := by
  apply h.slots
  · intro q' slot' hslot'
    simp only [Array.getElem?_modify] at hslot'
    split at hslot'
    · obtain ⟨slot, hold, rfl⟩ := Option.map_eq_some_iff.mp hslot'
      exact ⟨(h.slot q' slot hold).1, .empty h.settled⟩
    · exact h.slot q' slot' hslot'
  · intro q' i t ht
    obtain ⟨slot', r, hslot', hr, rfl⟩ := System.scene?_eq_some_iff.mp ht
    simp only [Array.getElem?_modify] at hslot'
    split at hslot'
    -- the queue that was lost has no runs
    · obtain ⟨slot, -, rfl⟩ := Option.map_eq_some_iff.mp hslot'
      cases hr
    · exact .inl (System.scene?_eq_some_iff.mpr ⟨slot', r, hslot', hr, rfl⟩)

end Chronicle.Sound

/-! ## What others do -/

namespace Chronicle.Sound

variable {c : Chronicle σ}

/-- A commit for another group. -/
theorem commit (h : c.Sound group) {other topic : String} {p n : Int} (hother : other ≠ group) :
    Chronicle.Sound group ⟨(c.system.onCluster (Use.operation (.commit other topic p n))).2,
      c.outcomes⟩ := by
  have hstore := h.settled.cluster.store
  have hcommit := LawfulStore.commit_advances other topic p n c.system.cluster.store hstore
  rw [ensures_on] at hcommit
  obtain ⟨hsound, hissued, hposition⟩ := hcommit
  have hcluster := h.settled.cluster
  apply h.cluster
  · apply World.Advances.of_members
    · exact fun _ _ hk => hk
    · exact fun _ hr => hr
    · exact fun _ _ _ _ _ _ hcover => hcover
    · exact fun _ e he => ⟨e, he, rfl⟩
  · refine ⟨⟨hsound, hcluster.id_pos, ?_, hcluster.id_inj⟩, fun topic' p' n' hn' => ?_⟩
    · exact fun i k hk => Nat.le_trans (hcluster.id_le i k hk) hissued
    · apply h.settled.positions topic' p' n'
      -- the position of the group is what it was
      have hsame : position (StoreM.on (LogStore.commit other topic p n)
          c.system.cluster.store).2 group topic' p' =
          position c.system.cluster.store group topic' p' := by
        split at hposition
        · rw [hposition]
          exact if_neg fun heq => hother heq.1.symm
        · rw [hposition]
      exact hsame ▸ hn'

/-- Whatever others do, as long as they spare the group. -/
theorem outside (h : c.Sound group) {use : Use} (hspares : use.Spares group) :
    Chronicle.Sound group ⟨(c.system.onCluster use.operation).2, c.outcomes⟩ := by
  -- only a commit moves positions, and it is for another group
  by_cases hcommit : ∃ other topic p n, use = .commit other topic p n
  · obtain ⟨other, topic, p, n, rfl⟩ := hcommit
    exact h.commit hspares
  · exact h.steady (use.steady h.settled.cluster.store fun other topic p n heq =>
      hcommit ⟨other, topic, p, n, heq⟩)

/-! ## All events -/

/-- Whatever happens, the invariant is kept. -/
theorem next (h : c.Sound group) {e : Event σ} (hspares : e.Spares group) :
    Chronicle.Sound group (c.next e) := by
  have hstore := h.settled.cluster.store
  cases e with
  | crash q => exact h.crash q
  | move m =>
    unfold Chronicle.next
    cases m with
    | step p =>
      simp only [System.move?, System.step?, System.resolved]
      cases hs : c.system.scene? p.queue p.run with
      | none => exact h
      | some s =>
        dsimp only
        cases hstep : s.step? c.system.jitter p.process with
        | none => exact h
        | some s' => exact h.restore hs ((h.scene hs).step? hstep)
    | pass timers memberships =>
      -- clocks move, and nothing that the invariant speaks of
      simp only [System.move?, System.resolved, List.append_nil]
      exact h.steady ⟨.refl hstore, rfl, fun _ k hk => ⟨k, hk, .refl k, fun _ => rfl⟩⟩
    | start q =>
      simp only [System.move?, System.resolved, List.append_nil]
      exact h.start q
    | cancel q =>
      simp only [System.move?, System.resolved, List.append_nil]
      exact h.onLatest q fun _ hs => hs.cancel
    | abort q =>
      simp only [System.move?, System.resolved, List.append_nil]
      exact h.onLatest q fun _ hs => hs.abort
    | outside operation =>
      obtain ⟨use, huse, rfl⟩ := hspares
      simp only [System.move?, System.resolved, List.append_nil]
      exact h.outside huse

/-- The invariant holds behind any number of events. -/
theorem after (h : c.Sound group) {events : List (Event σ)}
    (hspares : ∀ e ∈ events, e.Spares group) : Chronicle.Sound group (c.after events) := by
  induction events generalizing c with
  | nil => exact h
  | cons e rest ih =>
    have hnext := h.next (hspares e List.mem_cons_self)
    exact ih hnext fun e' he' => hspares e' (List.mem_cons_of_mem _ he')

end Chronicle.Sound

/-! ## At least once -/

namespace Chronicle

theorem Begins.sound {c : Chronicle σ} (h : c.Begins group) : c.Sound group := by
  have hnobody : ∀ i k, c.system.cluster.consumer? i ≠ some k := by
    intro i k hk
    simp [Cluster.consumer?, h.alone] at hk
  have hsettled : World.Settled group c.system.cluster c.outcomes := by
    refine ⟨⟨h.store, ?_, ?_, ?_⟩, fun topic p n hn => ?_⟩
    · exact fun i k hk => absurd hk (hnobody i k)
    · exact fun i k hk => absurd hk (hnobody i k)
    · exact fun i _ k _ hk => absurd hk (hnobody i k)
    · rw [h.uncommitted] at hn
      cases hn
  have hscene : ∀ q i s, c.system.scene? q i ≠ some s := by
    intro q i s hs
    obtain ⟨slot, r, hslot, hr, -⟩ := System.scene?_eq_some_iff.mp hs
    rw [(h.slot q slot hslot).2.2] at hr
    cases hr
  refine ⟨hsettled, fun q slot hslot => ?_, ?_, ?_⟩
  · obtain ⟨hgroup, hledger, -⟩ := h.slot q slot hslot
    rw [hledger]
    exact ⟨hgroup, .empty hsettled⟩
  · exact fun q i s hs => absurd hs (hscene q i s)
  · exact fun q i s _ _ _ hs => absurd hs (hscene q i s)

/-- At least once: whatever has happened to the queues of a group, every record in front of the
group's position has been brought to an end by an execution, as a success, a failure that was
published again, or skipped. -/
theorem resolved_of_lt_position {c : Chronicle σ} (h : c.Begins group) {events : List (Event σ)}
    (hspares : ∀ e ∈ events, e.Spares group) {topic : String} {p n o : Int}
    (hn : position (c.after events).system.cluster.store group topic p = some n)
    (hnonneg : 0 ≤ o) (hlt : o < n) :
    ∃ r ∈ (c.after events).outcomes, r.topic = topic ∧ r.partition = p ∧ r.offset = o ∧
      (r.state = .success ∨ r.state = .skipped ∨ r.state = .failure) := by
  have hsound := h.sound.after hspares
  obtain ⟨r, hr, htopic, hpartition, hoffset, hstate⟩ :=
    (hsound.settled.positions topic p n hn).2 o hnonneg hlt
  refine ⟨r, hr, htopic, hpartition, hoffset, ?_⟩
  cases hr' : r.state <;> simp [hr', EntryState.isCommittable] at hstate ⊢

/-- A queue of two topics with one partition each. -/
def solo : Chronicle MemoryLog where
  system := {
    cluster := { store := {}, brokers := #[{ defaultPartitions := 1 }] }
    slots := #[{ queue := {
      broker := 0
      config := { groupId := "g", primaryTopic := "t", delayedTopic := "d" } } }] }

/-- A record that nobody can read is skipped and committed, and then the queue is lost. -/
def skipping : List (Event MemoryLog) :=
  let step (process : Scene.Process) : Event MemoryLog := .move (.step ⟨0, 0, process⟩)
  [.move (.outside (Use.operation (.send 0 "t" "k" ByteArray.empty))), .move (.start 0),
    step .dequeue, step .primary, step .primary, step .primary, step .primary, step .dequeue,
    step .dequeue, step (.task 0), step (.task 0), step (.task 0), .crash 0]

theorem begins_solo : solo.Begins "g" where
  store := trivial
  uncommitted _ _ := rfl
  alone := rfl
  slot q slot hslot := by
    cases q with
    | zero =>
      obtain rfl := Option.some.inj hslot
      exact ⟨rfl, rfl, rfl⟩
    | succ q => simp [solo] at hslot

theorem resolved_behind_crash :
    position (solo.after skipping).system.cluster.store "g" "t" 0 = some 1 ∧
      ∃ r ∈ (solo.after skipping).outcomes, r.topic = "t" ∧ r.partition = 0 ∧ r.offset = 0 ∧
        (r.state = .success ∨ r.state = .skipped ∨ r.state = .failure) := by
  have hspares : ∀ e ∈ skipping, e.Spares "g" := by
    have hsend : Event.Spares "g" (.move (.outside
        (Use.operation (.send 0 "t" "k" ByteArray.empty)) : System.Move MemoryLog)) :=
      ⟨.send 0 "t" "k" ByteArray.empty, trivial, rfl⟩
    simpa [skipping, Event.Spares] using hsend
  have hposition : position (solo.after skipping).system.cluster.store "g" "t" 0 = some 1 := by
    decide +kernel
  exact ⟨hposition, resolved_of_lt_position begins_solo hspares hposition (by decide) (by decide)⟩

end Chronicle

end

end WorkQueue
