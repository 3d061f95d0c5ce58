import WorkQueue.Proofs.Queue.Delivery
import WorkQueue.Proofs.Queue.Presence

/-!
# Membership

Any number of queues work side by side, and none of their processes stalls: time passes by one clock,
and only while all of them wait. A queue whose waits are configured to be no longer than the brokers'
patience stays a member of its groups, as long as its loops do not wait for room in the channel for
longer than that. With longer waits it does not, since nothing but its polls and commits sends
heartbeats.

## Main definitions

* `System.after`: what is behind a number of moves
* `System.Unstalled`, `System.KeepsUp`, `Move.Spares`: what may happen
* `System.Attended`: the invariant

## Main statements

* `System.Attended.after`: whatever happens keeps the invariant
* `System.member_of_live`: the consumers of a run that is under way are members of their groups
* `System.lapses_between_ticks`, `System.lapses_in_front_of_full_channel`: they are not if ticks are
  further apart than the brokers wait, or if a loop waits for room for longer than that
-/

namespace WorkQueue

open Cluster GroupStore DependableStore PatientStore

namespace System

variable {σ : Type}

/-! ## Moves -/

section

variable [LogStore σ]

/-- The system behind a move. A move that is not possible changes nothing. -/
def next (sys : System σ) (m : Move σ) : System σ := (sys.move? m).getD sys

/-- The system behind a number of moves. -/
def after (sys : System σ) (moves : List (Move σ)) : System σ := moves.foldl next sys

/-- What holds of each of a number of moves, and of the system in front of it. -/
def Along (holds : System σ → Move σ → Prop) : System σ → List (Move σ) → Prop
  | _, [] => True
  | sys, m :: rest => holds sys m ∧ Along holds (sys.next m) rest

/-- What holds if time passes, so and so much of it for the timers and for the memberships. -/
def Move.Passes (holds : Nat → Nat → Prop) : Move σ → Prop
  | .pass timers memberships => holds timers memberships
  | _ => True

/-- No process stalls: time passes by one clock, while all processes wait, and not past the next
moment at which one of them goes on by itself. -/
def Unstalled (sys : System σ) (m : Move σ) : Prop :=
  m.Passes fun timers memberships => memberships = timers ∧ sys.ready? = none ∧
    ∀ due ∈ sys.nextDue?, sys.cluster.now + timers ≤ due

/-- While time passes, no run waits for room for too long. -/
def KeepsUp [PatientStore σ] (limit : Nat) (sys : System σ) (m : Move σ) : Prop :=
  m.Passes fun timers _ =>
    ∀ q i s, sys.scene? q i = some s → s.Live → s.KeepsUp limit timers

/-- While time passes, no loop waits for room. -/
def Roomy (sys : System σ) (m : Move σ) : Prop :=
  m.Passes fun _ _ => ∀ slot ∈ sys.slots, ∀ r ∈ slot.runs, r.waitsForRoom = false

/-- Nobody from outside speaks for a member. -/
def Move.Spares : Move σ → Prop
  | .outside operation =>
    ∃ use : Use, (Act.outside use).Of (fun _ => False) ∧ operation = use.operation
  | _ => True

instance decidablePasses (holds : Nat → Nat → Prop) [∀ n n', Decidable (holds n n')] :
    (m : Move σ) → Decidable (m.Passes holds)
  | .pass timers memberships => inferInstanceAs (Decidable (holds timers memberships))
  | .step _ => isTrue trivial
  | .start _ => isTrue trivial
  | .cancel _ => isTrue trivial
  | .abort _ => isTrue trivial
  | .outside _ => isTrue trivial

instance decidableUnstalled (sys : System σ) (m : Move σ) : Decidable (sys.Unstalled m) :=
  inferInstanceAs (Decidable (m.Passes _))

instance decidableRoomy (sys : System σ) (m : Move σ) : Decidable (sys.Roomy m) :=
  inferInstanceAs (Decidable (m.Passes _))

instance decidableAlong (holds : System σ → Move σ → Prop) [∀ sys m, Decidable (holds sys m)] :
    (moves : List (Move σ)) → (sys : System σ) → Decidable (sys.Along holds moves)
  | [], _ => isTrue trivial
  | m :: rest, sys =>
    have : Decidable ((sys.next m).Along holds rest) :=
      decidableAlong holds rest (sys.next m)
    inferInstanceAs (Decidable (holds sys m ∧ (sys.next m).Along holds rest))

/-- What holds of each move goes over to what it implies. -/
theorem Along.mono {holds holds' : System σ → Move σ → Prop} (h : ∀ sys m, holds sys m → holds' sys m)
    {sys : System σ} {moves : List (Move σ)} (hmoves : sys.Along holds moves) :
    sys.Along holds' moves := by
  induction moves generalizing sys with
  | nil => trivial
  | cons m rest ih => exact ⟨h sys m hmoves.1, ih hmoves.2⟩

end

/-! ## Waiting -/

variable [LogStore σ] {sys : System σ} {q i : Nat} {s s' : Scene σ} {limit : Nat}

/-- If nobody can go on, no process of any run can. -/
theorem step?_eq_none (h : sys.ready? = none) (hs : sys.scene? q i = some s) {p : Scene.Process}
    (hp : p ∈ s.processes) : s.step? sys.jitter p = none := by
  obtain ⟨slot, r, hslot, hr, -⟩ := scene?_eq_some_iff.mp hs
  -- every process of a run is among those that are asked for a step
  have hmem : (⟨q, i, p⟩ : ProcessId) ∈ sys.processes := by
    unfold processes processesOf
    simp only [List.mem_flatMap, List.mem_range]
    refine ⟨q, (Array.getElem?_eq_some_iff.mp hslot).1, i, ?_, ?_⟩
    · rw [hslot]
      exact (Array.getElem?_eq_some_iff.mp hr).1
    · rw [hs]
      exact List.mem_map_of_mem hp
  have hwaits := List.find?_eq_none.mp h _ hmem
  simpa [step?, hs] using hwaits

omit [LogStore σ] in
/-- The next moment at which somebody goes on is not behind one at which a run does. -/
theorem le_of_nextDue? {time : Nat} (h : ∀ due ∈ sys.nextDue?, time ≤ due)
    (hs : sys.scene? q i = some s) {due : Nat} (hdue : due ∈ s.dues) (hlt : sys.cluster.now < due) :
    time ≤ due := by
  obtain ⟨slot, r, hslot, hr, rfl⟩ := scene?_eq_some_iff.mp hs
  have hmem : due ∈ (sys.slots.toList.flatMap fun slot => slot.runs.toList.flatMap fun r =>
      Scene.dues ⟨sys.cluster, slot.queue, r⟩).filter (sys.cluster.now < ·) := by
    simp only [List.mem_filter, List.mem_flatMap, Array.mem_toList_iff, decide_eq_true_eq]
    exact ⟨⟨slot, Array.mem_of_getElem? hslot, r, Array.mem_of_getElem? hr, hdue⟩, hlt⟩
  obtain ⟨first, hfirst⟩ := Option.isSome_iff_exists.mp (List.isSome_min?_of_mem hmem)
  exact Nat.le_trans (h first hfirst) ((List.min?_eq_some_iff.mp hfirst).2 due hmem)

variable [PatientStore σ]

/-- Where no loop waits for room, all keep up. -/
theorem Roomy.keepsUp {m : Move σ} (h : sys.Roomy m) : sys.KeepsUp limit m := by
  cases m with
  | pass timers memberships =>
    intro q i s hs _
    obtain ⟨slot, r, hslot, hr, rfl⟩ := scene?_eq_some_iff.mp hs
    apply Scene.keepsUp_of_room
    exact h slot (Array.mem_of_getElem? hslot) r (Array.mem_of_getElem? hr)
  | _ => trivial

/-! ## The invariant -/

/-- What holds at any moment: every run that is under way is at work. -/
structure Attended (limit : Nat) (sys : System σ) : Prop where
  patient : sys.cluster.Patient limit
  within : ∀ (q : Nat) (slot : Slot), sys.slots[q]? = some slot → slot.queue.config.Within limit
  manned : ∀ q i s, sys.scene? q i = some s → s.Manned
  present : ∀ q i s, sys.scene? q i = some s → s.Present limit
  apart : sys.Apart

namespace Attended

theorem config (h : sys.Attended limit) (hs : sys.scene? q i = some s) :
    s.queue.config.Within limit := by
  obtain ⟨slot, r, hslot, -, rfl⟩ := scene?_eq_some_iff.mp hs
  exact h.within q slot hslot

theorem patient_of (h : sys.Attended limit) (hs : sys.scene? q i = some s) :
    s.cluster.Patient limit := by
  rw [cluster_of_scene? hs]
  exact h.patient

/-- Whom a run may close has no place in another one. -/
theorem not_reaches (h : sys.Attended limit) (hs : sys.scene? q i = some s) {q' i' : Nat}
    {t : Scene σ} (ht : sys.scene? q' i' = some t) (hne : (q', i') ≠ (q, i)) {place : Nat}
    (howns : t.run.Owns place) : ¬ s.Reaches place := by
  rintro (hown | hnew)
  · exact h.apart q' i' t q i s ht hs hne place howns hown
  · have hlt := (h.manned q' i' t ht).inside place howns
    rw [cluster_of_scene? ht, ← cluster_of_scene? hs] at hlt
    exact absurd hlt (Nat.not_lt.mpr hnew)

/-- A run goes on. Nobody else is concerned. -/
theorem restore (h : sys.Attended limit) (hs : sys.scene? q i = some s)
    (hacted : Acted s.Reaches s.cluster s'.cluster) (hsame : s.queue.Same s'.queue)
    (hmanned : s'.Manned) (hpresent : s'.Present limit)
    (howns : ∀ place, s'.run.Owns place → s.Reaches place) :
    (sys.restore q i s').Attended limit := by
  constructor
  case patient => exact hacted.patient (h.patient_of hs)
  case within =>
    intro q' slot' hslot'
    simp only [System.restore, Array.getElem?_modify] at hslot'
    split at hslot'
    · obtain ⟨-, -, rfl⟩ := Option.map_eq_some_iff.mp hslot'
      show s'.queue.config.Within limit
      rw [hsame.config_eq]
      exact h.config hs
    · exact h.within q' slot' hslot'
  case manned =>
    intro q' i' t' ht'
    rcases scene?_restore_cases hs ht' with ⟨-, rfl⟩ | ⟨hne, t, ht, hrun, hcluster, -⟩
    · exact hmanned
    · apply (h.manned q' i' t ht).beside hrun
      rw [hcluster, cluster_of_scene? ht, ← cluster_of_scene? hs]
      exact hacted.size_le
  case present =>
    intro q' i' t' ht'
    rcases scene?_restore_cases hs ht' with ⟨-, rfl⟩ | ⟨hne, t, ht, hrun, hcluster, hqueue⟩
    · exact hpresent
    · have hbeside : Acted s.Reaches t.cluster t'.cluster := by
        rw [hcluster, cluster_of_scene? ht, ← cluster_of_scene? hs]
        exact hacted
      refine (h.present q' i' t ht).beside (h.patient_of ht) hbeside ?_ hrun ?_
      · -- a run that is not off has its own consumers, and the step closes none of them
        intro hon source
        exact h.not_reaches hs ht hne ((h.manned q' i' t ht).owns_lane source (.inr hon))
      · rcases hqueue with ⟨-, hbefore, hafter⟩ | ⟨-, hother⟩
        · rw [hafter, hbefore]
          exact hsame.config_eq
        · rw [hother]
  case apart =>
    refine h.apart.restore (fun q' i' t ht place howns => ?_) hs fun place hgone => ?_
    · rw [← cluster_of_scene? ht]
      exact (h.manned q' i' t ht).inside place howns
    · rw [← cluster_of_scene? hs]
      exact howns place hgone

/-- A process takes a step. -/
theorem step (h : sys.Attended limit) (hs : sys.scene? q i = some s)
    {p : Scene.Process} (hstep : s.step? sys.jitter p = some s') :
    (sys.restore q i s').Attended limit := by
  have hmanned := h.manned q i s hs
  have hacted := Scene.acted_step? hmanned hstep
  have hpatient := hacted.patient (h.patient_of hs)
  have hpresent := (h.present q i s hs).step (h.patient_of hs) (h.config hs) hstep
  exact h.restore hs hacted (Scene.same_step? hstep) (hmanned.step hpatient.agreed.sound hstep)
    hpresent fun place => Scene.reaches_of_owns hstep

/-- The latest run of a queue changes. -/
theorem onLatest (h : sys.Attended limit) (q : Nat) {change : Scene σ → Scene σ}
    (hchange : ∀ i s, sys.scene? q i = some s → (sys.restore q i (change s)).Attended limit) :
    (sys.onLatest q change).Attended limit := by
  unfold System.onLatest
  split
  · exact h
  · next i _ =>
    split
    · exact h
    · next s hs => exact hchange i s hs

/-- The latest run of a queue is canceled. -/
theorem cancel (h : sys.Attended limit) (q : Nat) : (sys.cancel q).Attended limit := by
  unfold System.cancel
  refine h.onLatest q ?_
  intro i s hs
  have hmanned := h.manned q i s hs
  have hstays : s.Stays { s with run := { s.run with fired := true } } := by
    refine ⟨fun source => ?_, fun source => ?_, id⟩
    · cases source <;> exact ⟨rfl, rfl⟩
    · cases source <;> exact id
  refine h.restore hs (.refl _) (.refl _) (hmanned.stays hstays (Nat.le_refl _)) (.inl rfl) ?_
  intro place howns
  exact .inl ((hstays.owns_iff place).mp howns)

/-- The latest run of a queue is torn down. -/
theorem abort (h : sys.Attended limit) (q : Nat) : (sys.abort q).Attended limit := by
  unfold System.abort
  refine h.onLatest q ?_
  intro i s hs
  have hmanned := h.manned q i s hs
  have hacted := (Scene.acted_abort hmanned).mono fun place (howns : s.run.Owns place) =>
    (.inl howns : s.Reaches place)
  have hsame : s.queue.Same s.abort.queue := by
    rw [s.queue_abort]
    exact .refl _
  refine h.restore hs hacted hsame hmanned.abort (.inr (.inl s.off_abort)) ?_
  intro place howns
  exact .inl ((s.stays_abort.owns_iff place).mp howns)

/-- A run is started. It has no consumers yet. -/
theorem start (h : sys.Attended limit) (q : Nat) : (sys.start q).Attended limit := by
  constructor
  case patient => exact h.patient
  case within =>
    intro q' slot' hslot'
    obtain ⟨slot, hold, hqueue, -⟩ := slot_of_start hslot'
    rw [hqueue]
    exact h.within q' slot hold
  case manned =>
    intro q' i' t ht
    rcases scene?_start_cases ht with hold | ⟨-, hnew⟩
    · exact h.manned q' i' t hold
    · constructor
      · intro place howns
        rw [hnew] at howns
        exact absurd howns (Run.not_owns_unused place)
      · intro source _
        unfold Scene.Off
        rw [hnew]
        cases source <;> exact ⟨rfl, .inl rfl⟩
  case present =>
    intro q' i' t ht
    rcases scene?_start_cases ht with hold | ⟨-, hnew⟩
    · exact h.present q' i' t hold
    · refine .inr (.inl (.inl ?_))
      rw [hnew]
  case apart =>
    refine h.apart.of_runs fun q' i' t ht => ?_
    exact (scene?_start_cases ht).imp (fun hold => ⟨t, hold, rfl⟩) And.right

/-- The cluster changes, and no run has a part in it. -/
theorem cluster (h : sys.Attended limit) {cluster : Cluster σ} (hpatient : cluster.Patient limit)
    (hsize : sys.cluster.consumers.size ≤ cluster.consumers.size)
    (hpresent : ∀ q i s, sys.scene? q i = some s → { s with cluster }.Present limit) :
    { sys with cluster }.Attended limit := by
  have hscene : ∀ {q i} {t : Scene σ}, { sys with cluster }.scene? q i = some t →
      ∃ s, sys.scene? q i = some s ∧ t = { s with cluster } := by
    intro q i t ht
    obtain ⟨slot, r, hslot, hr, rfl⟩ := scene?_eq_some_iff.mp ht
    exact ⟨_, scene?_eq_some_iff.mpr ⟨slot, r, hslot, hr, rfl⟩, rfl⟩
  constructor
  case patient => exact hpatient
  case within => exact h.within
  case manned =>
    intro q i t ht
    obtain ⟨s, hs, rfl⟩ := hscene ht
    have hrun : ({ s with cluster } : Scene σ).run = s.run := rfl
    apply (h.manned q i s hs).beside hrun
    rw [cluster_of_scene? hs]
    exact hsize
  case present =>
    intro q i t ht
    obtain ⟨s, hs, rfl⟩ := hscene ht
    exact hpresent q i s hs
  case apart =>
    refine h.apart.of_runs fun q i t ht => ?_
    obtain ⟨s, hs, rfl⟩ := hscene ht
    exact .inl ⟨s, hs, rfl⟩

/-- Somebody else uses the cluster. -/
theorem outside (h : sys.Attended limit) {use : Use} (hof : (Act.outside use).Of fun _ => False) :
    (sys.onCluster use.operation).2.Attended limit := by
  have hacted := Acted.single hof sys.cluster
  apply h.cluster (hacted.patient h.patient) hacted.size_le
  intro q i s hs
  have hbeside : Acted (fun _ => False) s.cluster ((Act.outside use).on sys.cluster) := by
    rw [cluster_of_scene? hs]
    exact hacted
  have hrun : ({ s with cluster := (Act.outside use).on sys.cluster } : Scene σ).run = s.run := rfl
  exact (h.present q i s hs).beside (h.patient_of hs) hbeside (fun _ _ => id) hrun rfl

/-- Time passes, and nobody stalls. -/
theorem pass (h : sys.Attended limit) {ms : Nat} (hready : sys.ready? = none)
    (hdue : ∀ due ∈ sys.nextDue?, sys.cluster.now + ms ≤ due)
    (hkeeps : ∀ q i s, sys.scene? q i = some s → s.Live → s.KeepsUp limit ms)
    (htimely : ∀ broker, ((Act.pass ms ms).on sys.cluster).Timely broker) :
    { sys with cluster := (Act.pass ms ms).on sys.cluster }.Attended limit := by
  -- both clocks go on by the same time
  have hclock : sys.cluster.wall + ms = sys.cluster.now + ms := by rw [h.patient.oneClock]
  have hpass : (Act.pass ms ms).By (Valid σ) := trivial
  refine h.cluster ⟨h.patient.agreed.on hpass, h.patient.timeout, htimely, hclock⟩
    (Nat.le_refl _) ?_
  intro q i s hs
  have hcluster := cluster_of_scene? hs
  have hwaits : ∀ p ∈ s.processes, s.step? sys.jitter p = none := fun _ => step?_eq_none hready hs
  have hprimary := hwaits .primary (by simp [Scene.processes])
  have hdelayed := hwaits .delayed (by simp [Scene.processes])
  -- a run goes on by itself no earlier than the first one of all does
  have hdues : ∀ due ∈ s.dues, s.cluster.now < due → s.cluster.now + ms ≤ due := by
    rw [hcluster]
    exact fun due => le_of_nextDue? hdue hs
  have hpresent := (h.present q i s hs).pass hprimary hdelayed hdues (hkeeps q i s hs)
  rw [hcluster] at hpresent
  exact hpresent

/-! ## Any number of moves -/

/-- Whatever happens, the invariant is kept. -/
theorem next (h : sys.Attended limit) {m : Move σ} (hspares : m.Spares) (hunstalled : sys.Unstalled m)
    (hkeeps : sys.KeepsUp limit m) (htimely : ∀ broker, (sys.next m).cluster.Timely broker) :
    (sys.next m).Attended limit := by
  cases m with
  | step p =>
    simp only [System.next, move?, System.step?]
    cases hs : sys.scene? p.queue p.run with
    | none => exact h
    | some s =>
      dsimp only
      cases hstep : s.step? sys.jitter p.process with
      | none => exact h
      | some s' => exact h.step hs hstep
  | pass timers memberships =>
    obtain ⟨rfl, hready, hdue⟩ := hunstalled
    exact h.pass hready hdue hkeeps htimely
  | start q => exact h.start q
  | cancel q => exact h.cancel q
  | abort q => exact h.abort q
  | outside operation =>
    obtain ⟨use, hof, rfl⟩ := hspares
    exact h.outside hof

/-- The invariant holds behind any number of moves. -/
theorem after (h : sys.Attended limit) {moves : List (Move σ)} (hspares : ∀ m ∈ moves, m.Spares)
    (hunstalled : sys.Along Unstalled moves) (hkeeps : sys.Along (KeepsUp limit) moves)
    (htimely : ∀ n broker, (sys.after (moves.take n)).cluster.Timely broker) :
    (sys.after moves).Attended limit := by
  induction moves generalizing sys with
  | nil => exact h
  | cons m rest ih =>
    have hnext := h.next (hspares m List.mem_cons_self) hunstalled.1 hkeeps.1 (htimely 1)
    -- what is behind one move is where the rest begins
    exact ih hnext (fun m' hm' => hspares m' (List.mem_cons_of_mem _ hm')) hunstalled.2 hkeeps.2
      fun n => htimely (n + 1)

end Attended

/-! ## Membership -/

/-- Nothing has happened yet. -/
structure Fresh (sys : System σ) : Prop where
  idle : sys.cluster.Idle
  orderly : Orderly sys.cluster.store
  oneClock : sys.cluster.wall = sys.cluster.now
  unused : ∀ slot ∈ sys.slots, slot.runs = #[]

theorem Fresh.attended (h : sys.Fresh) (htimely : ∀ broker, sys.cluster.Timely broker)
    (hpatient : ∀ broker, limit ≤ (sys.cluster.broker broker).sessionTimeout)
    (hwithin : ∀ slot ∈ sys.slots, slot.queue.config.Within limit) : sys.Attended limit := by
  -- there are no runs of which anything would have to hold
  have hscene : ∀ q i s, sys.scene? q i ≠ some s := by
    intro q i s hs
    obtain ⟨slot, r, hslot, hr, -⟩ := scene?_eq_some_iff.mp hs
    rw [h.unused slot (Array.mem_of_getElem? hslot)] at hr
    cases hr
  constructor
  case patient => exact ⟨h.idle.agreed h.orderly, hpatient, htimely, h.oneClock⟩
  case within => exact fun q slot hslot => hwithin slot (Array.mem_of_getElem? hslot)
  case manned => exact fun q i s hs => absurd hs (hscene q i s)
  case present => exact fun q i s hs => absurd hs (hscene q i s)
  case apart => exact fun q i s _ _ _ hs => absurd hs (hscene q i s)

/-- A queue that is under way keeps its membership. If none of its waits is configured to be longer
than the brokers wait for a heartbeat, no process stalls, and no loop waits longer than that for room
behind a heartbeat of its consumer, then both consumers of a run that has begun and has neither been
canceled nor come to an end are members of their groups at any moment: no heartbeat of anybody
removes them. -/
theorem member_of_live (h : sys.Fresh)
    (hpatient : ∀ broker, limit ≤ (sys.cluster.broker broker).sessionTimeout)
    (hwithin : ∀ slot ∈ sys.slots, slot.queue.config.Within limit)
    {moves : List (Move σ)} (hspares : ∀ m ∈ moves, m.Spares)
    (hunstalled : sys.Along Unstalled moves) (hkeeps : sys.Along (KeepsUp limit) moves)
    (htimely : ∀ n broker, (sys.after (moves.take n)).cluster.Timely broker)
    (hs : (sys.after moves).scene? q i = some s) (hlive : s.Live) (source : Source) :
    (s.run.lane source).consumer ∈
      (roster (sys.after moves).cluster.store s.queue.config.groupId
        (s.queue.config.topicOf source)).members := by
  have hstart := h.attended (htimely 0) hpatient hwithin
  have hattended := hstart.after hspares hunstalled hkeeps htimely
  have hwork := (hattended.present q i s hs).atWork hlive
  obtain ⟨time, hseat⟩ := hwork.attends source
  -- who has been heard of in time has not been removed
  have hmember := hseat.member (hattended.patient_of hs)
  rw [cluster_of_scene? hs] at hmember
  exact hmember

/-! ## Two queues of one group -/

/-- Tasks that take longer than brokers wait by the standard settings. -/
def slow : Handler where
  name := "slow"
  accepts := fun _ => true
  convert := fun payload => .ok ⟨payload, .sleep 40000 (.finish (.returned (.ok ())))⟩

/-- Two queues of one group by the standard settings, but for the periods of their delayed loops. -/
def neighbors (first second : Duration) : System MemoryLog where
  cluster := { store := {}, brokers := #[{}] }
  slots := #[{ queue := { broker := 0, config := { delayedBase := first }, registry := [slow] } },
    { queue := { broker := 0, config := { delayedBase := second }, registry := [slow] } }]

/-- A step of the run of one of them. -/
def stepOf (queue : Nat) (process : Scene.Process) : Move MemoryLog := .step ⟨queue, 0, process⟩

/-- The first queue begins. -/
def firstBegins : List (Move MemoryLog) :=
  [.start 0, stepOf 0 .dequeue, stepOf 0 .primary, stepOf 0 .primary]

/-- The first queue polls the primary topic every second. -/
def firstPolls (seconds : Nat) : List (Move MemoryLog) :=
  (List.replicate seconds (.pass 1000 1000 :: List.replicate 3 (stepOf 0 .primary))).flatten

/-- The second queue begins, and a second later it is about to poll the delayed topic for the first
time. -/
def secondBegins : List (Move MemoryLog) :=
  [.start 1, stepOf 1 .dequeue, stepOf 0 .primary, stepOf 1 .primary, stepOf 1 .primary] ++
    firstPolls 1 ++ List.replicate 3 (stepOf 1 .primary) ++ [stepOf 1 .delayed]

/-- The second queue begins some seconds after the first one. -/
def joinedLater (seconds : Nat) : List (Move MemoryLog) :=
  firstBegins ++ firstPolls seconds ++ secondBegins

theorem fresh_neighbors (first second : Duration) : (neighbors first second).Fresh where
  idle := ⟨trivial, rfl⟩
  orderly := MemoryLog.orderly_empty
  oneClock := rfl
  unused := by simp [neighbors]

theorem standard_neighbors (first second : Duration) (broker : Nat) :
    ((neighbors first second).cluster.broker broker).sessionTimeout = 30000 := by
  cases broker with
  | zero => rfl
  | succ n => simp [neighbors, Cluster.broker]

theorem not_outside_firstPolls (operation : ClusterM MemoryLog Unit) (seconds : Nat) :
    .outside operation ∉ firstPolls seconds := by
  simp [firstPolls, stepOf]

theorem spares_joinedLater (seconds : Nat) :
    ∀ m ∈ joinedLater seconds ++ [stepOf 1 .delayed], m.Spares := by
  intro m hm
  cases m with
  | outside operation =>
    simp [joinedLater, firstBegins, not_outside_firstPolls, secondBegins, stepOf] at hm
  | _ => trivial

/-- The first queue stays in both groups if its ticks are half a minute apart, even if the second one
polls at the last moment. -/
theorem member_of_live_neighbor :
    ∃ s ∈ ((neighbors (.ofSeconds 30) (.ofSeconds 1)).after
        (joinedLater 29 ++ [stepOf 1 .delayed])).scene? 0 0, s.Live ∧
      ∀ source, (s.run.lane source).consumer ∈
        (roster ((neighbors (.ofSeconds 30) (.ofSeconds 1)).after
          (joinedLater 29 ++ [stepOf 1 .delayed])).cluster.store s.queue.config.groupId
          (s.queue.config.topicOf source)).members := by
  have hlive : ∃ s ∈ ((neighbors (.ofSeconds 30) (.ofSeconds 1)).after
      (joinedLater 29 ++ [stepOf 1 .delayed])).scene? 0 0, s.Live := by decide +kernel
  obtain ⟨s, hs, hlive⟩ := hlive
  have hpatient : ∀ broker, 30000 ≤
      ((neighbors (.ofSeconds 30) (.ofSeconds 1)).cluster.broker broker).sessionTimeout := by
    intro broker
    exact Nat.le_of_eq (standard_neighbors _ _ broker).symm
  have hwithin : ∀ slot ∈ (neighbors (.ofSeconds 30) (.ofSeconds 1)).slots,
      slot.queue.config.Within 30000 := by decide +kernel
  have hunstalled : (neighbors (.ofSeconds 30) (.ofSeconds 1)).Along Unstalled
      (joinedLater 29 ++ [stepOf 1 .delayed]) := by decide +kernel
  have hroomy : (neighbors (.ofSeconds 30) (.ofSeconds 1)).Along Roomy
      (joinedLater 29 ++ [stepOf 1 .delayed]) := by decide +kernel
  refine ⟨s, hs, hlive, fun source => ?_⟩
  exact member_of_live (fresh_neighbors _ _) hpatient hwithin (spares_joinedLater 29)
    hunstalled (hroomy.mono fun _ _ => Roomy.keepsUp) (fun _ _ => trivial) hs hlive source

/-- Behind a number of moves a step of another queue removes a consumer of the first queue's run from
its group, although nobody stalls, the configurations are accepted, and all brokers wait for the
standard time. -/
structure Lapses (sys : System MemoryLog) (moves : List (Move MemoryLog)) (p : ProcessId)
    (source : Source) : Prop where
  fresh : sys.Fresh
  standard : ∀ broker, (sys.cluster.broker broker).sessionTimeout = 30000
  accepted : ∀ slot ∈ sys.slots,
    slot.queue.config.validate = .ok () ∧ slot.queue.config.groupId = "tasklog"
  spares : ∀ m ∈ moves ++ [.step p], m.Spares
  unstalled : sys.Along Unstalled (moves ++ [.step p])
  another : p.queue ≠ 0
  removed : ∃ s ∈ (sys.after (moves ++ [.step p])).scene? 0 0, s.Live ∧
    (s.run.lane source).consumer ∈ (roster (sys.after moves).cluster.store
      s.queue.config.groupId (s.queue.config.topicOf source)).members ∧
    (s.run.lane source).consumer ∉ (roster (sys.after (moves ++ [.step p])).cluster.store
      s.queue.config.groupId (s.queue.config.topicOf source)).members

/-- A task is sent to the delayed topic. -/
def retried : Use := .send 0 "tasks-delayed-1" "k" (Envelope.encode ⟨"a", .null, some 1⟩)

/-- The first queue takes the task with its first tick, and executes it. Half a minute later the second
queue begins. -/
def takenByFirst : List (Move MemoryLog) :=
  .outside retried.operation :: (firstBegins ++ firstPolls 60 ++
    List.replicate 5 (stepOf 0 .delayed) ++
    [stepOf 0 .dequeue, stepOf 0 .dequeue, stepOf 0 .delayed, stepOf 0 (.task 0)] ++
    firstPolls 30 ++ secondBegins)

/-- The second queue takes what its first poll finds. -/
def takenBySecond : List (Move MemoryLog) :=
  List.replicate 4 (stepOf 1 .delayed) ++
    [stepOf 1 .dequeue, stepOf 1 .dequeue, stepOf 1 .delayed, stepOf 1 (.task 0)]

/-- The tasks that each queue has taken, by place, and their states. -/
def taken (sys : System MemoryLog) : List (List (String × Int × Int × EntryState)) :=
  sys.slots.toList.map fun slot => slot.queue.ledger.entries.toList.map fun e =>
    (e.record.topic, e.record.partition, e.record.offset, e.state)

theorem spares_takenByFirst : ∀ m ∈ takenByFirst ++ [stepOf 1 .delayed], m.Spares := by
  intro m hm
  rcases List.mem_cons.mp hm with rfl | hlater
  · exact ⟨retried, trivial, rfl⟩
  · cases m with
    | outside operation =>
      simp [firstBegins, not_outside_firstPolls, secondBegins, stepOf] at hlater
    | _ => trivial

/-- By the standard settings ticks are a minute apart, and brokers wait for half of that. A queue that
has taken a task with a tick is removed by the first tick of another one, which takes the task as
well: both execute it, although nothing has failed. -/
theorem lapses_between_ticks :
    Lapses (neighbors (.ofSeconds 60) (.ofSeconds 1)) takenByFirst ⟨1, 0, .delayed⟩ .delayed ∧
      taken ((neighbors (.ofSeconds 60) (.ofSeconds 1)).after (takenByFirst ++ takenBySecond)) =
        [[("tasks-delayed-1", 2, 0, .executing)], [("tasks-delayed-1", 2, 0, .executing)]] := by
  constructor
  case left =>
    exact {
      fresh := fresh_neighbors _ _
      standard := standard_neighbors _ _
      accepted := by decide +kernel
      spares := spares_takenByFirst
      unstalled := by decide +kernel
      another := by decide
      removed := by decide +kernel }
  case right => decide +kernel

/-- Two queues that execute one task at a time, each for longer than the brokers wait. -/
def crowded : System MemoryLog :=
  let config : Config := {
    delayedBase := .ofSeconds 20, maxParallelTasks := 1, intakeCapacity := 1 }
  let queue : Queue := { broker := 0, config, registry := [slow] }
  { cluster := { store := {}, brokers := #[{}] }, slots := #[{ queue }, { queue }] }

/-- There is a task in execution, one that waits for a permit, one in the channel, and one that the
primary loop waits to hand over. The second queue is about to poll for the first time. -/
def crowding : List (Move MemoryLog) :=
  let send : Move MemoryLog :=
    .outside (Use.operation (.send 0 "tasks" "k" (Envelope.encode ⟨"a", .null, none⟩)))
  let primary := stepOf 0 .primary
  let dequeue := stepOf 0 .dequeue
  let delayed := stepOf 0 .delayed
  [send, send, send, send, .start 0, dequeue, primary, primary, primary, primary, dequeue, dequeue,
    primary, primary, primary, dequeue, primary, primary, primary, primary, primary, primary,
    stepOf 0 (.task 0), .pass 20000 20000, delayed, delayed, delayed, .pass 15000 15000,
    .start 1, stepOf 1 .dequeue, stepOf 1 .primary]

/-- While a loop waits for room, its consumer does not poll. -/
theorem lapses_in_front_of_full_channel : Lapses crowded crowding ⟨1, 0, .primary⟩ .primary where
  fresh := ⟨⟨trivial, rfl⟩, MemoryLog.orderly_empty, rfl, by simp [crowded]⟩
  standard broker := by
    cases broker with
    | zero => rfl
    | succ n => simp [crowded, Cluster.broker]
  accepted := by decide +kernel
  spares := by
    have hsend : Move.Spares (.outside (Use.operation
        (.send 0 "tasks" "k" (Envelope.encode ⟨"a", .null, none⟩))) : Move MemoryLog) :=
      ⟨.send 0 "tasks" "k" (Envelope.encode ⟨"a", .null, none⟩), trivial, rfl⟩
    simpa [crowding, stepOf, Move.Spares] using hsend
  unstalled := by decide +kernel
  another := by decide
  removed := by decide +kernel

end System

end WorkQueue
