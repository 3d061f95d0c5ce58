import WorkQueue.Proofs.Queue.Rhythm
import WorkQueue.Proofs.Queue.Staff

/-!
# Runs at work

A run that has been neither canceled nor torn down, and has both its consumers, goes on taking
deliveries: its loops keep time, so nobody tells their consumers that they have left, so the loops do
not stop.

## Main definitions

* `Scene.Live`: a run that is under way
* `Scene.AtWork`: both loops keep time, and deliveries are taken
* `Scene.Present`: a run that is at work, unless it is off or its token has fired
* `Scene.KeepsUp`: deliveries are taken in time

## Main statements

* `Scene.Present.step`: a step of the run
* `Scene.Present.beside`: a step of another run
* `Scene.Present.pass`: time that passes
-/

namespace WorkQueue

open Cluster PatientStore

/-- Is a loop about to hand over a record? -/
def Run.waitsForRoom (r : Run) : Bool :=
  match r.primaryLoop, r.delayedLoop.phase with
  | .pushing _, _ => true
  | _, .releasing _ _ => true
  | _, _ => false

/-- What is taken off a channel leaves it as open as it was. -/
theorem Channel.closed_of_take? {channel channel' : Channel} {d : Delivery}
    (h : channel.take? = some (d, channel')) : channel'.closed = channel.closed := by
  unfold take? at h
  split at h
  · cases h
  · obtain ⟨-, rfl⟩ := Prod.mk.inj (Option.some.inj h)
    rfl

namespace Scene

variable {σ : Type} {s s' : Scene σ} {limit ms : Nat}

/-- The place of a consumer of the run, its number, and the group that it should be in. -/
def seat (s : Scene σ) (source : Source) : Seat where
  place := (s.run.lane source).place
  id := (s.run.lane source).consumer
  group := s.queue.config.groupId
  topic := s.queue.config.topicOf source

/-- Deliveries are taken off the channel. -/
def Taking (s : Scene σ) : Prop :=
  s.run.dequeue = .receiving ∨ ∃ entry, s.run.dequeue = .awaitingPermit entry

theorem Taking.not_off (h : s.Taking) : ¬ s.Off := by
  rcases h with h | ⟨entry, h⟩ <;> simp [Off, h]

/-- The run has begun, is not over, and nobody has canceled it. -/
def Live (s : Scene σ) : Prop := s.run.fired = false ∧ ¬ s.Off

instance : Decidable s.Off :=
  decidable_of_iff (s.run.dequeue = .starting ∨ s.run.ended?.isSome) (by
    unfold Off Run.ended?
    split <;> simp_all)

instance : Decidable s.Live := inferInstanceAs (Decidable (_ ∧ _))

/-- The loops stand where they stood, and deliveries are still taken. -/
structure Continues (s s' : Scene σ) : Prop where
  config_eq : s'.queue.config = s.queue.config
  primary_eq : s'.run.primary = s.run.primary
  delayed_eq : s'.run.delayed = s.run.delayed
  primaryLoop_eq : s'.run.primaryLoop = s.run.primaryLoop
  delayedLoop_eq : s'.run.delayedLoop = s.run.delayedLoop
  closed_eq : s'.run.channel.closed = s.run.channel.closed
  taking : s.Taking → s'.Taking

theorem Continues.trans {s'' : Scene σ} (h : s.Continues s') (h' : s'.Continues s'') :
    s.Continues s'' where
  config_eq := h'.config_eq.trans h.config_eq
  primary_eq := h'.primary_eq.trans h.primary_eq
  delayed_eq := h'.delayed_eq.trans h.delayed_eq
  primaryLoop_eq := h'.primaryLoop_eq.trans h.primaryLoop_eq
  delayedLoop_eq := h'.delayedLoop_eq.trans h.delayedLoop_eq
  closed_eq := h'.closed_eq.trans h.closed_eq
  taking := h'.taking ∘ h.taking

theorem Continues.seat_eq (h : s.Continues s') (source : Source) : s'.seat source = s.seat source := by
  unfold seat
  rw [h.config_eq]
  cases source with
  | primary => simp only [Run.lane, h.primary_eq]
  | delayed => simp only [Run.lane, h.delayed_eq]

theorem continues_accept (s : Scene σ) (d : Delivery) : s.Continues (s.accept d) := by
  unfold accept
  split
  · exact ⟨rfl, rfl, rfl, rfl, rfl, rfl, id⟩
  · exact ⟨rfl, rfl, rfl, rfl, rfl, rfl, fun _ => .inr ⟨_, rfl⟩⟩

variable [LogStore σ]

theorem Worked.continues {jitter : Jitter} {index : Nat} (h : s.Worked jitter index s') :
    s.Continues s' := by
  obtain ⟨fired, permits, tasks, hrun, -⟩ := h.run_keeps
  constructor
  case config_eq => exact h.same.config_eq
  case taking =>
    unfold Taking
    rw [hrun]
    exact id
  all_goals rw [hrun]

variable [PatientStore σ]

/-- The consumer of a loop has been heard of at `time` or later. -/
def HeardSince (s : Scene σ) (source : Source) (time : Nat) : Prop :=
  Heard s.cluster.store s.queue.config.groupId (s.queue.config.topicOf source)
    (s.run.lane source).consumer time

/-- The run is at work: deliveries are taken, and both loops keep time. -/
structure AtWork (limit : Nat) (s : Scene σ) : Prop where
  taking : s.Taking
  opened : s.run.channel.closed = false
  primary_within : s.run.primary.Within limit
  delayed_within : s.run.delayed.Within limit
  primary : s.run.primaryLoop.OnTime limit s.cluster (s.seat .primary)
  delayed : s.run.delayedLoop.OnTime s.run.delayed.errorPause limit s.cluster (s.seat .delayed)

/-- A run is at work, unless it is off or its token has fired. -/
def Present (limit : Nat) (s : Scene σ) : Prop := s.run.fired = true ∨ s.Off ∨ s.AtWork limit

/-- Some milliseconds may pass for a run whose loops wait for room in the channel: until then no
consumer has been silent for longer than `limit`, together with the pause that its loop will make
behind a failed poll. -/
structure KeepsUp (limit ms : Nat) (s : Scene σ) : Prop where
  primary : ∀ r, s.run.primaryLoop = .pushing r → s.HeardSince .primary (s.cluster.now + ms - limit)
  delayed : ∀ batch failure, s.run.delayedLoop.phase = .releasing batch failure →
    s.HeardSince .delayed
      (s.cluster.now + ms + s.run.delayedLoop.phase.rest s.run.delayed.errorPause - limit)

/-- Loops that do not wait for room keep up. -/
theorem keepsUp_of_room (h : s.run.waitsForRoom = false) : s.KeepsUp limit ms := by
  unfold Run.waitsForRoom at h
  constructor
  · intro r hr
    simp [hr] at h
  · intro batch failure hphase
    rw [hphase] at h
    split at h <;> simp_all

namespace AtWork

/-- A run at work goes on, whatever others do. -/
theorem continues (h : s.AtWork limit) (hc : s.cluster.Patient limit) {own : Nat → Prop}
    (hacted : Acted own s.cluster s'.cluster) (hown : ∀ source, ¬ own (s.run.lane source).place)
    (hcontinues : s.Continues s') : s'.AtWork limit where
  taking := hcontinues.taking h.taking
  opened := hcontinues.closed_eq.trans h.opened
  primary_within := hcontinues.primary_eq ▸ h.primary_within
  delayed_within := hcontinues.delayed_eq ▸ h.delayed_within
  primary := by
    rw [hcontinues.primaryLoop_eq, hcontinues.seat_eq]
    exact h.primary.acted hc hacted (hown .primary)
  delayed := by
    rw [hcontinues.delayedLoop_eq, hcontinues.delayed_eq, hcontinues.seat_eq]
    exact h.delayed.acted hc hacted (hown .delayed)

theorem running (h : s.AtWork limit) : s.run.intakeStopped = false := by
  obtain ⟨time, -, -, hloop⟩ := h.primary
  cases hprimary : s.run.primaryLoop with
  | stopped =>
    rw [hprimary] at hloop
    exact hloop.elim
  | _ => simp [Run.intakeStopped, Primary.hasStopped, hprimary]

theorem attends (h : s.AtWork limit) (source : Source) : ∃ time, s.cluster.Attends (s.seat source) time := by
  cases source with
  | primary =>
    obtain ⟨time, hseat, -⟩ := h.primary
    exact ⟨time, hseat⟩
  | delayed =>
    obtain ⟨time, hseat, -⟩ := h.delayed
    exact ⟨time, hseat⟩

/-- Without the token the loop that takes deliveries goes on taking them. -/
theorem dequeue (h : s.AtWork limit) (hc : s.cluster.Patient limit) (hfired : s.run.fired = false)
    (hstep : s.dequeueStep? = some s') : s'.AtWork limit := by
  -- none of its steps concerns the cluster
  have hgoes : ∀ {t : Scene σ}, t.cluster = s.cluster → s.Continues t → t.AtWork limit := by
    intro t hcluster hcontinues
    have hacted : Acted (fun _ => False) s.cluster t.cluster := by
      rw [hcluster]
      exact .refl _
    exact h.continues hc hacted (fun _ => id) hcontinues
  have htaking := h.taking
  unfold dequeueStep? at hstep
  split at hstep
  · next hdequeue => simp [Taking, hdequeue] at htaking
  -- receiving: neither the token nor the loops are a reason to stop
  · rw [hfired, if_neg Bool.false_ne_true] at hstep
    split at hstep
    · next d channel htake =>
      obtain rfl := Option.some.inj hstep
      have htaken : s.Continues { s with run := { s.run with channel } } :=
        ⟨rfl, rfl, rfl, rfl, rfl, Channel.closed_of_take? htake, id⟩
      exact hgoes (cluster_accept _ d).1 (htaken.trans (continues_accept _ d))
    · rw [h.running, if_neg Bool.false_ne_true] at hstep
      cases hstep
  -- awaiting a permit
  · rw [hfired, if_neg Bool.false_ne_true] at hstep
    split at hstep
    · split at hstep
      · obtain rfl := Option.some.inj hstep
        exact hgoes rfl ⟨rfl, rfl, rfl, rfl, rfl, rfl, fun _ => .inl rfl⟩
      · obtain rfl := Option.some.inj hstep
        exact hgoes rfl ⟨rfl, rfl, rfl, rfl, rfl, rfl, fun _ => .inl rfl⟩
    · cases hstep
  · next hdequeue => simp [Taking, hdequeue] at htaking
  · next hdequeue => simp [Taking, hdequeue] at htaking
  · next hdequeue => simp [Taking, hdequeue] at htaking

/-- Nobody has torn the run down, so no consumer has to leave. -/
theorem leaveIfAborted (h : s.AtWork limit) (stopped : Bool) (place : Nat) :
    (s.leaveIfAborted stopped place).AtWork limit := by
  have hgoing : s.run.wasAborted = false := by
    unfold Run.wasAborted
    rcases h.taking with htaking | ⟨entry, htaking⟩
    · rw [htaking]
      rfl
    · rw [htaking]
      rfl
  rw [leaveIfAborted_eq hgoing]
  exact h

theorem primaryStep (h : s.AtWork limit) (hc : s.cluster.Patient limit) (hfired : s.run.fired = false)
    (hstep : s.primaryStep? = some s') : s'.AtWork limit := by
  obtain ⟨⟨loop, feed⟩, hloop, rfl⟩ := Option.map_eq_some_iff.mp hstep
  -- to the other loop this is a poll of somebody else
  have hacted : Acted (fun _ => False) s.cluster feed.cluster :=
    acted_intake (Primary.move_of_step? hloop).2
  rw [hfired] at hloop
  obtain ⟨hprimary, hopen⟩ := h.primary.does (f := ⟨s.cluster, s.run.channel⟩) hc h.primary_within rfl
    h.opened (Primary.does_of_step? hloop)
  have hdelayed := h.delayed.acted hc hacted id
  apply leaveIfAborted
  exact ⟨h.taking, hopen, h.primary_within, h.delayed_within, hprimary, hdelayed⟩

theorem delayedStep (h : s.AtWork limit) (hc : s.cluster.Patient limit) (hfired : s.run.fired = false)
    (hstep : s.delayedStep? = some s') : s'.AtWork limit := by
  obtain ⟨⟨loop, feed⟩, hloop, rfl⟩ := Option.map_eq_some_iff.mp hstep
  -- so it is for the primary loop
  have hacted : Acted (fun _ => False) s.cluster feed.cluster :=
    acted_intake (Delayed.move_of_step? hloop).2
  rw [hfired] at hloop
  obtain ⟨hdelayed, hopen⟩ := h.delayed.does (f := ⟨s.cluster, s.run.channel⟩) hc h.delayed_within rfl
    h.opened (Delayed.does_of_step? hloop)
  have hprimary := h.primary.acted hc hacted id
  apply leaveIfAborted
  exact ⟨h.taking, hopen, h.primary_within, h.delayed_within, hprimary, hdelayed⟩

/-- A run at work stays so as long as its token has not fired. -/
theorem step (h : s.AtWork limit) (hc : s.cluster.Patient limit) (hfired : s.run.fired = false)
    {jitter : Jitter} {p : Process} (hstep : s.step? jitter p = some s') : s'.AtWork limit := by
  cases p with
  | dequeue => exact h.dequeue hc hfired hstep
  | primary => exact h.primaryStep hc hfired hstep
  | delayed => exact h.delayedStep hc hfired hstep
  | task index =>
    have hworked := worked_of_step? hstep
    have hacted : Acted (fun _ => False) s.cluster s'.cluster := hworked.acted
    exact h.continues hc hacted (fun _ => id) hworked.continues

/-- Time passes in which the loops wait, up to the moment at which one goes on by itself. -/
theorem pass (h : s.AtWork limit) (hfired : s.run.fired = false)
    (hprimary : s.primaryStep? = none) (hdelayed : s.delayedStep? = none)
    (hdues : ∀ due ∈ s.dues, s.cluster.now < due → s.cluster.now + ms ≤ due)
    (hkeeps : s.KeepsUp limit ms) : { s with cluster := (Act.pass ms ms).on s.cluster }.AtWork limit := by
  unfold primaryStep? at hprimary
  unfold delayedStep? at hdelayed
  rw [hfired] at hprimary hdelayed
  constructor
  case primary =>
    refine h.primary.pass (s := s.run.primary) rfl h.opened (Option.map_eq_none_iff.mp hprimary) ?_
      hkeeps.primary
    intro due hdue
    apply hdues
    simp [dues, hdue]
  case delayed =>
    refine h.delayed.pass h.delayed_within rfl h.opened (Option.map_eq_none_iff.mp hdelayed) ?_
      hkeeps.delayed
    intro due hdue
    apply hdues
    simp [dues, hdue]
  case taking => exact h.taking
  case opened => exact h.opened
  case primary_within => exact h.primary_within
  case delayed_within => exact h.delayed_within

end AtWork

/-! ## Beginning -/

namespace Joined

/-- Both consumers have just been heard of. -/
theorem attends (h : s.Joined s') (hc : s.cluster.Patient limit) (source : Source) :
    s'.cluster.Attends (s'.seat source) s'.cluster.now := by
  obtain ⟨c, hon, hon'⟩ := h.joined
  have hfirst : Acted (fun _ => False) s.cluster c := by
    have hacted := acted_subscribe s.queue.broker s.queue.config.groupId
      s.queue.config.primaryTopic s.cluster fun _ => False
    rw [hon] at hacted
    exact hacted
  have hsecond : Acted (fun _ => False) c s'.cluster := by
    have hacted := acted_subscribe s.queue.broker s.queue.config.groupId
      s.queue.config.delayedTopic c fun _ => False
    rw [hon'] at hacted
    exact hacted
  have hc' := hfirst.patient hc
  have hnow : c.now = s.cluster.now := hfirst.pace.now_eq
  have hnow' : s'.cluster.now = c.now := hsecond.pace.now_eq
  unfold seat
  rw [h.queue_eq]
  cases source with
  | primary =>
    obtain ⟨-, k, -, -, hattends⟩ := attends_subscribe hc hon
    -- the second one joins beside the first one
    have hstays : s'.cluster.Attends ⟨s'.run.primary.place, k.id, s.queue.config.groupId,
        s.queue.config.primaryTopic⟩ s.cluster.now := by
      apply hsecond.attends hc' ?_ id hattends
      unfold InTime
      omega
    obtain ⟨k', hk', -, -, -, hid⟩ := hstays.1
    have hconsumer : s'.run.primary.consumer = k.id := by
      rw [h.primary_eq, hk']
      exact hid
    simp only [Run.lane, hconsumer]
    rw [hnow', hnow]
    exact hstays
  | delayed =>
    obtain ⟨-, k, hk, -, hattends⟩ := attends_subscribe hc' hon'
    have hconsumer : s'.run.delayed.consumer = k.id := by
      rw [h.delayed_eq, hk]
      rfl
    simp only [Run.lane, hconsumer]
    rw [hnow']
    exact hattends

/-- A run that both consumers have come out of is at work. -/
theorem atWork (h : s.Joined s') (hc : s.cluster.Patient limit)
    (hwithin : s.queue.config.Within limit) : s'.AtWork limit := by
  have hdelayed : s'.run.delayed.Within limit := by
    rw [h.delayed_eq]
    exact hwithin.ofConfig _ _
  constructor
  case taking => exact .inl h.receiving
  case opened => exact h.opened
  case primary_within =>
    rw [h.primary_eq]
    exact hwithin.ofConfig _ _
  case delayed_within => exact hdelayed
  case primary =>
    rw [h.primary_ready]
    exact Primary.OnTime.start (h.attends hc .primary)
  case delayed =>
    rw [h.delayed_starts]
    exact Delayed.OnTime.start (h.attends hc .delayed) hdelayed.period_le

end Joined

/-! ## Whatever happens -/

namespace Present

theorem atWork (h : s.Present limit) (hlive : s.Live) : s.AtWork limit := by
  rcases h with hcanceled | hoff | hwork
  · exact absurd (hcanceled.symm.trans hlive.1) Bool.noConfusion
  · exact absurd hoff hlive.2
  · exact hwork

/-- A step of the run. -/
theorem step (h : s.Present limit) (hc : s.cluster.Patient limit)
    (hwithin : s.queue.config.Within limit) {jitter : Jitter} {p : Process}
    (hstep : s.step? jitter p = some s') : s'.Present limit := by
  rcases h with hcanceled | hoff | hwork
  · exact .inl (fired_step? hstep hcanceled)
  · -- a run that is off begins, or stays off
    rcases stays_step? hstep with hjoined | hstays
    · exact .inr (.inr (hjoined.atWork hc hwithin))
    · exact .inr (.inl (hstays.off hoff))
  · -- a step may see the token that has fired since the last one
    cases hfired : s.run.fired with
    | true => exact .inl (fired_step? hstep hfired)
    | false => exact .inr (.inr (hwork.step hc hfired hstep))

/-- Others do something, and make nobody leave who belongs to the run. -/
theorem beside (h : s.Present limit) (hc : s.cluster.Patient limit) {own : Nat → Prop}
    (hacted : Acted own s.cluster s'.cluster) (hown : ¬ s.Off → ∀ source, ¬ own (s.run.lane source).place)
    (hrun : s'.run = s.run) (hconfig : s'.queue.config = s.queue.config) : s'.Present limit := by
  unfold Present Off
  rw [hrun]
  rcases h with hcanceled | hoff | hwork
  · exact .inl hcanceled
  · exact .inr (.inl hoff)
  · have hcontinues : s.Continues s' := by
      constructor
      case config_eq => exact hconfig
      case taking =>
        unfold Taking
        rw [hrun]
        exact id
      all_goals rw [hrun]
    exact .inr (.inr (hwork.continues hc hacted (hown hwork.taking.not_off) hcontinues))

/-- Time passes in which the loops wait. -/
theorem pass (h : s.Present limit) (hprimary : s.primaryStep? = none) (hdelayed : s.delayedStep? = none)
    (hdues : ∀ due ∈ s.dues, s.cluster.now < due → s.cluster.now + ms ≤ due)
    (hkeeps : s.Live → s.KeepsUp limit ms) :
    { s with cluster := (Act.pass ms ms).on s.cluster }.Present limit := by
  rcases h with hcanceled | hoff | hwork
  · exact .inl hcanceled
  · exact .inr (.inl hoff)
  · cases hfired : s.run.fired with
    | true => exact .inl hfired
    | false =>
      exact .inr (.inr (hwork.pass hfired hprimary hdelayed hdues (hkeeps ⟨hfired, hwork.taking.not_off⟩)))

end Present

end Scene

end WorkQueue
