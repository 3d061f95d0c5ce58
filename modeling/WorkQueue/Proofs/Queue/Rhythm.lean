import WorkQueue.Proofs.Cluster.Attendance
import WorkQueue.Proofs.Queue.Acting

/-!
# Loops that keep time

A heartbeat of a consumer is sent when its loop polls, and by nothing else that can be relied on. So
between two polls the loop must not wait longer than the brokers do. It waits for the next tick, for
the next record of a batch, behind a failed poll, or inside a poll, each time for as long as it is
configured to; and it waits for room in the channel, for as long as the executions in front of it
take.

## Main definitions

* `Config.Within`: no configured wait is longer than `limit`
* `Primary.InTime`, `Delayed.InTime`: where a loop stands, the next heartbeat is not far
* `Primary.OnTime`, `Delayed.OnTime`: a loop whose consumer is heard of again and again

## Main statements

* `Primary.OnTime.does`, `Delayed.OnTime.does`: the loop's own steps
* `Primary.OnTime.acted`, `Delayed.OnTime.acted`: what others do
* `Primary.OnTime.pass`, `Delayed.OnTime.pass`: time that passes
-/

namespace WorkQueue

open Cluster PatientStore

/-- No wait of an intake loop is configured to be longer than `limit`. -/
structure IntakeSettings.Within (limit : Nat) (s : IntakeSettings) : Prop where
  pollTimeout_le : s.pollTimeout ≤ limit
  errorPause_le : s.errorPause ≤ limit
  period_le : s.period ≤ limit

/-- No wait of an intake loop is configured to be longer than `limit`. -/
structure Config.Within (limit : Nat) (c : Config) : Prop where
  pollTimeout_le : c.pollTimeout.timerMillis ≤ limit
  errorPause_le : c.errorPause.timerMillis ≤ limit
  delayedBase_le : c.delayedBase.timerMillis ≤ limit

instance (limit : Nat) (c : Config) : Decidable (c.Within limit) :=
  decidable_of_iff (c.pollTimeout.timerMillis ≤ limit ∧ c.errorPause.timerMillis ≤ limit ∧
      c.delayedBase.timerMillis ≤ limit)
    ⟨fun ⟨hpoll, hpause, hbase⟩ => ⟨hpoll, hpause, hbase⟩,
      fun h => ⟨h.pollTimeout_le, h.errorPause_le, h.delayedBase_le⟩⟩

theorem Config.Within.ofConfig {limit : Nat} {c : Config} (h : c.Within limit) (place consumer : Nat) :
    (IntakeSettings.ofConfig c place consumer).Within limit :=
  ⟨h.pollTimeout_le, h.errorPause_le, h.delayedBase_le⟩

/-! ## Where a loop stands -/

/-- The primary loop at time `now` will poll again before `limit` has passed since `time`. -/
def Primary.InTime (limit now time : Nat) : Primary → Prop
  -- it can go on at once, or has to wait for room
  | ready => True
  | pushing _ => True
  -- a poll that waits has been a heartbeat when it began to
  | polling p => p.deadline ≤ now + limit ∧ (p.seen ≠ none → p.deadline ≤ time + limit)
  | pausing wake => wake ≤ time + limit
  | stopped => False

/-- The pause that follows a batch if a poll has failed behind it. -/
def DelayedPhase.rest (errorPause : Nat) : DelayedPhase → Nat
  | releasing _ (some _) => errorPause
  | _ => 0

/-- The delayed loop at time `now` will poll again before `limit` has passed since `time`. -/
def Delayed.InTime (errorPause limit now time : Nat) (d : Delayed) : Prop :=
  match d.phase with
  | .ticking => d.due ≤ time + limit
  -- polls of a batch do not wait
  | .draining _ p => p.seen = none ∧ p.deadline ≤ now ∧ d.due ≤ now + limit
  | .spacing _ _ wake => wake ≤ time + limit ∧ d.due ≤ time + limit
  | .releasing _ failure => failure ≠ some .closed ∧ d.due ≤ time + limit ∧
      now + d.phase.rest errorPause ≤ time + limit
  | .pausing wake => wake ≤ time + limit ∧ d.due ≤ time + limit
  | .stopped => False

variable {σ : Type} [LogStore σ] [PatientStore σ] {c c' : Cluster σ} {seat : Seat}
  {limit ms time : Nat} {s : IntakeSettings} {f f' : Feed σ}

/-- A primary loop whose consumer has been heard of, and will be again in time. -/
def Primary.OnTime (limit : Nat) (c : Cluster σ) (seat : Seat) (loop : Primary) : Prop :=
  ∃ time, c.Attends seat time ∧ c.InTime limit time ∧ loop.InTime limit c.now time

/-- A delayed loop whose consumer has been heard of, and will be again in time. -/
def Delayed.OnTime (errorPause limit : Nat) (c : Cluster σ) (seat : Seat) (loop : Delayed) : Prop :=
  ∃ time, c.Attends seat time ∧ c.InTime limit time ∧ loop.InTime errorPause limit c.now time

/-! ## The primary loop -/

namespace Primary

variable {loop loop' : Primary}

theorem OnTime.acted {own : Nat → Prop} (h : loop.OnTime limit c seat) (hc : c.Patient limit)
    (hacted : Acted own c c') (hown : ¬ own seat.place) : loop.OnTime limit c' seat := by
  obtain ⟨time, hseat, htime, hloop⟩ := h
  refine ⟨time, hacted.attends hc htime hown hseat, htime.pace hacted.pace, ?_⟩
  rw [hacted.pace.now_eq]
  exact hloop

theorem OnTime.start (hseat : c.Attends seat c.now) : ready.OnTime limit c seat :=
  ⟨c.now, hseat, ⟨Nat.le_refl _, Nat.le_add_right _ _⟩, trivial⟩

/-- The loop's own steps, as long as the token has not fired and the receiver is there. -/
theorem OnTime.does (h : loop.OnTime limit f.cluster seat) (hc : f.cluster.Patient limit)
    (hs : s.Within limit) (hplace : s.place = seat.place) (hopen : f.channel.closed = false)
    {deeds : List Deed} (hdoes : Does s false f loop deeds loop' f') :
    loop'.OnTime limit f'.cluster seat ∧ f'.channel.closed = false := by
  obtain ⟨time, hseat, htime, hloop⟩ := h
  have hpoll_le := hs.pollTimeout_le
  have hpause_le := hs.errorPause_le
  cases hdoes with
  | stop hcause => simp [hopen] at hcause
  | start =>
    refine ⟨⟨time, hseat, htime, ?_, fun hseen => absurd rfl hseen⟩, hopen⟩
    show f.cluster.now + s.pollTimeout ≤ _
    omega
  | @pollOn p p' cluster hpoll =>
    rw [hplace] at hpoll
    obtain ⟨hnow, -, time', hseat', htime', hheard | hdone⟩ := hseat.poll_step hc htime hpoll
    · obtain ⟨hdeadline, -⟩ := deadline_of_poll? hpoll
      have hle := hloop.1
      rw [← hdeadline] at hle
      refine ⟨⟨time', hseat', htime', ?_, fun _ => ?_⟩, hopen⟩
      · rw [hnow]
        exact hle
      · rw [hheard]
        exact hle
    · cases hdone
  | @poll p result cluster hpoll =>
    rw [hplace] at hpoll
    obtain ⟨hnow, hopened, time', hseat', htime', hheard⟩ := hseat.poll_step hc htime hpoll
    refine ⟨⟨time', hseat', htime', ?_⟩, hopen⟩
    rcases result with e | _ | r
    · -- a failed poll has been a heartbeat all the same
      rcases hheard with rfl | hdone
      · have hwake : cluster.now + s.errorPause ≤ f.cluster.now + limit := by omega
        cases e with
        | closed => exact absurd rfl hopened
        | _ => exact hwake
      · cases hdone
    · trivial
    · trivial
  | push hfired hopen' hbuffer hclosed => exact ⟨⟨time, hseat, htime, trivial⟩, hclosed⟩
  | lineUp hbuffer hclosed => exact ⟨⟨time, hseat, htime, trivial⟩, hclosed.trans hopen⟩
  | resume hwake => exact ⟨⟨time, hseat, htime, trivial⟩, hopen⟩

/-- Time passes while the loop waits, up to the moment at which it goes on by itself. While it waits
for room its consumer has to be heard of otherwise, by commits. -/
theorem OnTime.pass (h : loop.OnTime limit c seat) (hplace : s.place = seat.place)
    {channel : Channel} (hopen : channel.closed = false)
    (hwaits : loop.step? s false ⟨c, channel⟩ = none)
    (hdue : ∀ due, loop.due? = some due → c.now < due → c.now + ms ≤ due)
    (hroom : ∀ r, loop = .pushing r →
      Heard c.store seat.group seat.topic seat.id (c.now + ms - limit)) :
    loop.OnTime limit ((Act.pass ms ms).on c) seat := by
  obtain ⟨time, hseat, ⟨hle, hwithin⟩, hloop⟩ := h
  cases loop with
  | stopped => exact hloop.elim
  | ready => simp [step?, hopen] at hwaits
  | polling p =>
    simp only [step?, hopen, Bool.or_false, Bool.false_eq_true, if_false, hplace] at hwaits
    split at hwaits
    · next hpoll =>
      obtain ⟨hseen, hlt⟩ := waits_of_poll? hpoll
      have htarget := hdue p.deadline rfl hlt
      have hdeadline := hloop.2 hseen
      refine ⟨time, hseat, ⟨?_, ?_⟩, ?_, hloop.2⟩
      · show time ≤ c.now + ms
        omega
      · show c.now + ms ≤ time + limit
        omega
      · show p.deadline ≤ c.now + ms + limit
        omega
    · cases hwaits
    · cases hwaits
  | pushing r =>
    refine ⟨max time (c.now + ms - limit), hseat.max ⟨hseat.1, hroom r rfl⟩, ⟨?_, ?_⟩, trivial⟩
    · show max time (c.now + ms - limit) ≤ c.now + ms
      omega
    · show c.now + ms ≤ max time (c.now + ms - limit) + limit
      omega
  | pausing wake =>
    have hlt : c.now < wake := by
      simp only [step?, Bool.false_eq_true, if_false] at hwaits
      split at hwaits
      · cases hwaits
      · omega
    have htarget := hdue wake rfl hlt
    have hwake : wake ≤ time + limit := hloop
    refine ⟨time, hseat, ⟨?_, ?_⟩, hwake⟩
    · show time ≤ c.now + ms
      omega
    · show c.now + ms ≤ time + limit
      omega

end Primary

/-! ## The delayed loop -/

namespace Delayed

variable {loop loop' : Delayed} {errorPause : Nat}

theorem OnTime.acted {own : Nat → Prop} (h : loop.OnTime errorPause limit c seat)
    (hc : c.Patient limit) (hacted : Acted own c c') (hown : ¬ own seat.place) :
    loop.OnTime errorPause limit c' seat := by
  obtain ⟨time, hseat, htime, hloop⟩ := h
  refine ⟨time, hacted.attends hc htime hown hseat, htime.pace hacted.pace, ?_⟩
  rw [hacted.pace.now_eq]
  exact hloop

/-- The first tick that counts falls one period from now. -/
theorem OnTime.start (hseat : c.Attends seat c.now) {period : Nat} (hperiod : period ≤ limit) :
    (Delayed.start c.now period).OnTime errorPause limit c seat := by
  refine ⟨c.now, hseat, ⟨Nat.le_refl _, Nat.le_add_right _ _⟩, ?_⟩
  show c.now + period ≤ c.now + limit
  omega

/-- A tick is taken, and the next one is not far. -/
theorem nextTick_le {period due now : Nat} (hdue : due ≤ now) (hperiod : period ≤ limit) :
    nextTick period due now ≤ now + limit := by
  unfold nextTick
  split <;> omega

/-- Where the loop goes from a poll that has been a heartbeat, it keeps time. -/
theorem inTime_afterPoll {period now due : Nat} (batch : List Record)
    {result : Except BrokerError (Option Record)} (hopened : result ≠ .error .closed)
    (hdue : due ≤ now + limit) (hperiod : period ≤ limit) (herror : errorPause ≤ limit) :
    InTime errorPause limit now now ⟨due, afterPoll now period batch result⟩ := by
  rcases result with e | _ | r
  · refine ⟨fun heq => hopened ?_, hdue, ?_⟩
    · exact congrArg Except.error (Option.some.inj heq)
    · show now + errorPause ≤ now + limit
      omega
  · refine ⟨nofun, hdue, ?_⟩
    show now + 0 ≤ now + limit
    omega
  · simp only [afterPoll]
    split
    · exact ⟨rfl, Nat.le_refl _, hdue⟩
    · exact ⟨Nat.add_le_add_left hperiod now, hdue⟩

/-- The loop's own steps, as long as the token has not fired and the receiver is there. -/
theorem OnTime.does {due : Nat} {phase : DelayedPhase}
    (h : Delayed.OnTime s.errorPause limit f.cluster seat ⟨due, phase⟩)
    (hc : f.cluster.Patient limit) (hs : s.Within limit) (hplace : s.place = seat.place)
    (hopen : f.channel.closed = false) {deeds : List Deed}
    (hdoes : Does s false f due phase deeds loop' f') :
    loop'.OnTime s.errorPause limit f'.cluster seat ∧ f'.channel.closed = false := by
  obtain ⟨time, hseat, htime, hloop⟩ := h
  have hnow := htime.1
  cases hdoes with
  | stop hcause => simp [hopen] at hcause
  | tick hdue =>
    exact ⟨⟨time, hseat, htime, rfl, Nat.le_refl _, nextTick_le hdue hs.period_le⟩, hopen⟩
  | @pollOn batch p p' cluster hpoll =>
    obtain ⟨hseen, hdeadline, hsoon⟩ := hloop
    have hdue : due ≤ f.cluster.now + limit := hsoon
    rw [hplace] at hpoll
    obtain ⟨hsame, -, time', hseat', htime', -⟩ := hseat.poll_step hc htime hpoll
    obtain ⟨hdeadline', hwaits⟩ := deadline_of_poll? hpoll
    refine ⟨⟨time', hseat', htime', ?_, ?_, ?_⟩, hopen⟩
    -- the time of the poll is up, so it does not wait
    · exact not_not.mp fun hne => absurd hdeadline (Nat.not_le.mpr (hwaits hne))
    · show p'.deadline ≤ cluster.now
      omega
    · show due ≤ cluster.now + limit
      omega
  | @poll batch p result cluster hpoll =>
    obtain ⟨hseen, hdeadline, hsoon⟩ := hloop
    have hdue : due ≤ f.cluster.now + limit := hsoon
    rw [hplace] at hpoll
    -- a poll that has just begun is a heartbeat
    have hne : p.seen ≠ some (f.cluster.signalsOf seat.place) := by
      rw [hseen]
      exact (Option.some_ne_none _).symm
    obtain ⟨hsame, hopened, -⟩ := hseat.poll_step hc htime hpoll
    obtain ⟨hseat', -⟩ := hseat.poll hc hne hpoll
    refine ⟨⟨f.cluster.now, hseat', ⟨?_, ?_⟩, ?_⟩, hopen⟩
    · show f.cluster.now ≤ cluster.now
      omega
    · show cluster.now ≤ f.cluster.now + limit
      omega
    · rw [← hsame]
      apply inTime_afterPoll batch (fun heq => hopened (congrArg PollStep.done heq)) ?_
        hs.period_le hs.errorPause_le
      show due ≤ cluster.now + limit
      rw [hsame]
      exact hdue
  | rest hwake =>
    have hdue : due ≤ time + limit := hloop.2
    refine ⟨⟨time, hseat, htime, rfl, Nat.le_refl _, ?_⟩, hopen⟩
    show due ≤ f.cluster.now + limit
    omega
  | @push r batch failure channel hfired hopen' hbuffer hclosed =>
    -- whatever is left of the batch, what comes behind it is the same
    obtain ⟨hopened, hdue, hrest⟩ := hloop
    refine ⟨⟨time, hseat, htime, hopened, hdue, ?_⟩, hclosed⟩
    cases failure <;> exact hrest
  | lineUp hbuffer hclosed => exact ⟨⟨time, hseat, htime, hloop⟩, hclosed.trans hopen⟩
  | @released failure =>
    obtain ⟨hopened, hdue, hrest⟩ := hloop
    refine ⟨⟨time, hseat, htime, ?_⟩, hopen⟩
    cases failure with
    | none => exact hdue
    | some e =>
      have hwake : f.cluster.now + s.errorPause ≤ time + limit := hrest
      cases e with
      | closed => exact absurd rfl hopened
      | _ => exact ⟨hwake, hdue⟩
  | resume hwake => exact ⟨⟨time, hseat, htime, hloop.2⟩, hopen⟩

/-- Time passes while the loop waits, up to the moment at which it goes on by itself. While it waits
for room its consumer has to be heard of otherwise, by commits. -/
theorem OnTime.pass (h : loop.OnTime s.errorPause limit c seat) (hs : s.Within limit)
    (hplace : s.place = seat.place) {channel : Channel} (hopen : channel.closed = false)
    (hwaits : loop.step? s false ⟨c, channel⟩ = none)
    (hdue : ∀ due, loop.due? = some due → c.now < due → c.now + ms ≤ due)
    (hroom : ∀ batch failure, loop.phase = .releasing batch failure →
      Heard c.store seat.group seat.topic seat.id
        (c.now + ms + loop.phase.rest s.errorPause - limit)) :
    loop.OnTime s.errorPause limit ((Act.pass ms ms).on c) seat := by
  obtain ⟨time, hseat, ⟨hle, hwithin⟩, hloop⟩ := h
  obtain ⟨due, phase⟩ := loop
  -- a loop that waits for the clock is in time when it goes on
  have hclock : ∀ wake, Delayed.due? ⟨due, phase⟩ = some wake → c.now < wake → wake ≤ time + limit →
      InTime s.errorPause limit (c.now + ms) time ⟨due, phase⟩ →
        OnTime s.errorPause limit ((Act.pass ms ms).on c) seat ⟨due, phase⟩ := by
    intro wake hwake hlt hsoon hnext
    have htarget := hdue wake hwake hlt
    refine ⟨time, hseat, ⟨?_, ?_⟩, hnext⟩
    · show time ≤ c.now + ms
      omega
    · show c.now + ms ≤ time + limit
      omega
  cases phase with
  | stopped => exact hloop.elim
  | ticking =>
    simp only [step?, hopen, Bool.or_false, Bool.false_eq_true, if_false] at hwaits
    split at hwaits
    · cases hwaits
    · next hlate => exact hclock due rfl (Nat.lt_of_not_le hlate) hloop hloop
  | draining batch p =>
    simp only [step?, Bool.false_eq_true, if_false, hplace] at hwaits
    split at hwaits
    · next hpoll => exact absurd hloop.1 (waits_of_poll? hpoll).1
    · cases hwaits
    · cases hwaits
  | spacing batch r wake =>
    simp only [step?, Bool.false_eq_true, if_false] at hwaits
    split at hwaits
    · cases hwaits
    · next hlate => exact hclock wake rfl (Nat.lt_of_not_le hlate) hloop.1 hloop
  | releasing batch failure =>
    obtain ⟨hopened, hsoon, -⟩ := hloop
    have hheard := hroom batch failure rfl
    dsimp only at hheard
    have hrest : DelayedPhase.rest s.errorPause (.releasing batch failure) ≤ limit := by
      have hpause := hs.errorPause_le
      cases failure with
      | none => exact Nat.zero_le _
      | some e => exact hpause
    refine ⟨max time _, hseat.max ⟨hseat.1, hheard⟩, ⟨?_, ?_⟩, hopened, ?_, ?_⟩
    · show max time _ ≤ c.now + ms
      omega
    · show c.now + ms ≤ max time _ + limit
      omega
    · show due ≤ max time _ + limit
      have hdue' : due ≤ time + limit := hsoon
      omega
    · show c.now + ms + DelayedPhase.rest s.errorPause (.releasing batch failure) ≤ max time _ + limit
      omega
  | pausing wake =>
    simp only [step?, Bool.false_eq_true, if_false] at hwaits
    split at hwaits
    · cases hwaits
    · next hlate => exact hclock wake rfl (Nat.lt_of_not_le hlate) hloop.1 hloop

end Delayed

end WorkQueue
