import WorkQueue.Proofs.Intake.Order
import WorkQueue.Proofs.Intake.Waiting

/-!
# How a closed consumer brings its loop to a stop

A loop goes on until it is told to stop or a poll finds its consumer closed. The primary loop stops
with that very poll; it holds no record while it polls. The delayed loop has a batch in its hands by
then. It polls no more, and with each step for which there is room it pushes one record of the batch.
Behind the last one it stops.

## Main definitions

* `Shift.FoundClosed`: the last poll has found the consumer closed
* `IntakeLoop.WindsUp`: where a loop is from that poll on
* `Shift.Roomy`: there is room whenever the loop offers a record

## Main statements

* `Primary.stopped_of_foundClosed`: the primary loop has stopped
* `Delayed.stops_of_foundClosed`: the delayed loop stops behind the pushes of its batch
-/

namespace WorkQueue

variable {σ loop : Type}

/-! ## From the poll on that finds the consumer closed -/

/-- The last poll has found the consumer closed. -/
def Shift.FoundClosed (m : Shift σ loop) : Prop :=
  m.annals.polls.getLast? = some (.error .closed)

/-- A loop winds up once a poll has found its consumer closed: it polls no more, whatever it still has
to do. -/
structure IntakeLoop.WindsUp (l : IntakeLoop σ loop) (winding : loop → Prop) : Prop where
  found : ∀ {fired a f a' f'}, l.step? fired a f = some (a', f') → ∀ time,
    (Annals.moment time (l.deeds fired a f)).polls.getLast? = some (.error .closed) → winding a'
  stays : ∀ {fired a f a' f'}, l.step? fired a f = some (a', f') → winding a → winding a' ∧
    ∀ time, (Annals.moment time (l.deeds fired a f)).polls = []

namespace IntakeLoop.WindsUp

variable {l : IntakeLoop σ loop} {winding : loop → Prop} {m : Shift σ loop}

theorem next (hl : l.WindsUp winding) (h : m.FoundClosed → winding m.loop) (o : Occurrence σ) :
    (m.next l o).FoundClosed → winding (m.next l o).loop := by
  cases o with
  | cluster | channel | fire => exact h
  | step =>
    rcases m.next_step_cases l with hnext | ⟨a', f', hstep, hnext⟩ <;> rw [hnext]
    · exact h
    intro hfound
    unfold Shift.FoundClosed at hfound
    rw [Annals.polls_append] at hfound
    -- it was this step that has found it, or one before
    cases hpolls : (Annals.moment m.feed.cluster.now (l.deeds m.fired m.loop m.feed)).polls with
    | nil =>
      rw [hpolls, List.append_nil] at hfound
      exact (hl.stays hstep (h hfound)).1
    | cons result rest =>
      rw [hpolls, List.getLast?_append_of_ne_nil _ (List.cons_ne_nil _ _), ← hpolls] at hfound
      exact hl.found hstep _ hfound

/-- A loop that has not polled yet winds up as soon as a poll has found its consumer closed. -/
theorem after (hl : l.WindsUp winding) (hnew : m.annals.polls = []) (os : List (Occurrence σ)) :
    (m.after l os).FoundClosed → winding (m.after l os).loop := by
  refine Shift.after_invariant (I := fun m => m.FoundClosed → winding m.loop) os
    (fun m o _ hm => hl.next hm o) fun hfound => ?_
  rw [Shift.FoundClosed, hnew] at hfound
  cases hfound

/-- From then on it polls no more. -/
theorem polls_after (hl : l.WindsUp winding) (h : winding m.loop) (os : List (Occurrence σ)) :
    winding (m.after l os).loop ∧ (m.after l os).annals.polls = m.annals.polls := by
  refine Shift.after_invariant
    (I := fun m' => winding m'.loop ∧ m'.annals.polls = m.annals.polls) os
    (fun m' o _ hm' => ?_) ⟨h, rfl⟩
  cases o with
  | cluster | channel | fire => exact hm'
  | step =>
    rcases m'.next_step_cases l with hnext | ⟨a', f', hstep, hnext⟩ <;> rw [hnext]
    · exact hm'
    obtain ⟨hwinding, hpolls⟩ := hl.stays hstep hm'.1
    refine ⟨hwinding, ?_⟩
    rw [Annals.polls_append, hpolls, List.append_nil]
    exact hm'.2

end IntakeLoop.WindsUp

/-- A loop that has stopped does not begin again. -/
theorem Shift.hasStopped_after {l : IntakeLoop σ loop} {s : IntakeSettings} (hl : l.Faithful s)
    {m : Shift σ loop} (h : l.hasStopped m.loop = true) (os : List (Occurrence σ)) :
    l.hasStopped (m.after l os).loop = true := by
  refine Shift.after_invariant (I := fun m => l.hasStopped m.loop = true) os (fun m o _ hm => ?_) h
  cases o with
  | cluster | channel | fire => exact hm
  | step =>
    rcases m.next_step_cases l with hnext | ⟨a', f', hstep, hnext⟩ <;> rw [hnext]
    · exact hm
    · exact absurd hm (by simp [hl.running hstep])

/-- Where there is room, an offer is accepted unless the receiver is gone. -/
theorem Channel.offer_of_admits {c : Channel} {source : Source} (h : c.admits source = true)
    (d : Delivery) : c.offer source d = .refused ∨ ∃ c', c.offer source d = .accepted c' := by
  unfold offer
  rw [if_pos h]
  split
  · exact .inl rfl
  · exact .inr ⟨_, rfl⟩

variable [LogStore σ] {s : IntakeSettings}

/-! ## The primary loop -/

theorem Primary.windsUp (s : IntakeSettings) :
    (Primary.watched s : IntakeLoop σ Primary).WindsUp (·.hasStopped = true) where
  found := by
    intro fired a f a' f' hstep time hfound
    have hdoes := Primary.does_of_step? hstep
    change (Annals.moment time (Primary.deeds s fired a f)).polls.getLast? = _ at hfound
    generalize Primary.deeds s fired a f = deeds at hdoes hfound
    cases hdoes with
    | @poll _ result =>
      obtain rfl : result = .error .closed := Option.some.inj hfound
      rfl
    | stop | start | pollOn | push | lineUp | resume => cases hfound
  stays := by
    intro fired a f a' f' hstep hstopped
    exact absurd hstopped (by simp [(Primary.move_of_step? hstep).1])

/-- Once a poll has found its consumer closed, the primary loop has stopped. -/
theorem Primary.stopped_of_foundClosed (s : IntakeSettings) (f : Feed σ) (fired : Bool)
    (os : List (Occurrence σ)) :
    let m := ({ loop := .ready, feed := f, fired } : Shift σ Primary).after (Primary.watched s) os
    m.FoundClosed → m.loop.hasStopped = true :=
  (Primary.windsUp s).after rfl os

/-- A record is appended, read and pushed. Then the consumer is closed, and the next poll finds it
so. -/
def closedBehindOne : List (Option Act) :=
  [appending] ++ List.replicate 5 none ++ [some (.close 0), none]

/-- The loop has stopped with that poll. -/
theorem Primary.stopped_of_foundClosed_pushed :
    let m := ({ loop := .ready, feed := oneReading.feed } : Shift MemoryLog Primary).after
      (Primary.watched everySecond) (closedBehindOne.map occurring)
    m.FoundClosed ∧ m.loop.hasStopped = true ∧ m.annals.pushes.length = 1 := by
  intro m
  have hfound : m.FoundClosed := by rfl
  exact ⟨hfound, Primary.stopped_of_foundClosed everySecond oneReading.feed false _ hfound,
    by decide +kernel⟩

/-! ## The delayed loop -/

namespace Delayed

/-- The loop has stopped, or hands over the batch that has ended because its consumer is closed. -/
def WindingUp (d : Delayed) : Prop :=
  match d.phase with
  | .stopped => True
  | .releasing _ (some .closed) => True
  | _ => False

omit [LogStore σ] in
theorem windingUp_releasing {due : Nat} {batch : List Record} {failure : Option BrokerError} :
    WindingUp ⟨due, .releasing batch failure⟩ ↔ failure = some .closed := by
  rcases failure with _ | e
  · simp [WindingUp]
  · cases e <;> simp [WindingUp]

theorem windsUp (s : IntakeSettings) :
    (Delayed.watched s : IntakeLoop σ Delayed).WindsUp WindingUp where
  found := by
    intro fired a f a' f' hstep time hfound
    have hdoes := Delayed.does_of_step? hstep
    change (Annals.moment time (Delayed.deeds s fired a f)).polls.getLast? = _ at hfound
    generalize Delayed.deeds s fired a f = deeds at hdoes hfound
    generalize a.phase = phase at hdoes
    cases hdoes with
    | @poll _ _ result =>
      obtain rfl : result = .error .closed := Option.some.inj hfound
      trivial
    | stop | tick | pollOn | rest | push | lineUp | released | resume => cases hfound
  stays := by
    intro fired a f a' f' hstep hwinding
    have hdoes := Delayed.does_of_step? hstep
    change _ ∧ ∀ time, (Annals.moment time (Delayed.deeds s fired a f)).polls = []
    generalize Delayed.deeds s fired a f = deeds at hdoes ⊢
    obtain ⟨due, phase⟩ := a
    -- the batch keeps what it has ended with, and behind it the loop stops
    cases hdoes with
    | stop => exact ⟨trivial, fun _ => rfl⟩
    | push | lineUp => exact ⟨windingUp_releasing.mpr (windingUp_releasing.mp hwinding), fun _ => rfl⟩
    | released =>
      obtain rfl := windingUp_releasing.mp hwinding
      exact ⟨trivial, fun _ => rfl⟩
    | tick | pollOn | poll | rest | resume => exact hwinding.elim

/-- If there is room for what it offers, a loop that winds up takes a step, and holds one record less
behind it or has stopped. -/
theorem step_of_windingUp {d : Delayed} {f : Feed σ} (h : d.WindingUp) (hgoes : d.hasStopped = false)
    (hroom : d.phase.held ≠ [] → f.channel.admits .delayed = true) (fired : Bool) :
    ∃ d' f', d.step? s fired f = some (d', f') ∧
      (d'.hasStopped = true ∨ d'.phase.held.length < d.phase.held.length) := by
  obtain ⟨due, phase⟩ := d
  cases phase with
  | stopped => cases hgoes
  | releasing batch failure =>
    cases batch with
    | nil =>
      obtain rfl := windingUp_releasing.mp h
      exact ⟨_, _, rfl, .inl rfl⟩
    | cons r rest =>
      -- the loop would have to line up only for want of room
      cases fired with
      | true => exact ⟨_, _, rfl, .inl rfl⟩
      | false =>
        rcases Channel.offer_of_admits (hroom (List.cons_ne_nil r rest)) ⟨s.consumer, r⟩ with
          hoffer | ⟨c, hoffer⟩ <;> simp only [step?, hoffer, Bool.false_eq_true, if_false]
        · exact ⟨_, _, rfl, .inl rfl⟩
        · exact ⟨_, _, rfl, .inr (Nat.lt_succ_self _)⟩
  | ticking | draining | spacing | pausing => exact h.elim

end Delayed

/-- Is this a step of the loop? -/
def Occurrence.isStep : Occurrence σ → Bool
  | step => true
  | _ => false

/-- Whenever the loop takes a step and has something to offer, there is room for it. -/
def Shift.Roomy (l : IntakeLoop σ loop) : Shift σ loop → List (Occurrence σ) → Prop
  | _, [] => True
  | m, o :: os =>
    (o.isStep = true → l.held m.loop ≠ [] → m.feed.channel.admits l.source = true) ∧
      Roomy l (m.next l o) os

/-- A loop that winds up needs one step for each record it holds, and one to stop. -/
theorem Delayed.stops_of_windingUp {m : Shift σ Delayed} (h : m.loop.WindingUp)
    {os : List (Occurrence σ)} (hroom : m.Roomy (Delayed.watched s) os)
    (hsteps : m.loop.phase.held.length < os.countP Occurrence.isStep) :
    (m.after (Delayed.watched s) os).loop.hasStopped = true := by
  induction os generalizing m with
  | nil => cases hsteps
  | cons o os ih =>
    -- what others do counts for nothing, and leaves the loop where it is
    cases hstopped : m.loop.hasStopped with
    | true => exact Shift.hasStopped_after (Delayed.watched_faithful s) hstopped (o :: os)
    | false =>
      cases o with
      | cluster | channel | fire => exact ih (m := m.next _ _) h hroom.2 hsteps
      | step =>
        obtain ⟨d', f', hstep, hless⟩ :=
          Delayed.step_of_windingUp (s := s) h hstopped (hroom.1 rfl) m.fired
        have hwinding := ((Delayed.windsUp s).stays hstep h).1
        have hnext : (m.next (Delayed.watched s) .step).loop = d' := by
          simp only [Shift.next, Delayed.watched, hstep]
        have hcount : (Occurrence.step :: os).countP Occurrence.isStep =
            os.countP (Occurrence.isStep (σ := σ)) + 1 := List.countP_cons_of_pos rfl
        rw [hcount] at hsteps
        rcases hless with hlast | hless
        · rw [← hnext] at hlast
          exact Shift.hasStopped_after (Delayed.watched_faithful s) hlast os
        · refine ih (m := m.next _ .step) ?_ hroom.2 ?_
          · rw [hnext]
            exact hwinding
          · rw [hnext]
            omega

/-- Once a poll has found its consumer closed, the delayed loop polls no more. If there is room
whenever it offers a record of its batch, it has stopped behind one step for each of them and another
one; and unless it has been told to stop, it has pushed all that it has polled by then. -/
theorem Delayed.stops_of_foundClosed (s : IntakeSettings) (f : Feed σ) (fired : Bool) (due : Nat)
    (os : List (Occurrence σ)) :
    let m := ({ loop := { due }, feed := f, fired } : Shift σ Delayed).after (Delayed.watched s) os
    m.FoundClosed → ∀ os', m.Roomy (Delayed.watched s) os' →
      m.loop.phase.held.length < os'.countP Occurrence.isStep →
      let m' := m.after (Delayed.watched s) os'
      m'.loop.hasStopped = true ∧ m'.annals.polls = m.annals.polls ∧
        (¬ m'.Ended → m'.annals.pushes = m'.annals.records.map s.deliver) := by
  intro m hfound os' hroom hsteps m'
  have hwinding : m.loop.WindingUp := (Delayed.windsUp s).after rfl os hfound
  have hstopped : m'.loop.hasStopped = true := Delayed.stops_of_windingUp hwinding hroom hsteps
  refine ⟨hstopped, ((Delayed.windsUp s).polls_after hwinding os').2, fun hgoes => ?_⟩
  -- both courses together are one course from the start
  have hconveys := (Delayed.conveys s f fired due (os ++ os')).1
  rw [Shift.after_append] at hconveys
  exact (hconveys.complete hstopped hgoes).2

/-- Two records are appended, and read with a rest in between. Then the consumer is closed, and the
next poll finds it so. -/
def closedBehindTwo : List (Option Act) :=
  [appending, appending, some (.pass 1000 0)] ++ List.replicate 4 none ++
    [some (.pass 1000 0), none, some (.close 0), none]

/-- The loop holds both records when it finds its consumer closed. With two steps it pushes them, and
with the third one it stops. -/
theorem Delayed.stops_of_foundClosed_holding :
    let m := oneReading.after (Delayed.watched everySecond) (closedBehindTwo.map occurring)
    let m' := m.after (Delayed.watched everySecond) (List.replicate 3 .step)
    m.FoundClosed ∧ m.loop.phase.held.length = 2 ∧ m.annals.pushes.length = 0 ∧
      m'.loop.hasStopped = true ∧ m'.annals.pushes.length = 2 ∧
        m'.annals.pushes = m'.annals.records.map everySecond.deliver := by
  intro m m'
  have hfound : m.FoundClosed := by rfl
  have hheld : m.loop.phase.held.length = 2 := by decide +kernel
  have hroom : m.Roomy (Delayed.watched everySecond) (List.replicate 3 .step) := by
    refine ⟨fun _ _ => ?_, fun _ _ => ?_, fun _ _ => ?_, trivial⟩ <;> decide +kernel
  have hgoes : ¬ m'.Ended := by
    rintro (hfired | hclosed)
    · exact absurd hfired (by decide +kernel)
    · exact absurd hclosed (by decide +kernel)
  have hsteps : m.loop.phase.held.length <
      (List.replicate 3 (.step : Occurrence MemoryLog)).countP Occurrence.isStep := by
    rw [hheld]
    decide
  obtain ⟨hstopped, -, hpushes⟩ := Delayed.stops_of_foundClosed everySecond _ false _
    (closedBehindTwo.map occurring) hfound _ hroom hsteps
  exact ⟨hfound, hheld, by decide +kernel, hstopped, by decide +kernel, hpushes hgoes⟩

end WorkQueue
