import WorkQueue.Proofs.Intake.Annals

/-!
# Intake loses nothing and keeps the order

Whatever the polls of a consumer come to and whatever the others do, its loop pushes the records that
it has polled, in the order of the polls and each of them once. While the loop works it holds what it
has polled and not pushed yet. If neither the token fires nor the receiver goes away, it stops only
when its consumer is closed, and then it holds nothing.

The delayed loop works in rounds: behind a tick it polls, and rests behind each record but the first
one, until a poll is empty or fails; then it pushes what it has polled.

## Main definitions

* `Carries`: what a step does with records
* `Shift.Orderly`: what a loop has pushed and what it holds are what it has polled
* `Round`, `Underway`: a round of the delayed loop, and how far it has come
* `Shift.Conveys`: what is promised of a loop

## Main statements

* `Primary.Does.carries`, `Delayed.Does.carries`: no step does anything else with records
* `Underway.step`: every step of the delayed loop belongs to a round
* `intake_conveys`: both loops do what is promised
-/

namespace WorkQueue

/-- A record as the loop delivers it. -/
def IntakeSettings.deliver (s : IntakeSettings) (r : Record) : Delivery := ⟨s.consumer, r⟩

variable {σ : Type} {s : IntakeSettings} {fired : Bool} {f f' : Feed σ}

/-! ## What a step does with records -/

/-- A step of a loop that holds some records: what is noted of it, what the loop holds then, whether
it has stopped, and what it has made of its surroundings. -/
inductive Carries (s : IntakeSettings) (fired : Bool) (f : Feed σ) :
    List Record → List Deed → List Record → Bool → Feed σ → Prop where
  /-- No record is handed out or pushed; what is held is kept, unless the loop stops. -/
  | idle {held held' : List Record} {deeds : List Deed} {stopped : Bool} {f' : Feed σ}
      (hpushes : ∀ time, (Annals.moment time deeds).pushes = [])
      (hrecords : ∀ time, (Annals.moment time deeds).records = [])
      (hbuffer : f'.channel.buffer = f.channel.buffer)
      (hclosed : f'.channel.closed = f.channel.closed)
      (hheld : stopped = false → held' = held) : Carries s fired f held deeds held' stopped f'
  /-- A poll hands out a record. -/
  | poll {held : List Record} {r : Record} {f' : Feed σ} (hchannel : f'.channel = f.channel) :
      Carries s fired f held [.polled (.ok (some r))] (held ++ [r]) false f'
  /-- The first record held is pushed. -/
  | push {r : Record} {held : List Record} {f' : Feed σ} (hfired : fired = false)
      (hopen : f.channel.closed = false)
      (hbuffer : f'.channel.buffer = f.channel.buffer ++ [s.deliver r])
      (hclosed : f'.channel.closed = false) :
      Carries s fired f (r :: held) [.pushed (s.deliver r)] held false f'

namespace Carries

variable {held held' : List Record} {deeds : List Deed} {stopped : Bool}

/-- What a loop that goes on has pushed and holds then is what it has held and polled. -/
theorem balance (h : Carries s fired f held deeds held' stopped f') (hgoes : stopped = false)
    (time : Nat) : (Annals.moment time deeds).pushes ++ held'.map s.deliver =
      held.map s.deliver ++ (Annals.moment time deeds).records.map s.deliver := by
  cases h with
  | idle hpushes hrecords _ _ hheld => simp [hpushes, hrecords, hheld hgoes]
  | poll =>
    rw [List.map_append]
    rfl
  | push => simp [Annals.moment, Annals.pushes, Annals.records, Annals.pick, Deed.delivery?, Deed.record?]

/-- With the step with which it stops a loop pushes nothing and polls no record. -/
theorem last (h : Carries s fired f held deeds held' stopped f') (hstops : stopped = true)
    (time : Nat) :
    (Annals.moment time deeds).pushes = [] ∧ (Annals.moment time deeds).records = [] := by
  cases h with
  | idle hpushes hrecords => exact ⟨hpushes time, hrecords time⟩
  | poll | push => cases hstops

/-- What is pushed is put at the end of the channel, and nothing else. -/
theorem buffer (h : Carries s fired f held deeds held' stopped f') (time : Nat) :
    f'.channel.buffer = f.channel.buffer ++ (Annals.moment time deeds).pushes := by
  cases h with
  | idle hpushes _ hbuffer => rw [hbuffer, hpushes, List.append_nil]
  | poll hchannel =>
    rw [hchannel]
    exact (List.append_nil _).symm
  | push _ _ hbuffer => exact hbuffer

theorem closed (h : Carries s fired f held deeds held' stopped f') :
    f'.channel.closed = f.channel.closed := by
  cases h with
  | idle _ _ _ hclosed => exact hclosed
  | poll hchannel => rw [hchannel]
  | push _ hopen _ hclosed => rw [hopen, hclosed]

/-- Nothing is pushed once the token has fired or the receiver is gone. -/
theorem silent (h : Carries s fired f held deeds held' stopped f')
    (hended : fired = true ∨ f.channel.closed = true) (time : Nat) :
    (Annals.moment time deeds).pushes = [] := by
  cases h with
  | idle hpushes => exact hpushes time
  | poll => rfl
  | push hfired hopen =>
    rw [hfired, hopen] at hended
    simp at hended

end Carries

/-! ## Loops that carry -/

section Loops

variable {loop : Type} {l : IntakeLoop σ loop} {m : Shift σ loop}

/-- A loop that does nothing else with records. -/
structure IntakeLoop.Faithful (l : IntakeLoop σ loop) (s : IntakeSettings) : Prop where
  carries : ∀ {fired a f a' f'}, l.step? fired a f = some (a', f') →
    Carries s fired f (l.held a) (l.deeds fired a f) (l.held a') (l.hasStopped a') f'
  running : ∀ {fired a f a' f'}, l.step? fired a f = some (a', f') → l.hasStopped a = false
  /-- Without a step the loop has stopped, or waits for a time or for room in the channel. -/
  waits : ∀ {fired a f}, l.step? fired a f = none → l.hasStopped a = true ∨
    (∃ time, l.wake? a = some time ∧ f.cluster.now < time) ∨
    l.held a ≠ [] ∧ f.channel.admits l.source = false

namespace Shift

/-- What a loop has pushed, and what it holds as long as it works, are what it has polled. -/
structure Orderly (l : IntakeLoop σ loop) (s : IntakeSettings) (m : Shift σ loop) : Prop where
  pushes_prefix : m.annals.pushes <+: m.annals.records.map s.deliver
  balance : l.hasStopped m.loop = false →
    m.annals.pushes ++ (l.held m.loop).map s.deliver = m.annals.records.map s.deliver

/-- A loop that is about to begin has done nothing. -/
theorem Orderly.start {a : loop} (hheld : l.held a = []) :
    Orderly l s { loop := a, feed := f, fired } := by
  refine ⟨List.prefix_refl _, fun _ => ?_⟩
  rw [hheld]
  rfl

theorem Orderly.next (hl : l.Faithful s) (hm : m.Orderly l s) (o : Occurrence σ) :
    (m.next l o).Orderly l s := by
  cases o with
  | cluster | channel | fire => exact ⟨hm.pushes_prefix, hm.balance⟩
  | step =>
    rcases m.next_step_cases l with hnext | ⟨a', f', hstep, hnext⟩ <;> rw [hnext]
    · exact hm
    have hcarries := hl.carries hstep
    have hbefore := hm.balance (hl.running hstep)
    cases hstops : l.hasStopped a' with
    | true =>
      -- what was held is dropped
      obtain ⟨hpushes, hrecords⟩ := hcarries.last hstops m.feed.cluster.now
      refine ⟨?_, fun hgoes => ?_⟩
      · rw [Annals.pushes_append, Annals.records_append, hpushes, hrecords, List.append_nil,
          List.append_nil]
        exact hm.pushes_prefix
      · rw [hstops] at hgoes
        cases hgoes
    | false =>
      have hbalance : (m.annals ++ .moment m.feed.cluster.now
          (l.deeds m.fired m.loop m.feed)).pushes ++ (l.held a').map s.deliver =
            (m.annals ++ .moment m.feed.cluster.now
              (l.deeds m.fired m.loop m.feed)).records.map s.deliver := by
        rw [Annals.pushes_append, Annals.records_append, List.map_append, ← hbefore,
          List.append_assoc, List.append_assoc, hcarries.balance hstops]
      exact ⟨⟨_, hbalance⟩, fun _ => hbalance⟩

/-- Others do not take back that a loop has been told to stop. -/
theorem Ended.next (hl : l.Faithful s) (h : m.Ended) (o : Occurrence σ) : (m.next l o).Ended := by
  cases o with
  | cluster => exact h
  | channel => exact h.imp_right fun hclosed => by simp [Shift.next, Channel.changed, hclosed]
  | fire => exact .inl rfl
  | step =>
    rcases m.next_step_cases l with hnext | ⟨a', f', hstep, hnext⟩ <;> rw [hnext]
    · exact h
    · exact h.imp_right ((hl.carries hstep).closed.trans ·)

/-- Once it has been told to stop, a loop pushes nothing any more. -/
theorem Ended.silent (hl : l.Faithful s) (h : m.Ended) (os : List (Occurrence σ)) :
    (m.after l os).annals.pushes = m.annals.pushes := by
  have hkept : (m.after l os).Ended ∧ (m.after l os).annals.pushes = m.annals.pushes := by
    refine after_invariant (I := fun m' => m'.Ended ∧ m'.annals.pushes = m.annals.pushes)
      os (fun m' o _ hm' => ⟨hm'.1.next hl o, ?_⟩) ⟨h, rfl⟩
    cases o with
    | cluster | channel | fire => exact hm'.2
    | step =>
      rcases m'.next_step_cases l with hnext | ⟨a', f', hstep, hnext⟩ <;> rw [hnext]
      · exact hm'.2
      · rw [Annals.pushes_append, (hl.carries hstep).silent hm'.1, List.append_nil]
        exact hm'.2
  exact hkept.2

/-- If it has not been told to stop, a loop that has stopped has last polled that its consumer is
closed, and has pushed everything. -/
def Complete (l : IntakeLoop σ loop) (s : IntakeSettings) (m : Shift σ loop) : Prop :=
  l.hasStopped m.loop = true → ¬ m.Ended →
    m.annals.polls.getLast? = some (.error .closed) ∧
      m.annals.pushes = m.annals.records.map s.deliver

/-- It is enough that the loop holds nothing when it stops and has been told by its last poll. -/
theorem Complete.next (hl : l.Faithful s) (hm : m.Orderly l s) (h : m.Complete l s)
    (hstops : ∀ a' f', l.step? m.fired m.loop m.feed = some (a', f') → l.hasStopped a' = true →
      ¬ m.Ended → l.held m.loop = [] ∧
        (m.annals ++ .moment m.feed.cluster.now (l.deeds m.fired m.loop m.feed)).polls.getLast? =
          some (.error .closed)) (o : Occurrence σ) : (m.next l o).Complete l s := by
  intro hstopped hgoes
  -- it had not been told to stop before either
  have hgoes' : ¬ m.Ended := fun hended => hgoes (hended.next hl o)
  cases o with
  | cluster | channel | fire => exact h hstopped hgoes'
  | step =>
    rcases m.next_step_cases l with hnext | ⟨a', f', hstep, hnext⟩ <;> rw [hnext] at hstopped ⊢
    · exact h hstopped hgoes'
    obtain ⟨hheld, hpolled⟩ := hstops a' f' hstep hstopped hgoes'
    have hbalance := hm.balance (hl.running hstep)
    obtain ⟨hpushes, hrecords⟩ := (hl.carries hstep).last hstopped m.feed.cluster.now
    refine ⟨hpolled, ?_⟩
    rw [Annals.pushes_append, Annals.records_append, hpushes, hrecords, List.append_nil,
      List.append_nil, ← hbalance, hheld, List.map_nil, List.append_nil]

/-- What is promised of a loop at any moment. -/
structure Conveys (l : IntakeLoop σ loop) (s : IntakeSettings) (m : Shift σ loop) : Prop where
  /-- What has been pushed is a prefix of what has been polled. -/
  pushes_prefix : m.annals.pushes <+: m.annals.records.map s.deliver
  /-- A loop that has stopped without having been told to has last polled that its consumer is
  closed, and has pushed all that it has polled. -/
  complete : m.Complete l s
  /-- Once the token has fired or the receiver is gone, nothing is pushed whatever happens. -/
  silent : m.Ended → ∀ os, (m.after l os).annals.pushes = m.annals.pushes
  /-- What is noted as pushed with a step is what that step has put into the channel. -/
  buffer : ∃ pushed, (m.next l .step).annals.pushes = m.annals.pushes ++ pushed ∧
    (m.next l .step).feed.channel.buffer = m.feed.channel.buffer ++ pushed
  /-- A loop that takes no step has stopped, or waits for a time or for room in the channel. -/
  waits : l.step? m.fired m.loop m.feed = none → l.hasStopped m.loop = true ∨
    (∃ time, l.wake? m.loop = some time ∧ m.feed.cluster.now < time) ∨
    l.held m.loop ≠ [] ∧ m.feed.channel.admits l.source = false

theorem Orderly.conveys (hl : l.Faithful s) (hm : m.Orderly l s) (h : m.Complete l s) :
    m.Conveys l s := by
  refine ⟨hm.pushes_prefix, h, Ended.silent hl, ?_, hl.waits⟩
  rcases m.next_step_cases l with hnext | ⟨a', f', hstep, hnext⟩ <;> rw [hnext]
  · exact ⟨[], (List.append_nil _).symm, (List.append_nil _).symm⟩
  · exact ⟨_, Annals.pushes_append .., (hl.carries hstep).buffer m.feed.cluster.now⟩

end Shift

end Loops

/-! ## The two loops -/

variable [LogStore σ]

theorem Primary.Does.carries {loop loop' : Primary} {deeds : List Deed}
    (h : Does s fired f loop deeds loop' f') :
    Carries s fired f loop.held deeds loop'.held loop'.hasStopped f' := by
  cases h with
  | stop hcause hbuffer hclosed => exact .idle (fun _ => rfl) (fun _ => rfl) hbuffer hclosed nofun
  | poll hpoll =>
    -- a record is held from now on, and a closed consumer stops the loop
    rename_i result _
    rcases result with e | _ | r
    · refine .idle (fun _ => rfl) (fun _ => rfl) rfl rfl fun _ => ?_
      cases e <;> rfl
    · exact .idle (fun _ => rfl) (fun _ => rfl) rfl rfl fun _ => rfl
    · exact .poll rfl
  | push hfired hopen hbuffer hclosed => exact .push hfired hopen hbuffer hclosed
  | lineUp hbuffer hclosed => exact .idle (fun _ => rfl) (fun _ => rfl) hbuffer hclosed fun _ => rfl
  | start | pollOn | resume => exact .idle (fun _ => rfl) (fun _ => rfl) rfl rfl fun _ => rfl

theorem Delayed.Does.carries {due : Nat} {phase : DelayedPhase} {d' : Delayed} {deeds : List Deed}
    (h : Does s fired f due phase deeds d' f') :
    Carries s fired f phase.held deeds d'.phase.held d'.hasStopped f' := by
  cases h with
  | stop hcause hbuffer hclosed => exact .idle (fun _ => rfl) (fun _ => rfl) hbuffer hclosed nofun
  | pollOn | rest | resume | tick =>
    exact .idle (fun _ => rfl) (fun _ => rfl) rfl rfl fun _ => rfl
  | @poll batch _ result _ hpoll =>
    rcases result with e | _ | r
    · exact .idle (fun _ => rfl) (fun _ => rfl) rfl rfl fun _ => rfl
    · exact .idle (fun _ => rfl) (fun _ => rfl) rfl rfl fun _ => rfl
    -- the record joins the batch, after a rest if it is not the first one
    · cases batch <;> exact .poll rfl
  | push hfired hopen hbuffer hclosed => exact .push hfired hopen hbuffer hclosed
  | lineUp hbuffer hclosed => exact .idle (fun _ => rfl) (fun _ => rfl) hbuffer hclosed fun _ => rfl
  | @released failure =>
    refine .idle (fun _ => rfl) (fun _ => rfl) rfl rfl fun _ => ?_
    rcases failure with _ | e
    · rfl
    · cases e <;> rfl

/-- A poll waits no longer than up to its deadline. -/
theorem Cluster.now_lt_deadline {c : Cluster σ} {place : Nat} {p : Polling}
    (h : c.poll? place p = none) : c.now < p.deadline := by
  unfold poll? at h
  dsimp only at h
  split at h
  · split at h
    · cases h
    · next hlt => exact Nat.lt_of_not_le hlt
  · split at h
    · cases h
    · cases h
    · cases h
    · split at h <;> cases h

/-- A record is put off only for want of room. -/
theorem Channel.admits_of_blocked {c : Channel} {source : Source} {d : Delivery}
    (h : c.offer source d = .blocked) : c.admits source = false := by
  unfold offer at h
  split at h
  · cases h
  · split at h
    · cases h
    · next hfull => exact Bool.eq_false_iff.mpr hfull

theorem Primary.waits {loop : Primary} (h : loop.step? s fired f = none) :
    loop.hasStopped = true ∨ (∃ time, loop.due? = some time ∧ f.cluster.now < time) ∨
      loop.held ≠ [] ∧ f.channel.admits .primary = false := by
  cases loop with
  | stopped => exact .inl rfl
  | ready =>
    simp only [step?] at h
    split at h <;> cases h
  | polling p =>
    simp only [step?] at h
    split at h
    · cases h
    · split at h
      · next hpoll => exact .inr (.inl ⟨p.deadline, rfl, Cluster.now_lt_deadline hpoll⟩)
      · cases h
      · cases h
  | pushing r =>
    simp only [step?] at h
    split at h
    · cases h
    · split at h
      · cases h
      · cases h
      · cases h
      · next hoffer =>
        exact .inr (.inr ⟨List.cons_ne_nil r [], Channel.admits_of_blocked hoffer⟩)
  | pausing wake =>
    simp only [step?] at h
    split at h
    · cases h
    · split at h
      · cases h
      · next hwake => exact .inr (.inl ⟨wake, rfl, Nat.lt_of_not_le hwake⟩)

theorem Delayed.waits {d : Delayed} (h : d.step? s fired f = none) :
    d.hasStopped = true ∨
      (∃ time, (Delayed.watched (σ := σ) s).wake? d = some time ∧ f.cluster.now < time) ∨
      d.phase.held ≠ [] ∧ f.channel.admits .delayed = false := by
  obtain ⟨due, phase⟩ := d
  cases phase with
  | stopped => exact .inl rfl
  | ticking =>
    simp only [step?] at h
    split at h
    · cases h
    · split at h
      · cases h
      · next hdue => exact .inr (.inl ⟨due, rfl, Nat.lt_of_not_le hdue⟩)
  | draining batch p =>
    simp only [step?] at h
    split at h
    · cases h
    · split at h
      · next hpoll => exact .inr (.inl ⟨p.deadline, rfl, Cluster.now_lt_deadline hpoll⟩)
      · cases h
      · cases h
  | spacing batch r wake =>
    simp only [step?] at h
    split at h
    · cases h
    · split at h
      · cases h
      · next hwake => exact .inr (.inl ⟨wake, rfl, Nat.lt_of_not_le hwake⟩)
  | releasing batch failure =>
    cases batch with
    | nil => simp only [step?] at h; cases h
    | cons r rest =>
      simp only [step?] at h
      split at h
      · cases h
      · split at h
        · cases h
        · cases h
        · cases h
        · next hoffer =>
          exact .inr (.inr ⟨List.cons_ne_nil r rest, Channel.admits_of_blocked hoffer⟩)
  | pausing wake =>
    simp only [step?] at h
    split at h
    · cases h
    · split at h
      · cases h
      · next hwake => exact .inr (.inl ⟨wake, rfl, Nat.lt_of_not_le hwake⟩)

theorem Primary.watched_faithful (s : IntakeSettings) :
    (Primary.watched s : IntakeLoop σ Primary).Faithful s where
  carries h := (Primary.does_of_step? h).carries
  running h := (Primary.move_of_step? h).1
  waits h := Primary.waits h

theorem Delayed.watched_faithful (s : IntakeSettings) :
    (Delayed.watched s : IntakeLoop σ Delayed).Faithful s where
  carries h := (Delayed.does_of_step? h).carries
  running h := (Delayed.move_of_step? h).1
  waits h := Delayed.waits h

/-- The primary loop stops when it is told to, or by a poll that finds its consumer closed. -/
theorem Primary.stops {m : Shift σ Primary} {loop : Primary}
    (h : m.loop.step? s m.fired m.feed = some (loop, f')) (hstops : loop.hasStopped = true)
    (hgoes : ¬ m.Ended) : m.loop.held = [] ∧
      Primary.deeds s m.fired m.loop m.feed = [.polled (.error .closed)] := by
  have hdoes := Primary.does_of_step? h
  generalize Primary.deeds s m.fired m.loop m.feed = deeds at hdoes
  generalize m.loop = before at hdoes
  cases hdoes with
  | stop hcause => exact absurd hcause hgoes
  | @poll _ result =>
    refine ⟨rfl, ?_⟩
    rcases result with e | _ | r
    · cases e
      case closed => rfl
      all_goals cases hstops
    · cases hstops
    · cases hstops
  | start | pollOn | push | lineUp | resume => cases hstops

/-! ## Rounds -/

/-- Records polled one after the other, with a rest of one period behind each but the first one. -/
inductive Reads (period : Nat) : List Record → Annals → Prop where
  | none : Reads period [] []
  | first (time : Nat) (r : Record) : Reads period [r] [(time, .polled (.ok (some r)))]
  | more {batch : List Record} {reading : Annals} (h : Reads period batch reading)
      (hbatch : batch ≠ []) {time : Nat} {r : Record} {ended : Nat} (hended : time + period ≤ ended) :
      Reads period (batch ++ [r])
        (reading ++ [(time, .polled (.ok (some r))), (ended, .rested (time + period))])

/-- A round of the delayed loop: behind a tick it reads a batch, up to a poll that hands out nothing;
then it pushes the batch. -/
inductive Round (s : IntakeSettings) : Annals → Prop where
  | intro (tick : Nat) {batch : List Record} {reading : Annals}
      (hreads : Reads s.period batch reading) (time : Nat)
      {result : Except BrokerError (Option Record)} (hresult : ∀ r, result ≠ .ok (some r))
      {pushing : Annals} (hpushing : pushing.map (·.2) = batch.map (.pushed <| s.deliver ·)) :
      Round s ((tick, .ticked) :: reading ++ (time, .polled result) :: pushing)

/-- What the last poll of a batch came to. -/
def ending : Option BrokerError → Except BrokerError (Option Record)
  | none => .ok none
  | some e => .error e

/-- How far the loop has come with a round. -/
inductive Underway (s : IntakeSettings) : DelayedPhase → Annals → Prop where
  | ticking : Underway s .ticking []
  | pausing {wake : Nat} : Underway s (.pausing wake) []
  | draining (tick : Nat) {batch : List Record} {reading : Annals} {p : Polling}
      (hreads : Reads s.period batch reading) :
      Underway s (.draining batch p) ((tick, .ticked) :: reading)
  | spacing (tick : Nat) {batch : List Record} {reading : Annals}
      (hreads : Reads s.period batch reading) (hbatch : batch ≠ []) {time : Nat} {r : Record} :
      Underway s (.spacing batch r (time + s.period))
        ((tick, .ticked) :: reading ++ [(time, .polled (.ok (some r)))])
  | releasing (tick : Nat) {done rest : List Record} {reading : Annals}
      (hreads : Reads s.period (done ++ rest) reading) (time : Nat) {failure : Option BrokerError}
      {pushing : Annals} (hpushing : pushing.map (·.2) = done.map (.pushed <| s.deliver ·)) :
      Underway s (.releasing rest failure)
        ((tick, .ticked) :: reading ++ (time, .polled (ending failure)) :: pushing)
  /-- A loop that stops may leave a round behind. -/
  | stopped {current : Annals} (h : current = [] ∨ ∃ rest, Round s (current ++ rest)) :
      Underway s .stopped current

theorem ending_ne_record (failure : Option BrokerError) (r : Record) :
    ending failure ≠ .ok (some r) := by
  cases failure <;> exact nofun

namespace Reads

variable {period : Nat} {batch : List Record} {reading : Annals}

theorem eq_nil (h : Reads period [] reading) : reading = [] := by
  generalize hbatch : ([] : List Record) = batch at h
  cases h with
  | none => rfl
  | first => cases hbatch
  | more => exact absurd hbatch.symm (List.append_ne_nil_of_right_ne_nil _ (List.cons_ne_nil _ []))

theorem records_eq (h : Reads period batch reading) : reading.records = batch := by
  induction h with
  | none | first => rfl
  | more _ _ _ ih =>
    rw [Annals.records_append, ih]
    rfl

theorem pushes_eq (h : Reads period batch reading) : reading.pushes = [] := by
  induction h with
  | none | first => rfl
  | more _ _ _ ih =>
    rw [Annals.pushes_append, ih]
    rfl

/-- A batch of several records has one rest less than records. -/
theorem length_rests (h : Reads period batch reading) :
    reading.rests.length = batch.length - 1 := by
  induction h with
  | none | first => rfl
  | more _ hbatch _ ih =>
    have hpos := List.length_pos_iff.mpr hbatch
    rw [Annals.rests_append, List.length_append, ih, List.length_append]
    show _ - 1 + 1 = _ + 1 - 1
    omega

end Reads

/-- A round that has begun can be brought to its end. -/
theorem Underway.completes {phase : DelayedPhase} {current : Annals} (h : Underway s phase current) :
    current = [] ∨ ∃ rest, Round s (current ++ rest) := by
  -- polls that find nothing, and pushes of what is held
  have hpush : ∀ batch : List Record,
      ((batch.map fun r => (0, Deed.pushed (s.deliver r)) : Annals)).map (·.2) =
        batch.map (.pushed <| s.deliver ·) := by
    intro batch
    rw [List.map_map]
    rfl
  cases h with
  | ticking | pausing => exact .inl rfl
  | stopped h => exact h
  | draining tick hreads =>
    exact .inr ⟨_, .intro tick hreads 0 (ending_ne_record none) (hpush _)⟩
  | @spacing tick batch reading hreads hbatch time r =>
    have hround := Round.intro tick (hreads.more hbatch (r := r) (Nat.le_refl (time + s.period))) 0
      (ending_ne_record none) (hpush _)
    refine .inr ⟨(time + s.period, .rested (time + s.period)) :: (0, .polled (ending none)) ::
      (batch ++ [r]).map fun r => (0, Deed.pushed (s.deliver r)), ?_⟩
    simpa using hround
  | @releasing tick done rest _ hreads time failure pushing hpushing =>
    have hall : (pushing ++ rest.map fun r => (0, Deed.pushed (s.deliver r))).map Prod.snd =
        (done ++ rest).map (Deed.pushed <| s.deliver ·) := by
      rw [List.map_append, List.map_append, hpushing, hpush]
    refine .inr ⟨rest.map fun r => (0, Deed.pushed (s.deliver r)), ?_⟩
    simpa using Round.intro tick hreads time (ending_ne_record failure) hall

/-- Every step of the delayed loop goes on with the round it is in, or ends it. -/
theorem Underway.step {due : Nat} {phase : DelayedPhase} {d' : Delayed} {deeds : List Deed}
    {current : Annals} (h : Underway s phase current)
    (hdoes : Delayed.Does s fired f due phase deeds d' f') :
    Underway s d'.phase (current ++ .moment f.cluster.now deeds) ∨
      Round s current ∧ deeds = [] ∧ Underway s d'.phase [] := by
  cases hdoes with
  | stop =>
    -- nothing is noted of it, and the round stays as it is
    refine .inl (.stopped ?_)
    simpa [Annals.moment] using h.completes
  | tick =>
    cases h
    exact .inl (.draining f.cluster.now .none)
  | pollOn =>
    cases h with
    | draining tick hreads =>
      refine .inl ?_
      rw [Annals.moment, List.map_nil, List.append_nil]
      exact .draining tick hreads
  | @poll batch _ result =>
    cases h with
    | @draining tick _ reading _ hreads =>
      refine .inl ?_
      -- a failed or empty poll ends the batch, of which nothing has been pushed yet
      have hnone : Reads s.period ([] ++ batch) reading := hreads
      rcases result with e | _ | r
      · exact .releasing tick hnone f.cluster.now rfl
      · exact .releasing tick hnone f.cluster.now rfl
      · cases batch with
        | nil =>
          obtain rfl := hreads.eq_nil
          exact .draining tick (.first f.cluster.now r)
        | cons r₀ batch => exact .spacing tick hreads (List.cons_ne_nil r₀ batch)
  | @rest batch r wake hwake =>
    cases h with
    | spacing tick hreads hbatch =>
      refine .inl ?_
      rw [List.append_assoc]
      exact .draining tick (hreads.more hbatch hwake)
  | @push r batch failure =>
    cases h with
    | @releasing tick done _ _ hreads time _ pushing hpushing =>
      -- the record moves from the front of what is left to what has been pushed
      refine .inl ?_
      rw [← List.singleton_append, ← List.append_assoc] at hreads
      rw [List.append_assoc, List.cons_append]
      refine .releasing tick hreads time ?_
      show (pushing ++ .moment f.cluster.now [.pushed (s.deliver r)]).map (·.2) = _
      rw [List.map_append, hpushing, List.map_append]
      rfl
  | lineUp =>
    refine .inl ?_
    rw [Annals.moment, List.map_nil, List.append_nil]
    exact h
  | @released failure =>
    -- nothing is left of the batch, so this was the round
    cases h with
    | @releasing tick done _ _ hreads time _ pushing hpushing =>
      rw [List.append_nil] at hreads
      refine .inr ⟨.intro tick hreads time (ending_ne_record failure) hpushing, rfl, ?_⟩
      rcases failure with _ | e
      · exact .ticking
      · cases e with
        | closed => exact .stopped (.inl rfl)
        | _ => exact .pausing
  | resume =>
    cases h
    exact .inl .ticking

/-! ## What is in a round -/

/-- A round rests once less than it polls records, and pushes all of them. -/
theorem Round.tells {round : Annals} (h : Round s round) :
    round.rests.length = round.records.length - 1 ∧ round.pushes = round.records.map s.deliver := by
  cases h with
  | @intro tick batch reading hreads time result hresult pushing hpushing =>
    have hrests : pushing.rests = [] := by
      rw [Annals.rests, Annals.pick_eq_filterMap _ hpushing]
      exact List.filterMap_eq_nil_iff.mpr fun _ _ => rfl
    have hrecords : pushing.records = [] := by
      rw [Annals.records, Annals.pick_eq_filterMap _ hpushing]
      exact List.filterMap_eq_nil_iff.mpr fun _ _ => rfl
    have hpushes : pushing.pushes = batch.map s.deliver := by
      rw [Annals.pushes, Annals.pick_eq_filterMap _ hpushing, ← List.filterMap_eq_map]
      rfl
    have hend : Annals.records [(time, .polled result)] = [] := by
      rcases result with e | _ | r
      · rfl
      · rfl
      · exact absurd rfl (hresult r)
    have hparts : (tick, .ticked) :: reading ++ (time, .polled result) :: pushing =
        [(tick, .ticked)] ++ reading ++ [(time, .polled result)] ++ pushing := by simp
    have hread : Annals.records ([(tick, .ticked)] ++ reading ++ [(time, .polled result)] ++ pushing) =
        batch := by
      rw [Annals.records_append, Annals.records_append, Annals.records_append, hreads.records_eq,
        hend, hrecords, List.append_nil, List.append_nil]
      rfl
    rw [hparts, hread, Annals.rests_append, Annals.rests_append, Annals.rests_append, hrests,
      Annals.pushes_append, Annals.pushes_append, Annals.pushes_append, hreads.pushes_eq, hpushes]
    refine ⟨?_, rfl⟩
    rw [← hreads.length_rests, List.append_nil, List.length_append, List.length_append]
    exact Nat.zero_add _

/-- The loop goes on with a round that it is in, behind rounds that are over. -/
def Told (s : IntakeSettings) (m : Shift σ Delayed) : Prop :=
  ∃ (rounds : List Annals) (current : Annals), (∀ round ∈ rounds, Round s round) ∧
    m.annals = rounds.flatten ++ current ∧ Underway s m.loop.phase current

variable {m : Shift σ Delayed}

theorem Told.next (h : Told s m) (o : Occurrence σ) : Told s (m.next (Delayed.watched s) o) := by
  cases o with
  | cluster | channel | fire => exact h
  | step =>
    rcases m.next_step_cases (Delayed.watched s) with hnext | ⟨d', f', hstep, hnext⟩ <;> rw [hnext]
    · exact h
    obtain ⟨rounds, current, hrounds, hannals, hunder⟩ := h
    rcases hunder.step (Delayed.does_of_step? hstep) with hgoes | ⟨hround, hdeeds, hgoes⟩
    · refine ⟨rounds, _, hrounds, ?_, hgoes⟩
      rw [hannals, List.append_assoc]
      rfl
    -- the round is over, and the next one has not begun
    · refine ⟨rounds ++ [current], [], ?_, ?_, hgoes⟩
      · exact List.forall_mem_append.mpr ⟨hrounds, List.forall_mem_singleton.mpr hround⟩
      · show m.annals ++ .moment _ (Delayed.deeds s m.fired m.loop m.feed) = _
        rw [hannals, hdeeds, List.flatten_append, List.flatten_singleton]
        rfl

omit [LogStore σ] in
/-- The last round could be brought to its end. -/
theorem Told.rounds (h : Told s m) :
    ∃ rounds : List Annals, (∀ round ∈ rounds, Round s round) ∧ m.annals <+: rounds.flatten := by
  obtain ⟨rounds, current, hrounds, hannals, hunder⟩ := h
  rcases hunder.completes with rfl | ⟨rest, hround⟩
  · rw [List.append_nil] at hannals
    exact ⟨rounds, hrounds, hannals ▸ List.prefix_refl _⟩
  · refine ⟨rounds ++ [current ++ rest], ?_, rest, ?_⟩
    · exact List.forall_mem_append.mpr ⟨hrounds, List.forall_mem_singleton.mpr hround⟩
    · rw [hannals, List.flatten_append, List.flatten_singleton, List.append_assoc]

omit [LogStore σ] in
/-- While it pushes a batch, the loop has last polled what has ended the batch. -/
theorem Told.polls_getLast? (h : Told s m) {batch : List Record} {failure : Option BrokerError}
    (hphase : m.loop.phase = .releasing batch failure) :
    m.annals.polls.getLast? = some (ending failure) := by
  obtain ⟨rounds, current, -, hannals, hunder⟩ := h
  rw [hphase] at hunder
  cases hunder with
  | @releasing tick done _ reading _ time _ pushing hpushing =>
    have hpolls : pushing.polls = [] := by
      rw [Annals.polls, Annals.pick_eq_filterMap _ hpushing]
      exact List.filterMap_eq_nil_iff.mpr fun _ _ => rfl
    have hparts : m.annals = rounds.flatten ++ (tick, .ticked) :: reading ++
        [(time, .polled (ending failure))] ++ pushing := by simp [hannals]
    rw [hparts, Annals.polls_append, hpolls, List.append_nil, Annals.polls_append]
    exact List.getLast?_concat

/-- The delayed loop stops when it is told to, or behind a batch that has ended because its consumer
is closed. -/
theorem Delayed.stops {d : Delayed} (h : m.loop.step? s m.fired m.feed = some (d, f'))
    (hstops : d.hasStopped = true) (hgoes : ¬ m.Ended) :
    m.loop.phase = .releasing [] (some .closed) ∧ Delayed.deeds s m.fired m.loop m.feed = [] := by
  have hdoes := Delayed.does_of_step? h
  generalize Delayed.deeds s m.fired m.loop m.feed = deeds at hdoes
  generalize m.loop.phase = phase at hdoes
  cases hdoes with
  | stop hcause => exact absurd hcause hgoes
  | @poll batch _ result =>
    rcases result with e | _ | r
    · cases hstops
    · cases hstops
    · cases batch <;> cases hstops
  | @released failure =>
    refine ⟨?_, rfl⟩
    rcases failure with _ | e
    · cases hstops
    · cases e
      case closed => rfl
      all_goals cases hstops
  | tick | pollOn | rest | push | lineUp | resume => cases hstops

/-! ## Whatever happens -/

theorem Primary.conveys (s : IntakeSettings) (f : Feed σ) (fired : Bool) (os : List (Occurrence σ)) :
    (({ loop := .ready, feed := f, fired } : Shift σ Primary).after (Primary.watched s) os).Conveys
      (Primary.watched s) s := by
  have hl := Primary.watched_faithful (σ := σ) s
  have hall := Shift.after_invariant (l := Primary.watched s)
    (I := fun m => m.Orderly (Primary.watched s) s ∧ m.Complete (Primary.watched s) s)
    (m := { loop := .ready, feed := f, fired }) os
    (fun m o _ hm => ⟨hm.1.next hl o, hm.2.next hl hm.1 (fun a' f' hstep hstops hgoes => ?_) o⟩)
    ⟨.start rfl, nofun⟩
  · exact hall.1.conveys hl hall.2
  · obtain ⟨hheld, hdeeds⟩ := Primary.stops hstep hstops hgoes
    refine ⟨hheld, ?_⟩
    show (m.annals ++ .moment _ (Primary.deeds s m.fired m.loop m.feed)).polls.getLast? = _
    rw [hdeeds, Annals.polls_append]
    exact List.getLast?_concat

theorem Delayed.conveys (s : IntakeSettings) (f : Feed σ) (fired : Bool) (due : Nat)
    (os : List (Occurrence σ)) :
    (({ loop := { due }, feed := f, fired } : Shift σ Delayed).after (Delayed.watched s) os).Conveys
        (Delayed.watched s) s ∧
      Told s (({ loop := { due }, feed := f, fired } : Shift σ Delayed).after (Delayed.watched s) os) := by
  have hl := Delayed.watched_faithful (σ := σ) s
  have hall := Shift.after_invariant (l := Delayed.watched s)
    (I := fun m => m.Orderly (Delayed.watched s) s ∧ m.Complete (Delayed.watched s) s ∧ Told s m)
    (m := { loop := { due }, feed := f, fired }) os
    (fun m o _ hm => ⟨hm.1.next hl o,
      hm.2.1.next hl hm.1 (fun a' f' hstep hstops hgoes => ?_) o, hm.2.2.next o⟩)
    ⟨.start rfl, nofun, [], [], nofun, rfl, .ticking⟩
  · exact ⟨hall.1.conveys hl hall.2.1, hall.2.2⟩
  · obtain ⟨hphase, hdeeds⟩ := Delayed.stops hstep hstops hgoes
    have hheld : m.loop.phase.held = [] := by
      rw [hphase]
      rfl
    refine ⟨hheld, ?_⟩
    show (m.annals ++ .moment _ (Delayed.deeds s m.fired m.loop m.feed)).polls.getLast? = _
    rw [hdeeds, Annals.moment, List.map_nil, List.append_nil]
    exact hm.2.2.polls_getLast? hphase

/-- Both loops do what is promised, at every moment and whatever happens: whatever the polls of their
consumers come to, whatever becomes of the channel, and whenever the token fires. The delayed loop
works in rounds; a round is a tick, a batch with a rest of one period behind each record but the first
one, a poll that finds nothing or fails, and the pushes of all of the batch. -/
theorem intake_conveys (s : IntakeSettings) (f : Feed σ) (fired : Bool) (os : List (Occurrence σ)) :
    (({ loop := .ready, feed := f, fired } : Shift σ Primary).after (Primary.watched s) os).Conveys
        (Primary.watched s) s ∧
      ∀ due, let m :=
          ({ loop := { due }, feed := f, fired } : Shift σ Delayed).after (Delayed.watched s) os
        m.Conveys (Delayed.watched s) s ∧
          ∃ rounds : List Annals, m.annals <+: rounds.flatten ∧ ∀ round ∈ rounds, Round s round ∧
            round.rests.length = round.records.length - 1 ∧
            round.pushes = round.records.map s.deliver := by
  refine ⟨Primary.conveys s f fired os, fun due => ?_⟩
  obtain ⟨hconveys, htold⟩ := Delayed.conveys s f fired due os
  obtain ⟨rounds, hrounds, hprefix⟩ := htold.rounds
  exact ⟨hconveys, rounds, hprefix, fun round hround =>
    ⟨hrounds round hround, (hrounds round hround).tells⟩⟩

end WorkQueue
