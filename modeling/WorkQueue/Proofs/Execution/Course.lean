import WorkQueue.Proofs.Execution.Steps

/-!
# The state of an execution tells what was published

An execution goes on step by step, and between two steps anything may happen around it: the token
fires, time passes, other tasks count and publish. Whatever happens, the state it ends in tells
which publish, if any, has gone through: a failure is one retry with the broker, a success and a
cancellation are nothing at all, and a record that was given up is at most its own envelope under
the dead-letter topic.

A course keeps book of an execution: beside it stand the publishes that went through, noted by the
producer itself, what the dispatch came to, and whether the token has been seen to fire. What an
execution sees of the token may be late, as it is when a wait and the token end at one moment.

## Main definitions

* `Publish.noting`: a producer that notes what it has taken
* `Course`, `Course.after`: an execution in changing surroundings, and its book
* `Tells`: what the state of an execution that has ended tells

## Main statements

* `Course.tells_of_resolution`: it tells this after every course
-/

namespace WorkQueue

/-! ## Courses -/

/-- A publish that went through. -/
structure Sent where
  topic : String
  key : String
  value : ByteArray

/-- Publish, and note what went through. -/
def Publish.noting {π : Type} (publish : Publish π) : Publish (π × List Sent) :=
  fun topic key value (producer, sent) =>
    match publish topic key value producer with
    | (.ok place, producer) => (.ok place, (producer, sent ++ [⟨topic, key, value⟩]))
    | (.error e, producer) => (.error e, (producer, sent))

/-- What a dispatch has come to once its handler's run has got to `progress`. -/
def Progress.outcome? (handler taskType : String) : Progress → Option (Except DispatchError Unit)
  | .ended ending => some (ending.outcome handler taskType)
  | .paused _ => none

/-- What the dispatch comes to if it ends in the next step. -/
def Execution.dispatched? (exe : Executor) (now : Nat) (x : Execution) (s : Surroundings) :
    Option (Except DispatchError Unit) :=
  match x.stage with
  | .fresh =>
    match Envelope.decode x.record.value with
    | .error _ => none
    | .ok e =>
      match exe.registry.route e with
      | .error cause => some (.error cause)
      | .ok (h, call) => (call.behavior.run now s).1.outcome? h.name e.taskType
  | .handling handler p =>
    match x.envelope, p.resume? now s with
    | some e, some (progress, _) => progress.outcome? handler e.taskType
    | _, _ => none
  | _ => none

/-- An execution, what it works with, and the book that is kept of it. -/
structure Course (π : Type) where
  execution : Execution
  bench : Workbench (π × List Sent)
  /-- What the dispatch came to, once it has ended. -/
  outcome : Option (Except DispatchError Unit) := none
  /-- Has the token been seen to fire? -/
  fired : Bool := false

/-- What happens in a course. -/
inductive Happening (π : Type) where
  /-- A step of the execution at a time, if it can take one. -/
  | step (now : Nat)
  /-- Others change the producer, the counters, and what can be seen of the token. -/
  | change (producer : π) (surroundings : Surroundings)

namespace Course

variable {π : Type}

/-- The publishes that went through. -/
def sent (c : Course π) : List Sent := c.bench.producer.2

/-- The course of an entry that is queued. -/
def start (record : Record) (producer : π) (surroundings : Surroundings) : Course π where
  execution := .start record .queued
  bench := { producer := (producer, []), surroundings }
  fired := surroundings.fired

/-- The course behind one thing that happens. -/
def act (exe : Executor) (publish : Publish π) (c : Course π) : Happening π → Course π
  | .step now =>
    match c.execution.step? exe now publish.noting c.bench with
    | none => c
    | some (execution, bench) =>
      let outcome := c.outcome.or (c.execution.dispatched? exe now c.bench.surroundings)
      { execution, bench, outcome, fired := c.fired || bench.surroundings.fired }
  | .change producer surroundings =>
    { c with
      bench := { c.bench with producer := (producer, c.bench.producer.2), surroundings }
      fired := c.fired || surroundings.fired }

/-- The course behind all that happens. -/
def after (exe : Executor) (publish : Publish π) (c : Course π) (all : List (Happening π)) :
    Course π :=
  all.foldl (act exe publish) c

end Course

/-- What the state of an execution that has ended tells about its dispatch and its publishes. -/
structure Tells (exe : Executor) (record : Record) (state : EntryState)
    (outcome : Option (Except DispatchError Unit)) (sent : List Sent) (fired : Bool) : Prop where
  terminal : state.isTerminal = true
  /-- A failure is one retry with the broker: the envelope with its counter raised, under the key of
  the record. -/
  failure_iff : state = .failure ↔
    ∃ e, Envelope.decode record.value = .ok e ∧
      sent = [⟨exe.delayedTopic, record.key, e.nextAttempt.encode⟩]
  success_iff : state = .success ↔ outcome = some (.ok ())
  success_sent : state = .success → sent = []
  canceled : state = .canceled → fired = true ∧ sent = []
  /-- What is given up is published as it was, if at all. -/
  skipped : state = .skipped → sent = [] ∨
    ∃ e topic, Envelope.decode record.value = .ok e ∧ exe.deadLetterTopic = some topic ∧
      sent = [⟨topic, record.key, e.encode⟩]

/-! ## What holds on the way -/

/-- A publication of a failed task: its retry, or the task itself for the dead-letter topic. -/
structure Publication.Fits (exe : Executor) (record : Record) (p : Publication) : Prop where
  key_eq : p.key = record.key
  role : ∃ e, Envelope.decode record.value = .ok e ∧
    (p.delivered = .failure ∧ p.topic = exe.delayedTopic ∧ p.value = e.nextAttempt.encode ∨
      p.delivered = .skipped ∧ exe.deadLetterTopic = some p.topic ∧ p.value = e.encode)

/-- What holds of an execution and its book at every moment: nothing has been published before the
end, and the dispatch has ended before anything is about to be published. -/
def Execution.Sound (exe : Executor) (outcome : Option (Except DispatchError Unit))
    (sent : List Sent) (fired : Bool) (x : Execution) : Prop :=
  match x.stage with
  | .fresh => x.state = .queued ∧ outcome = none ∧ sent = []
  | .handling .. =>
    x.state = .executing ∧ outcome = none ∧ sent = [] ∧
      ∃ e, x.envelope = some e ∧ Envelope.decode x.record.value = .ok e
  | .sending p | .resting p _ =>
    x.state = .executing ∧ (∃ cause, outcome = some (.error cause)) ∧ sent = [] ∧
      p.Fits exe x.record
  | .settled _ => Tells exe x.record x.state outcome sent fired

section Ends

variable {exe : Executor} {record : Record} {outcome : Option (Except DispatchError Unit)}
  {fired : Bool}

/-- A dispatch that ends well is told by a success. -/
theorem tells_success : Tells exe record .success (some (.ok ())) [] fired where
  terminal := rfl
  failure_iff := by simp
  success_iff := by simp
  success_sent := fun _ => rfl
  canceled := by simp
  skipped := by simp

/-- A task that is given up without a publish. -/
theorem tells_skipped (h : outcome ≠ some (.ok ())) :
    Tells exe record .skipped outcome [] fired where
  terminal := rfl
  failure_iff := by simp
  success_iff := by simp [h]
  success_sent := by simp
  canceled := by simp
  skipped := fun _ => .inl rfl

/-- A task that is torn down. -/
theorem tells_canceled (h : outcome ≠ some (.ok ())) :
    Tells exe record .canceled outcome [] true where
  terminal := rfl
  failure_iff := by simp
  success_iff := by simp [h]
  success_sent := by simp
  canceled := fun _ => ⟨rfl, rfl⟩
  skipped := by simp

/-- A publish that goes through is told by the state the publication was made for. The two roles
cannot be mixed up, since they have different topics. -/
theorem tells_delivered (hdead : exe.deadLetterTopic ≠ some exe.delayedTopic) {p : Publication}
    (hp : p.Fits exe record) (h : outcome ≠ some (.ok ())) :
    Tells exe record p.delivered outcome [⟨p.topic, p.key, p.value⟩] fired := by
  obtain ⟨e, he, ⟨hdelivered, htopic, hvalue⟩ | ⟨hdelivered, htopic, hvalue⟩⟩ := hp.role
  · rw [hdelivered, hp.key_eq, htopic, hvalue]
    exact {
      terminal := rfl
      failure_iff := by simp [he]
      success_iff := by simp [h]
      success_sent := by simp
      canceled := by simp
      skipped := by simp }
  -- the dead-letter publish is no retry, by its topic
  · have hne : p.topic ≠ exe.delayedTopic := fun heq => hdead (heq ▸ htopic)
    rw [hdelivered, hp.key_eq, hvalue]
    exact {
      terminal := rfl
      failure_iff := by simp [hne]
      success_iff := by simp [h]
      success_sent := by simp
      canceled := by simp
      skipped := fun _ => .inr ⟨e, p.topic, he, htopic, rfl⟩ }

end Ends

/-! ## What a step does -/

namespace Execution

variable {exe : Executor} {sent : List Sent} {fired : Bool} {x : Execution}

/-- Nothing is lost when the token fires later. -/
theorem Sound.token {outcome : Option (Except DispatchError Unit)}
    (h : x.Sound exe outcome sent fired) (seen : Bool) :
    x.Sound exe outcome sent (fired || seen) := by
  unfold Sound at h ⊢
  cases hx : x.stage with
  | settled error =>
    simp only [hx] at h ⊢
    exact { h with
      canceled := fun hstate => ⟨by rw [(h.canceled hstate).1, Bool.true_or], (h.canceled hstate).2⟩ }
  | _ => simpa only [hx] using h

/-- A state that an execution settles in is the state of its entry. -/
theorem sound_settle {outcome : Option (Except DispatchError Unit)} {state : EntryState}
    {error : Option String} (hx : x.state = .executing)
    (h : Tells exe x.record state outcome sent fired) :
    (x.settle state error).Sound exe outcome sent fired := by
  have hstate : EntryState.moveTo state x.state = state := by
    rw [hx]
    rfl
  show Tells exe x.record (EntryState.moveTo state x.state) outcome sent fired
  rw [hstate]
  exact h

/-- A task is canceled on its own word only if the token has fired. -/
theorem fired_of_underToken {d : Decision} {seen : Bool} {attempts limit : Nat}
    (h : d.underToken seen attempts limit = .cancel) : seen = true := by
  unfold Decision.underToken Decision.retryOrExhaust at h
  split at h
  · split at h <;> cases h
  · rename_i hcond
    simpa [h] using hcond

/-- A dispatch that has failed is never taken for a success. -/
theorem underToken_ne_succeed {cause : DispatchError} {seen : Bool} {attempts limit : Nat} :
    (Decision.ofOutcome (.error cause) attempts limit).underToken seen attempts limit ≠
      .succeed := by
  have hretry : Decision.retryOrExhaust attempts limit ≠ .succeed := by
    unfold Decision.retryOrExhaust
    split <;> simp
  have hof : Decision.ofOutcome (.error cause) attempts limit ≠ .succeed := by
    unfold Decision.ofOutcome
    dsimp only
    split
    · simp
    · split
      · simp
      · exact hretry
  unfold Decision.underToken
  split
  · exact hretry
  · exact hof

/-- Whatever a dispatch comes to, the execution goes on soundly from there. -/
theorem sound_conclude {now : Nat} {seen : Bool} {e : Envelope}
    {outcome : Except DispatchError Unit} (hx : x.state = .executing)
    (he : Envelope.decode x.record.value = .ok e) (hseen : seen = true → fired = true) :
    (x.conclude exe now seen e outcome).Sound exe (some outcome) [] fired := by
  cases outcome with
  | ok _ => exact sound_settle hx tells_success
  | error cause =>
    have hne : some (Except.error cause) ≠ some (Except.ok ()) := by simp
    unfold conclude carryOut
    dsimp only
    -- by the decision: success, cancellation, skip, retry, and the end of the retries
    split
    · next h => exact absurd h underToken_ne_succeed
    · next h =>
      rw [hseen (fired_of_underToken h)]
      exact sound_settle hx (tells_canceled hne)
    · exact sound_settle hx (tells_skipped hne)
    · exact ⟨hx, ⟨cause, rfl⟩, rfl, rfl, e, he, .inl ⟨rfl, rfl, rfl⟩⟩
    · split
      · exact sound_settle hx (tells_skipped hne)
      · next topic htopic => exact ⟨hx, ⟨cause, rfl⟩, rfl, rfl, e, he, .inr ⟨rfl, htopic, rfl⟩⟩

/-- From where a handler's run has got to, the execution goes on soundly. -/
theorem sound_follow {now : Nat} {seen : Bool} {e : Envelope} {handler : String}
    {progress : Progress} (hx : x.state = .executing) (henvelope : x.envelope = some e)
    (he : Envelope.decode x.record.value = .ok e) (hseen : seen = true → fired = true) :
    (x.follow exe now e handler progress seen).Sound exe (progress.outcome? handler e.taskType) []
      fired := by
  cases progress with
  | ended ending => exact sound_conclude hx he hseen
  | paused p =>
    unfold follow
    dsimp only
    split
    · next h =>
      rw [hseen h]
      exact sound_settle hx (tells_canceled (by simp [Progress.outcome?]))
    · exact ⟨hx, rfl, rfl, e, henvelope, he⟩

/-- Reading the record and dispatching its task. -/
theorem sound_dispatch {π : Type} {now : Nat} {b : Workbench π}
    (hx : x.stage = .fresh) (hstate : x.state = .queued)
    (hseen : (x.dispatch exe now b).2.surroundings.fired = true → fired = true) :
    (x.dispatch exe now b).1.Sound exe (x.dispatched? exe now b.surroundings) [] fired ∧
      (x.dispatch exe now b).2.producer = b.producer := by
  have hexecuting : EntryState.moveTo .executing x.state = .executing := by
    rw [hstate]
    rfl
  cases he : Envelope.decode x.record.value with
  | error cause =>
    -- there is no envelope, so nothing is dispatched and nothing can be published
    simp only [dispatch, dispatched?, hx, he]
    exact ⟨sound_settle hexecuting (tells_skipped (by simp)), trivial⟩
  | ok e =>
    cases hroute : exe.registry.route e with
    | error cause =>
      simp only [dispatch, dispatched?, hx, he, hroute] at hseen ⊢
      exact ⟨sound_conclude hexecuting he hseen, trivial⟩
    | ok found =>
      simp only [dispatch, dispatched?, hx, he, hroute] at hseen ⊢
      exact ⟨sound_follow hexecuting rfl he hseen, trivial⟩

/-- One publish: it goes through, or the task is given up, or a rest follows. -/
theorem sound_send {π : Type} {now : Nat} {publish : Publish π}
    {b : Workbench (π × List Sent)} {p : Publication}
    {outcome : Option (Except DispatchError Unit)}
    (hdead : exe.deadLetterTopic ≠ some exe.delayedTopic) (hstate : x.state = .executing)
    (houtcome : ∃ cause, outcome = some (.error cause)) (hsent : b.producer.2 = [])
    (hp : p.Fits exe x.record) :
    (x.send exe now publish.noting p b).1.Sound exe outcome
      (x.send exe now publish.noting p b).2.producer.2 fired := by
  obtain ⟨cause, rfl⟩ := houtcome
  have hne : some (Except.error cause) ≠ some (Except.ok ()) := by simp
  rcases hpublish : publish p.topic p.key p.value b.producer.1 with ⟨_ | place, producer⟩
  · simp only [send, Publish.noting, hpublish, hsent]
    split
    · exact sound_settle hstate (tells_skipped hne)
    · exact ⟨hstate, ⟨cause, rfl⟩, rfl, ⟨hp.key_eq, hp.role⟩⟩
  · simp only [send, Publish.noting, hpublish, hsent, List.nil_append]
    exact sound_settle hstate (tells_delivered hdead hp hne)

/-- Each step of an execution is sound. -/
theorem Sound.step {π : Type} {now : Nat} {publish : Publish π}
    {b : Workbench (π × List Sent)} {outcome : Option (Except DispatchError Unit)}
    {next : Execution × Workbench (π × List Sent)}
    (hdead : exe.deadLetterTopic ≠ some exe.delayedTopic)
    (h : x.Sound exe outcome b.producer.2 fired)
    (hstep : x.step? exe now publish.noting b = some next) :
    next.1.Sound exe (outcome.or (x.dispatched? exe now b.surroundings)) next.2.producer.2
      (fired || next.2.surroundings.fired) := by
  have hseen : next.2.surroundings.fired = true →
      (fired || next.2.surroundings.fired) = true := by
    intro hb
    rw [hb, Bool.or_true]
  unfold Sound at h
  cases stepped_of_step? hstep with
  | dispatched hx =>
    simp only [hx] at h
    obtain ⟨hstate, rfl, hsent⟩ := h
    obtain ⟨hsound, hproducer⟩ := sound_dispatch hx hstate hseen
    rw [hproducer, hsent, Option.none_or]
    exact hsound
  | followed hx henvelope hresume =>
    simp only [hx] at h
    obtain ⟨hstate, rfl, hsent, e, henvelope', he⟩ := h
    obtain rfl := Option.some.inj (henvelope.symm.trans henvelope')
    simp only [dispatched?, hx, henvelope, hresume, Option.none_or, hsent]
    exact sound_follow hstate henvelope he hseen
  | dropped hx hwaits hfired =>
    simp only [hx] at h
    obtain ⟨hstate, rfl, hsent, e, henvelope, -⟩ := h
    -- the handler has not come back, so there is no outcome
    simp only [dispatched?, hx, henvelope, hwaits e henvelope, Option.none_or, hsent]
    rw [hseen hfired]
    exact sound_settle hstate (tells_canceled (by simp))
  | @sent p hx =>
    simp only [hx] at h
    obtain ⟨hstate, houtcome, hsent, hp⟩ := h
    have hdispatched : x.dispatched? exe now b.surroundings = none := by
      simp only [dispatched?, hx]
    rw [hdispatched, Option.or_none]
    exact sound_send hdead hstate houtcome hsent hp
  | abandoned hx hfired =>
    simp only [hx] at h
    obtain ⟨hstate, ⟨cause, rfl⟩, hsent, -⟩ := h
    rw [hsent, hseen hfired]
    exact sound_settle hstate (tells_canceled (by simp))
  | rested hx =>
    simp only [hx] at h
    obtain ⟨hstate, ⟨cause, rfl⟩, hsent, hp⟩ := h
    exact ⟨hstate, ⟨cause, rfl⟩, hsent, hp⟩

end Execution

/-! ## Whole courses -/

namespace Course

variable {π : Type} {exe : Executor} {publish : Publish π} {c : Course π} {record : Record}

/-- The course of a record stands soundly. -/
structure Sound (exe : Executor) (record : Record) (c : Course π) : Prop where
  record_eq : c.execution.record = record
  execution : c.execution.Sound exe c.outcome c.sent c.fired

theorem sound_start (record : Record) (producer : π) (surroundings : Surroundings) :
    (start record producer surroundings).Sound exe record :=
  ⟨rfl, rfl, rfl, rfl⟩

/-- Whatever happens next keeps a course sound. -/
theorem Sound.act (hdead : exe.deadLetterTopic ≠ some exe.delayedTopic) (h : c.Sound exe record)
    (next : Happening π) : (c.act exe publish next).Sound exe record := by
  cases next with
  | step now =>
    unfold Course.act
    dsimp only
    split
    · exact h
    · next hstep =>
      exact ⟨(Execution.record_step? hstep).trans h.record_eq, h.execution.step hdead hstep⟩
  | change producer surroundings => exact ⟨h.record_eq, h.execution.token _⟩

theorem Sound.after (hdead : exe.deadLetterTopic ≠ some exe.delayedTopic)
    (all : List (Happening π)) (h : c.Sound exe record) :
    (c.after exe publish all).Sound exe record := by
  induction all generalizing c with
  | nil => exact h
  | cons next rest ih => exact ih (h.act hdead next)

/-- If an execution ends, then its entry is in the state that is reported, which tells exactly what
has been published. This holds whatever happens around it, as long as the dead-letter topic is not
the delayed one. -/
theorem tells_of_resolution (exe : Executor) (publish : Publish π) (record : Record) (producer : π)
    (surroundings : Surroundings) (all : List (Happening π))
    (hdead : exe.deadLetterTopic ≠ some exe.delayedTopic) (r : Resolution)
    (h : ((start record producer surroundings).after exe publish all).execution.resolution? =
      some r) :
    let c := (start record producer surroundings).after exe publish all
    r.state = c.execution.state ∧ Tells exe record r.state c.outcome c.sent c.fired := by
  intro c
  have hsound : c.Sound exe record := (sound_start record producer surroundings).after hdead all
  have hexecution := hsound.execution
  unfold Execution.resolution? at h
  unfold Execution.Sound at hexecution
  split at h
  · next error hstage =>
    have hstate : r.state = c.execution.state := by
      rw [← Option.some.inj h]
    refine ⟨hstate, ?_⟩
    rw [hstate, ← hsound.record_eq]
    simpa only [c, hstage] using hexecution
  · cases h

/-- A task that no handler takes. Its first publish fails, and the one after a rest goes through. -/
theorem tells_of_unroutable :
    let exe : Executor := { registry := [], delayedTopic := "delayed", deadLetterTopic := some "dead"
                            retryLimit := 3, policy := .standard 5, budget := .ofSeconds 30
                            jitter := .middle }
    let publish : Publish Bool := fun _ _ _ up =>
      if up then (.ok (0, 0), true) else (.error (.transport "down"), true)
    let value : ByteArray := ⟨#[123, 34, 116, 121, 112, 101, 34, 58, 34, 97, 34, 125]⟩
    let record : Record := { topic := "tasks", partition := 0, offset := 7, key := "k", value }
    let c := (start record false ⟨false, []⟩).after exe publish
      [.step 0, .step 0, .change true ⟨false, [("other", 1)]⟩, .step 200, .step 200]
    exe.deadLetterTopic ≠ some exe.delayedTopic ∧
      ∃ r, c.execution.resolution? = some r ∧ r.state = .failure ∧
        Tells exe record r.state c.outcome c.sent c.fired := by
  intro exe publish value record c
  have hdead : exe.deadLetterTopic ≠ some exe.delayedTopic := by decide
  let r : Resolution := {
    topic := "tasks", partition := 0, offset := 7, taskType := some "a", executeCount := 0
    state := .failure, error := some "no handler registered for task type 'a'" }
  have hr : c.execution.resolution? = some r := by decide +kernel
  exact ⟨hdead, r, hr, rfl, (tells_of_resolution exe publish record _ _ _ hdead r hr).2⟩

end Course

/-- A configuration that is accepted keeps the two topics apart. -/
theorem Executor.deadLetterTopic_ofConfig {c : Config} (h : c.validate = .ok ())
    (registry : Registry) (policy : Option Policy) (jitter : Jitter) :
    (ofConfig registry c policy jitter).deadLetterTopic ≠
      some (ofConfig registry c policy jitter).delayedTopic := by
  intro (heq : c.deadLetterTopic = some c.delayedTopic)
  have hfault : c.firstFault ≠ none := by
    unfold Config.firstFault
    simp only [heq, or_true, if_true]
    repeat' split
    all_goals simp
  -- a configuration with a fault is not accepted
  unfold Config.validate at h
  split at h
  · cases h
  · next hnone => exact hfault hnone

end WorkQueue
