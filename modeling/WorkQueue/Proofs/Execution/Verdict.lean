import WorkQueue.Proofs.Execution.Course

/-!
# What a dispatch comes to decides the rest

As long as the token does not fire and every publish goes through, an execution has no choice once
its dispatch has ended: the outcome, the retry counter and the limit say in which state the entry
ends and what is published of the task.

## Main definitions

* `Executor.verdict`: the state of the entry and what is published
* `Execution.Decided`: what holds of an execution on the way there

## Main statements

* `Course.decided`: it holds after every course in which the token has not been seen to fire
* `Course.settled_of_outcome`: the dispatch is over one step before the execution, at most
-/

namespace WorkQueue

/-- The state of the entry, and what is published of its task, once the dispatch has come to an
outcome. -/
def Executor.verdict (exe : Executor) (key : String) (e : Envelope) :
    Except DispatchError Unit → EntryState × List Sent
  | .ok () => (.success, [])
  | .error (.invalidPayload ..) => (.skipped, [])
  | .error _ =>
    if e.attempts < exe.retryLimit then (.failure, [⟨exe.delayedTopic, key, e.nextAttempt.encode⟩])
    else match exe.deadLetterTopic with
      | none => (.skipped, [])
      | some topic => (.skipped, [⟨topic, key, e.encode⟩])

/-- Every publish goes through. -/
def Publish.Succeeds {π : Type} (publish : Publish π) : Prop :=
  ∀ topic key value producer, ∃ place, (publish topic key value producer).1 = .ok place

namespace Execution

variable {exe : Executor} {x : Execution} {e : Envelope} {sent : List Sent}
  {outcome : Option (Except DispatchError Unit)} {now : Nat}

/-- What holds of an execution and its book while the token has not fired: there is an outcome once
the dispatch has ended, and what follows is its verdict. -/
def Decided (exe : Executor) (e : Envelope) (outcome : Option (Except DispatchError Unit))
    (sent : List Sent) (x : Execution) : Prop :=
  match x.stage with
  | .fresh => x.state = .queued ∧ outcome = none ∧ sent = []
  | .handling .. => x.state = .executing ∧ x.envelope = some e ∧ outcome = none ∧ sent = []
  | .sending p =>
    x.state = .executing ∧ x.envelope = some e ∧ sent = [] ∧
      ∃ o, outcome = some o ∧
        exe.verdict x.record.key e o = (p.delivered, [⟨p.topic, p.key, p.value⟩])
  | .resting .. => False
  | .settled _ =>
    x.envelope = some e ∧ ∃ o, outcome = some o ∧ exe.verdict x.record.key e o = (x.state, sent)

theorem decided_settle {o : Except DispatchError Unit} {state : EntryState} {error : Option String}
    (hx : x.state = .executing) (henvelope : x.envelope = some e)
    (h : exe.verdict x.record.key e o = (state, sent)) :
    (x.settle state error).Decided exe e (some o) sent := by
  have hstate : EntryState.moveTo state x.state = state := by
    rw [hx]
    rfl
  refine ⟨henvelope, o, rfl, ?_⟩
  show exe.verdict x.record.key e o = (EntryState.moveTo state x.state, sent)
  rw [hstate, h]

theorem decided_publish {o : Except DispatchError Unit} {topic : String} {e' : Envelope}
    {state : EntryState} (error : Option String) (hx : x.state = .executing)
    (henvelope : x.envelope = some e)
    (h : exe.verdict x.record.key e o = (state, [⟨topic, x.record.key, e'.encode⟩])) :
    (x.publish now topic e' state error).Decided exe e (some o) [] :=
  ⟨hx, henvelope, rfl, o, rfl, h⟩

/-- A failed task is tried again, or it is out of retries. -/
theorem decided_retryOrExhaust {o : Except DispatchError Unit} (error : Option String)
    (hx : x.state = .executing) (henvelope : x.envelope = some e)
    (hverdict : exe.verdict x.record.key e o =
      if e.attempts < exe.retryLimit then
        (.failure, [⟨exe.delayedTopic, x.record.key, e.nextAttempt.encode⟩])
      else match exe.deadLetterTopic with
        | none => (.skipped, [])
        | some topic => (.skipped, [⟨topic, x.record.key, e.encode⟩])) :
    (x.carryOut exe now e (Decision.retryOrExhaust e.attempts exe.retryLimit) error).Decided exe e
      (some o) [] := by
  unfold Decision.retryOrExhaust
  split
  case isTrue hge =>
    rw [if_neg (Nat.not_lt.mpr hge)] at hverdict
    simp only [carryOut]
    cases htopic : exe.deadLetterTopic with
    | none =>
      rw [htopic] at hverdict
      exact decided_settle hx henvelope hverdict
    | some topic =>
      rw [htopic] at hverdict
      exact decided_publish error hx henvelope hverdict
  case isFalse hlt =>
    rw [if_pos (Nat.lt_of_not_le hlt)] at hverdict
    exact decided_publish error hx henvelope hverdict

/-- Before the token has fired, every failure but an unusable payload is one of the task. -/
theorem underToken_false {cause : DispatchError}
    (h : ∀ handler why, cause ≠ .invalidPayload handler why) (attempts limit : Nat) :
    (Decision.ofOutcome (.error cause) attempts limit).underToken false attempts limit =
      Decision.retryOrExhaust attempts limit := by
  have hretry : (Decision.retryOrExhaust attempts limit).underToken false attempts limit =
      Decision.retryOrExhaust attempts limit := ite_self _
  cases cause with
  | unroutable | panicked => exact hretry
  | invalidPayload handler why => exact absurd rfl (h handler why)
  | handlerFailed handler why =>
    cases why with
    | failed text => exact hretry
    | canceled => rfl

/-- Whatever a dispatch comes to, its verdict follows. -/
theorem decided_conclude (hx : x.state = .executing) (henvelope : x.envelope = some e)
    (o : Except DispatchError Unit) : (x.conclude exe now false e o).Decided exe e (some o) [] := by
  cases o with
  | ok _ => exact decided_settle hx henvelope rfl
  | error cause =>
    by_cases hpayload : ∃ handler why, cause = .invalidPayload handler why
    · obtain ⟨handler, why, rfl⟩ := hpayload
      exact decided_settle hx henvelope rfl
    · have hfailed : ∀ handler why, cause ≠ .invalidPayload handler why :=
        fun handler why heq => hpayload ⟨handler, why, heq⟩
      unfold conclude
      dsimp only
      rw [underToken_false hfailed]
      refine decided_retryOrExhaust _ hx henvelope ?_
      cases cause with
      | invalidPayload handler why => exact absurd rfl (hfailed handler why)
      | unroutable | handlerFailed | panicked => rfl

/-- From where a handler's run has got to, the execution goes on as decided. -/
theorem decided_follow (hx : x.state = .executing) (henvelope : x.envelope = some e)
    (handler : String) (progress : Progress) :
    (x.follow exe now e handler progress false).Decided exe e
      (progress.outcome? handler e.taskType) [] := by
  cases progress with
  | ended ending => exact decided_conclude hx henvelope _
  | paused p => exact ⟨hx, henvelope, rfl, rfl⟩

variable {π : Type}

/-- Reading the record and dispatching its task. -/
theorem decided_dispatch {b : Workbench π} (hx : x.stage = .fresh) (hstate : x.state = .queued)
    (he : Envelope.decode x.record.value = .ok e)
    (hfired : (x.dispatch exe now b).2.surroundings.fired = false) :
    (x.dispatch exe now b).1.Decided exe e (x.dispatched? exe now b.surroundings) [] := by
  have hexecuting : EntryState.moveTo .executing x.state = .executing := by
    rw [hstate]
    rfl
  cases hroute : exe.registry.route e with
  | error cause =>
    simp only [dispatch, dispatched?, hx, he, hroute] at hfired ⊢
    rw [hfired]
    exact decided_conclude hexecuting rfl _
  | ok found =>
    simp only [dispatch, dispatched?, hx, he, hroute] at hfired ⊢
    rw [hfired]
    exact decided_follow hexecuting rfl _ _

/-- A publish that goes through ends the execution in the state it was made for. -/
theorem send_noting {publish : Publish π} (hpublish : publish.Succeeds) (x : Execution)
    (p : Publication) (b : Workbench (π × List Sent)) :
    x.send exe now publish.noting p b = (x.settle p.delivered p.error,
      { b with producer := ((publish p.topic p.key p.value b.producer.1).2,
          b.producer.2 ++ [⟨p.topic, p.key, p.value⟩]) }) := by
  obtain ⟨place, hplace⟩ := hpublish p.topic p.key p.value b.producer.1
  have hpublished : publish p.topic p.key p.value b.producer.1 =
      (.ok place, (publish p.topic p.key p.value b.producer.1).2) := Prod.ext hplace rfl
  simp only [send, Publish.noting]
  rw [hpublished]

theorem decided_send {publish : Publish π} (hpublish : publish.Succeeds) {p : Publication}
    {b : Workbench (π × List Sent)} (hx : x.state = .executing) (henvelope : x.envelope = some e)
    (hsent : b.producer.2 = []) {o : Except DispatchError Unit}
    (hverdict : exe.verdict x.record.key e o = (p.delivered, [⟨p.topic, p.key, p.value⟩])) :
    (x.send exe now publish.noting p b).1.Decided exe e (some o)
      (x.send exe now publish.noting p b).2.producer.2 := by
  rw [send_noting hpublish, hsent]
  exact decided_settle hx henvelope hverdict

/-- Each step goes on as decided, unless it sees the token fire. -/
theorem Decided.step {publish : Publish π} (hpublish : publish.Succeeds)
    {b : Workbench (π × List Sent)} {next : Execution × Workbench (π × List Sent)}
    (he : Envelope.decode x.record.value = .ok e) (h : x.Decided exe e outcome b.producer.2)
    (hstep : x.step? exe now publish.noting b = some next)
    (hfired : next.2.surroundings.fired = false) :
    next.1.Decided exe e (outcome.or (x.dispatched? exe now b.surroundings)) next.2.producer.2 := by
  unfold Decided at h
  cases stepped_of_step? hstep with
  | dispatched hx =>
    simp only [hx] at h
    obtain ⟨hstate, rfl, hsent⟩ := h
    rw [producer_dispatch, hsent, Option.none_or]
    exact decided_dispatch hx hstate he hfired
  | followed hx henvelope hresume =>
    simp only [hx] at h
    obtain ⟨hstate, henvelope', rfl, hsent⟩ := h
    obtain rfl := Option.some.inj (henvelope.symm.trans henvelope')
    simp only [dispatched?, hx, henvelope, hresume, Option.none_or, hsent]
    dsimp only at hfired
    rw [hfired]
    exact decided_follow hstate henvelope _ _
  | dropped hx hwaits hdropped =>
    -- the token would have fired
    rw [hdropped] at hfired
    cases hfired
  | @sent p hx =>
    simp only [hx] at h
    obtain ⟨hstate, henvelope, hsent, o, rfl, hverdict⟩ := h
    exact decided_send hpublish hstate henvelope hsent hverdict
  | abandoned hx =>
    simp only [hx] at h
  | rested hx =>
    simp only [hx] at h

end Execution

namespace Course

variable {π : Type} {exe : Executor} {publish : Publish π} {c : Course π} {record : Record}
  {e : Envelope}

/-- Once the token has been seen to fire, this stays in the book. -/
theorem fired_act (h : c.fired = true) (next : Happening π) : (c.act exe publish next).fired = true := by
  cases next with
  | step now =>
    unfold Course.act
    dsimp only
    split
    · exact h
    · show (c.fired || _) = true
      rw [h, Bool.true_or]
  | change producer surroundings =>
    show (c.fired || surroundings.fired) = true
    rw [h, Bool.true_or]

/-- The execution of a record that can be read goes on as decided. -/
structure Decided (exe : Executor) (record : Record) (e : Envelope) (c : Course π) : Prop where
  record_eq : c.execution.record = record
  execution : c.execution.Decided exe e c.outcome c.sent

/-- Whatever happens next, unless the token is seen to fire. -/
theorem Decided.act (hpublish : publish.Succeeds) (he : Envelope.decode record.value = .ok e)
    (h : c.Decided exe record e) (next : Happening π)
    (hfired : (c.act exe publish next).fired = false) : (c.act exe publish next).Decided exe record e := by
  cases next with
  | step now =>
    unfold Course.act at hfired ⊢
    dsimp only at hfired ⊢
    split at hfired
    · exact h
    · next execution bench hstep =>
      have hunseen : bench.surroundings.fired = false := (Bool.or_eq_false_iff.mp hfired).2
      refine ⟨(Execution.record_step? hstep).trans h.record_eq, ?_⟩
      exact h.execution.step hpublish (by rw [h.record_eq]; exact he) hstep hunseen
  | change producer surroundings => exact ⟨h.record_eq, h.execution⟩

theorem decided_after (hpublish : publish.Succeeds) (he : Envelope.decode record.value = .ok e)
    (all : List (Happening π)) (h : c.fired = false → c.Decided exe record e)
    (hfired : (c.after exe publish all).fired = false) :
    (c.after exe publish all).Decided exe record e := by
  induction all generalizing c with
  | nil => exact h hfired
  | cons next rest ih =>
    refine ih (fun hnext => ?_) hfired
    have hbefore : c.fired = false := by
      cases hc : c.fired with
      | false => rfl
      | true =>
        rw [fired_act hc next] at hnext
        cases hnext
    exact (h hbefore).act hpublish he next hnext

/-- The execution of a record that can be read goes on as decided, as long as the token is not seen
to fire. -/
theorem decided (hpublish : publish.Succeeds) (he : Envelope.decode record.value = .ok e)
    (producer : π) (surroundings : Surroundings) (all : List (Happening π))
    (hfired : ((start record producer surroundings).after exe publish all).fired = false) :
    ((start record producer surroundings).after exe publish all).Decided exe record e :=
  decided_after hpublish he all (fun _ => ⟨rfl, rfl, rfl, rfl⟩) hfired

/-- What is reported of an execution that has ended is the verdict on what its dispatch came to. -/
theorem Decided.resolution (h : c.Decided exe record e) {r : Resolution}
    (hr : c.execution.resolution? = some r) : r.executeCount = e.attempts ∧
      ∃ o, c.outcome = some o ∧ exe.verdict record.key e o = (r.state, c.sent) := by
  have hexecution := h.execution
  unfold Execution.resolution? at hr
  split at hr
  · next error hstage =>
    simp only [Execution.Decided, hstage, h.record_eq] at hexecution
    obtain ⟨henvelope, o, houtcome, hverdict⟩ := hexecution
    rw [← Option.some.inj hr]
    refine ⟨?_, o, houtcome, hverdict⟩
    simp only [Execution.attempts, henvelope, Option.map_some, Option.getD_some]
  · cases hr

/-- The dispatch ends at most one step before the execution. -/
theorem Decided.settled_of_outcome (hpublish : publish.Succeeds) (h : c.Decided exe record e)
    {o : Except DispatchError Unit} (houtcome : c.outcome = some o) (now : Nat) :
    ∃ r, (c.act exe publish (.step now)).execution.resolution? = some r ∧
      r.executeCount = e.attempts ∧
      exe.verdict record.key e o = (r.state, (c.act exe publish (.step now)).sent) := by
  have htold : ∀ (c' : Course π) (r : Resolution), c'.Decided exe record e → c'.outcome = some o →
      c'.execution.resolution? = some r → r.executeCount = e.attempts ∧
        exe.verdict record.key e o = (r.state, c'.sent) := by
    intro c' r hc' hc'outcome hr
    obtain ⟨hcount, o', ho', hverdict⟩ := hc'.resolution hr
    obtain rfl := Option.some.inj (hc'outcome.symm.trans ho')
    exact ⟨hcount, hverdict⟩
  have hexecution := h.execution
  unfold Execution.Decided at hexecution
  cases hstage : c.execution.stage with
  | fresh =>
    simp only [hstage, houtcome] at hexecution
    exact absurd hexecution.2.1 (by simp)
  | handling =>
    simp only [hstage, houtcome] at hexecution
    exact absurd hexecution.2.2.1 (by simp)
  | resting => simp only [hstage] at hexecution
  | settled error =>
    have hstays : c.act exe publish (.step now) = c := by
      simp only [Course.act, Execution.step?, hstage]
    obtain ⟨r, hr⟩ : ∃ r, c.execution.resolution? = some r := by
      simp only [Execution.resolution?, hstage]
      exact ⟨_, rfl⟩
    rw [hstays]
    exact ⟨r, hr, htold c r h houtcome hr⟩
  | sending p =>
    simp only [hstage] at hexecution
    obtain ⟨hstate, henvelope, hsent, o', ho', hverdict⟩ := hexecution
    obtain rfl := Option.some.inj (houtcome.symm.trans ho')
    have hact : c.act exe publish (.step now) =
        { execution := (c.execution.send exe now publish.noting p c.bench).1
          bench := (c.execution.send exe now publish.noting p c.bench).2
          outcome := c.outcome
          fired := c.fired || (c.execution.send exe now publish.noting p c.bench).2.surroundings.fired } := by
      simp only [Course.act, Execution.step?, hstage, Execution.dispatched?, Option.or_none]
    have hdecided : (c.act exe publish (.step now)).Decided exe record e := by
      rw [hact]
      refine ⟨(Execution.record_send c.execution now _ _ _).trans h.record_eq, ?_⟩
      rw [houtcome]
      exact Execution.decided_send hpublish hstate henvelope hsent hverdict
    obtain ⟨r, hr⟩ : ∃ r, (c.act exe publish (.step now)).execution.resolution? = some r := by
      rw [hact, Execution.send_noting hpublish]
      exact ⟨_, rfl⟩
    exact ⟨r, hr, htold _ r hdecided (by rw [hact]; exact houtcome) hr⟩

end Course

end WorkQueue
