import WorkQueue.Proofs.Envelope.RoundTrip
import WorkQueue.Proofs.Execution.Verdict

/-!
# The attempts at a task

A failed task is published again, and the record published is executed in its turn. So a task goes
through a sequence of attempts, each one at the record that the one before has published to the
delayed topic. The handlers may behave differently every time, and anything may happen around an
attempt; as long as publishing works and nobody cancels, the sequence ends by the retry limit.

## Main definitions

* `Service`: what all attempts have in common
* `Attempt`: the execution of one record, with all that happens around it
* `Lineage`: attempts of which each one is at what the one before has published
* `Envelope.retried`: a task after some retries

## Main statements

* `Lineage.retries_bounded`: how many attempts there are, and how each one ends
-/

namespace WorkQueue

/-! ## Envelopes along the way -/

namespace Envelope

/-- A task after some retries: the counter has been raised, all else is as it was. -/
def retried (e : Envelope) : Nat → Envelope
  | 0 => e
  | n + 1 => { e with executeCount := some (e.attempts + (n + 1)) }

variable (e : Envelope)

@[simp] theorem payload_retried (n : Nat) : (e.retried n).payload = e.payload := by
  cases n <;> rfl

@[simp] theorem attempts_retried (n : Nat) : (e.retried n).attempts = e.attempts + n := by
  cases n <;> rfl

/-- Below its limit the counter does not saturate. -/
theorem nextAttempt_retried {n : Nat} (h : e.attempts + n < countLimit) :
    (e.retried n).nextAttempt = e.retried (n + 1) := by
  have hmin : min ((e.retried n).attempts + 1) countLimit = e.attempts + (n + 1) := by
    rw [attempts_retried]
    omega
  unfold nextAttempt
  rw [hmin]
  cases n <;> rfl

end Envelope

/-! ## Attempts -/

/-- What all attempts at the tasks of a queue have in common. -/
structure Service (π : Type) where
  config : Config
  /-- The backoff of publishing again, if it is not the standard one. -/
  policy : Option Policy
  jitter : Jitter
  publish : Publish π
  validated : config.validate = .ok ()
  /-- The limit is a 32-bit word. -/
  limit_le : config.maxTaskRetries ≤ maxWord32
  succeeds : publish.Succeeds

/-- The execution of one record, with the handlers as they behave this time and all that happens
around it. -/
structure Attempt (π : Type) where
  registry : Registry
  record : Record
  producer : π
  surroundings : Surroundings
  happenings : List (Happening π)

namespace Service

variable {π : Type} (S : Service π)

/-- What a task that is out of retries leaves in the dead-letter topic, if there is one. -/
def deadLetters (key : String) (e : Envelope) : List Sent :=
  match S.config.deadLetterTopic with
  | none => []
  | some topic => [⟨topic, key, e.encode⟩]

end Service

namespace Attempt

variable {π : Type} (S : Service π) (a : Attempt π)

/-- What executes the record. -/
def executor : Executor := .ofConfig a.registry S.config S.policy S.jitter

/-- How the execution goes. -/
def course : Course π :=
  (Course.start a.record a.producer a.surroundings).after (a.executor S) S.publish a.happenings

/-- The same attempt, one step later. -/
def step (now : Nat) : Attempt π := { a with happenings := a.happenings ++ [.step now] }

/-- The execution has ended in a state, reported with a counter, and has published this much. -/
def Ended (state : EntryState) (count : Nat) (sent : List Sent) : Prop :=
  ∃ r, (a.course S).execution.resolution? = some r ∧ r.state = state ∧ r.executeCount = count ∧
    (a.course S).sent = sent

/-- The task has failed: there was no handler for it, or its handler has failed, panicked or asked
for a cancellation that nobody wanted. -/
def Failed : Prop :=
  ∃ cause, (a.course S).outcome = some (.error cause) ∧
    ∀ handler why, cause ≠ .invalidPayload handler why

/-- The record of the next attempt is what this one has published to the delayed topic. -/
def LeadsTo (b : Attempt π) : Prop :=
  ∃ s ∈ (a.course S).sent, s.topic = S.config.delayedTopic ∧
    b.record.topic = s.topic ∧ b.record.key = s.key ∧ b.record.value = s.value

end Attempt

/-- Attempts of which each one is at what the one before has published, in none of which the token
is seen to fire. -/
structure Lineage {π : Type} (S : Service π) (attempts : List (Attempt π)) : Prop where
  leads : ∀ i a b, attempts[i]? = some a → attempts[i + 1]? = some b → a.LeadsTo S b
  unfired : ∀ a ∈ attempts, (a.course S).fired = false

/-! ## One attempt -/

namespace Executor

variable {exe : Executor} {key : String} {e : Envelope} {o : Except DispatchError Unit}
  {state : EntryState} {sent : List Sent} {s : Sent}

/-- A failed task is tried again below the limit and given up at it. -/
theorem verdict_failed {cause : DispatchError}
    (h : ∀ handler why, cause ≠ .invalidPayload handler why) :
    exe.verdict key e (.error cause) =
      if e.attempts < exe.retryLimit then (.failure, [⟨exe.delayedTopic, key, e.nextAttempt.encode⟩])
      else match exe.deadLetterTopic with
        | none => (.skipped, [])
        | some topic => (.skipped, [⟨topic, key, e.encode⟩]) := by
  cases cause with
  | invalidPayload handler why => exact absurd rfl (h handler why)
  | unroutable | handlerFailed | panicked => rfl

/-- Only a failed task below the limit is published to the delayed topic. -/
theorem verdict_of_retry (hdead : exe.deadLetterTopic ≠ some exe.delayedTopic)
    (h : exe.verdict key e o = (state, sent)) (hs : s ∈ sent) (htopic : s.topic = exe.delayedTopic) :
    e.attempts < exe.retryLimit ∧ state = .failure ∧
      sent = [⟨exe.delayedTopic, key, e.nextAttempt.encode⟩] := by
  have hnothing : ∀ state', exe.verdict key e o ≠ (state', []) := by
    intro state' heq
    rw [(Prod.mk.inj (h.symm.trans heq)).2] at hs
    cases hs
  cases o with
  | ok _ => exact absurd rfl (hnothing _)
  | error cause =>
    have hfailed : ∀ handler why, cause ≠ .invalidPayload handler why := by
      rintro handler why rfl
      exact hnothing _ rfl
    rw [verdict_failed hfailed] at h hnothing
    split at h
    case isTrue hlt =>
      obtain ⟨rfl, rfl⟩ := Prod.mk.inj h
      exact ⟨hlt, rfl, rfl⟩
    case isFalse hge =>
      -- the dead-letter topic is another one
      rw [if_neg hge] at hnothing
      cases hletters : exe.deadLetterTopic with
      | none =>
        rw [hletters] at hnothing
        exact absurd rfl (hnothing _)
      | some topic =>
        rw [hletters] at h
        obtain ⟨-, rfl⟩ := Prod.mk.inj h
        obtain rfl := List.mem_singleton.mp hs
        exact absurd (hletters.trans (congrArg some htopic)) hdead

end Executor

namespace Attempt

variable {π : Type} {S : Service π} {a b : Attempt π} {e : Envelope}

theorem course_step (S : Service π) (a : Attempt π) (now : Nat) :
    (a.step now).course S = (a.course S).act (a.executor S) S.publish (.step now) := by
  unfold course Course.after step
  rw [List.foldl_append]
  rfl

/-- An attempt at a task goes as its outcome decides. -/
theorem decided (he : Envelope.decode a.record.value = .ok e) (hfired : (a.course S).fired = false) :
    (a.course S).Decided (a.executor S) a.record e :=
  Course.decided S.succeeds he _ _ _ hfired

/-- An attempt that has published to the delayed topic has ended as a failure below the limit. -/
theorem ended_of_retry (he : Envelope.decode a.record.value = .ok e)
    (hfired : (a.course S).fired = false) {s : Sent} (hs : s ∈ (a.course S).sent)
    (htopic : s.topic = S.config.delayedTopic) :
    e.attempts < S.config.maxTaskRetries ∧
      a.Ended S .failure e.attempts [⟨S.config.delayedTopic, a.record.key, e.nextAttempt.encode⟩] := by
  have hdecided := decided he hfired
  have hexecution := hdecided.execution
  have hdead := Executor.deadLetterTopic_ofConfig S.validated a.registry S.policy S.jitter
  -- nothing is published before the end
  have hended : ∃ r, (a.course S).execution.resolution? = some r := by
    unfold Execution.Decided at hexecution
    unfold Execution.resolution?
    split at hexecution
    · rw [hexecution.2.2] at hs
      cases hs
    · rw [hexecution.2.2.2] at hs
      cases hs
    · rw [hexecution.2.2.1] at hs
      cases hs
    · exact hexecution.elim
    · next hstage =>
      rw [hstage]
      exact ⟨_, rfl⟩
  obtain ⟨r, hr⟩ := hended
  obtain ⟨hcount, o, -, hverdict⟩ := hdecided.resolution hr
  obtain ⟨hlt, hstate, hsent⟩ := Executor.verdict_of_retry hdead hverdict hs htopic
  exact ⟨hlt, r, hr, hstate, hcount, hsent⟩

/-- A failed task is published once more below the limit, and given up at it. -/
theorem fate_of_failed {cause : DispatchError} (hcause : ∀ handler why, cause ≠ .invalidPayload handler why)
    {c : Course π} {r : Resolution} (hr : c.execution.resolution? = some r)
    (hcount : r.executeCount = e.attempts)
    (hverdict : (a.executor S).verdict a.record.key e (.error cause) = (r.state, c.sent)) :
    (e.attempts < S.config.maxTaskRetries →
      ∃ r, c.execution.resolution? = some r ∧ r.state = .failure ∧ r.executeCount = e.attempts ∧
        c.sent = [⟨S.config.delayedTopic, a.record.key, e.nextAttempt.encode⟩]) ∧
    (S.config.maxTaskRetries ≤ e.attempts →
      ∃ r, c.execution.resolution? = some r ∧ r.state = .skipped ∧ r.executeCount = e.attempts ∧
        c.sent = S.deadLetters a.record.key e) := by
  rw [Executor.verdict_failed hcause] at hverdict
  constructor
  · intro hlt
    rw [if_pos (show e.attempts < (a.executor S).retryLimit from hlt)] at hverdict
    obtain ⟨hstate, hsent⟩ := Prod.mk.inj hverdict
    exact ⟨r, hr, hstate.symm, hcount, hsent.symm⟩
  · intro hge
    rw [if_neg (show ¬ e.attempts < (a.executor S).retryLimit from Nat.not_lt.mpr hge)] at hverdict
    have hletters : (EntryState.skipped, S.deadLetters a.record.key e) = (r.state, c.sent) := by
      rw [← hverdict]
      show _ = match S.config.deadLetterTopic with
        | none => _
        | some topic => _
      unfold Service.deadLetters
      cases S.config.deadLetterTopic <;> rfl
    obtain ⟨hstate, hsent⟩ := Prod.mk.inj hletters
    exact ⟨r, hr, hstate.symm, hcount, hsent.symm⟩

/-- An attempt whose task has failed ends in its next step, if it has not ended before. -/
theorem Failed.step (h : a.Failed S) (he : Envelope.decode a.record.value = .ok e)
    (hfired : (a.course S).fired = false) (now : Nat) :
    (e.attempts < S.config.maxTaskRetries → (a.step now).Ended S .failure e.attempts
      [⟨S.config.delayedTopic, a.record.key, e.nextAttempt.encode⟩]) ∧
    (S.config.maxTaskRetries ≤ e.attempts → (a.step now).Ended S .skipped e.attempts
      (S.deadLetters a.record.key e)) := by
  obtain ⟨cause, houtcome, hcause⟩ := h
  obtain ⟨r, hr, hcount, hverdict⟩ :=
    (decided he hfired).settled_of_outcome S.succeeds houtcome now
  unfold Ended
  rw [course_step]
  exact fate_of_failed hcause hr hcount hverdict

/-- So it is for one that has ended. -/
theorem Failed.ended (h : a.Failed S) (he : Envelope.decode a.record.value = .ok e)
    (hfired : (a.course S).fired = false) {r : Resolution}
    (hr : (a.course S).execution.resolution? = some r) :
    (e.attempts < S.config.maxTaskRetries → a.Ended S .failure e.attempts
      [⟨S.config.delayedTopic, a.record.key, e.nextAttempt.encode⟩]) ∧
    (S.config.maxTaskRetries ≤ e.attempts → a.Ended S .skipped e.attempts
      (S.deadLetters a.record.key e)) := by
  obtain ⟨cause, houtcome, hcause⟩ := h
  obtain ⟨hcount, o, ho, hverdict⟩ := (decided he hfired).resolution hr
  obtain rfl := Option.some.inj (ho.symm.trans houtcome)
  exact fate_of_failed hcause hr hcount hverdict

end Attempt

/-! ## Whole lineages -/

namespace Lineage

variable {π : Type} {S : Service π} {attempts : List (Attempt π)} {first : Attempt π} {e : Envelope}

/-- Every attempt is at the task of the first one, under its key, the counter raised once for each
attempt in front of it. All of these are below the limit. -/
theorem carries (h : Lineage S attempts) (hfirst : attempts[0]? = some first)
    (he : Envelope.decode first.record.value = .ok e) (hfree : e.payload.floatFree = true) (i : Nat)
    {a : Attempt π} (ha : attempts[i]? = some a) :
    a.record.key = first.record.key ∧ Envelope.decode a.record.value = .ok (e.retried i) ∧
      (0 < i → e.attempts + i ≤ S.config.maxTaskRetries) := by
  induction i generalizing a with
  | zero =>
    obtain rfl := Option.some.inj (hfirst.symm.trans ha)
    exact ⟨rfl, he, fun hpos => absurd hpos (Nat.lt_irrefl 0)⟩
  | succ i ih =>
    have hlt : i < attempts.length := Nat.lt_of_succ_lt (List.getElem?_eq_some_iff.mp ha).1
    have hbefore : attempts[i]? = some attempts[i] := List.getElem?_eq_getElem hlt
    obtain ⟨hkey, hread, -⟩ := ih hbefore
    obtain ⟨s, hs, htopic, -, hakey, havalue⟩ := h.leads i _ a hbefore ha
    obtain ⟨hbelow, -, -, -, -, hsent⟩ :=
      Attempt.ended_of_retry hread (h.unfired _ (List.getElem_mem hlt)) hs htopic
    rw [hsent] at hs
    obtain rfl := List.mem_singleton.mp hs
    rw [Envelope.attempts_retried] at hbelow
    have hcount : e.attempts + i < Envelope.countLimit := Nat.lt_of_lt_of_le hbelow S.limit_le
    refine ⟨hakey.trans hkey, ?_, fun _ => hbelow⟩
    rw [havalue, ← Envelope.nextAttempt_retried e hcount]
    exact Envelope.decode_encode_nextAttempt hread (by rw [Envelope.payload_retried]; exact hfree)

/-- The raise of a counter below the limit. -/
theorem nextAttempt_eq (S : Service π) {i : Nat} (h : e.attempts + i < S.config.maxTaskRetries) :
    (e.retried i).nextAttempt = e.retried (i + 1) :=
  Envelope.nextAttempt_retried e (Nat.lt_of_lt_of_le h S.limit_le)

/-- All attempts but the last have ended as failures. -/
theorem ended_of_lt (h : Lineage S attempts) (hfirst : attempts[0]? = some first)
    (he : Envelope.decode first.record.value = .ok e) (hfree : e.payload.floatFree = true) {i : Nat}
    {a : Attempt π} (ha : attempts[i]? = some a) (hi : i + 1 < attempts.length) :
    e.attempts + i < S.config.maxTaskRetries ∧ a.Ended S .failure (e.attempts + i)
      [⟨S.config.delayedTopic, first.record.key, (e.retried (i + 1)).encode⟩] := by
  obtain ⟨hkey, hread, -⟩ := h.carries hfirst he hfree i ha
  obtain ⟨s, hs, htopic, -⟩ := h.leads i a _ ha (List.getElem?_eq_getElem hi)
  obtain ⟨hbelow, hended⟩ :=
    Attempt.ended_of_retry hread (h.unfired a (List.mem_of_getElem? ha)) hs htopic
  rw [Envelope.attempts_retried] at hbelow hended
  rw [nextAttempt_eq S hbelow, hkey] at hended
  exact ⟨hbelow, hended⟩

/-- How an attempt ends whose task has failed, in terms of the first one. -/
theorem fate (h : Lineage S attempts) (hfirst : attempts[0]? = some first)
    (he : Envelope.decode first.record.value = .ok e) (hfree : e.payload.floatFree = true) {i : Nat}
    {a b : Attempt π} (ha : attempts[i]? = some a)
    (hfate : Envelope.decode a.record.value = .ok (e.retried i) →
      ((e.retried i).attempts < S.config.maxTaskRetries → b.Ended S .failure (e.retried i).attempts
        [⟨S.config.delayedTopic, a.record.key, (e.retried i).nextAttempt.encode⟩]) ∧
      (S.config.maxTaskRetries ≤ (e.retried i).attempts → b.Ended S .skipped (e.retried i).attempts
        (S.deadLetters a.record.key (e.retried i)))) :
    (e.attempts + i < S.config.maxTaskRetries → b.Ended S .failure (e.attempts + i)
      [⟨S.config.delayedTopic, first.record.key, (e.retried (i + 1)).encode⟩]) ∧
    (S.config.maxTaskRetries ≤ e.attempts + i → b.Ended S .skipped (e.attempts + i)
      (S.deadLetters first.record.key (e.retried i))) := by
  obtain ⟨hkey, hread, -⟩ := h.carries hfirst he hfree i ha
  have hended := hfate hread
  rw [Envelope.attempts_retried, hkey] at hended
  refine ⟨fun hbelow => ?_, hended.2⟩
  rw [← nextAttempt_eq S hbelow]
  exact hended.1 hbelow

/-- The attempts at a task are bounded by the retry limit. Type, payload and key stay as they are and
the counter goes up by one each time, within its word; all attempts but the last end as failures. A
task that fails is tried again below the limit and given up at it, so a task that always fails comes
to exactly as many failures as there are retries left, and is then skipped, with its copy in the
dead-letter topic if there is one. -/
theorem retries_bounded (h : Lineage S attempts) (hfirst : attempts[0]? = some first)
    (he : Envelope.decode first.record.value = .ok e) (hfree : e.payload.floatFree = true) :
    attempts.length ≤ S.config.maxTaskRetries - e.attempts + 1 ∧
    (∀ i a, attempts[i]? = some a → a.record.key = first.record.key ∧
      Envelope.decode a.record.value = .ok (e.retried i) ∧ e.attempts + i ≤ maxWord32) ∧
    (∀ i a, attempts[i]? = some a → i + 1 < attempts.length →
      a.Ended S .failure (e.attempts + i)
        [⟨S.config.delayedTopic, first.record.key, (e.retried (i + 1)).encode⟩]) ∧
    (∀ i a, attempts[i]? = some a → a.Failed S → ∀ now,
      (e.attempts + i < S.config.maxTaskRetries → e.attempts + i + 1 ≤ maxWord32 ∧
        (a.step now).Ended S .failure (e.attempts + i)
          [⟨S.config.delayedTopic, first.record.key, (e.retried (i + 1)).encode⟩]) ∧
      (S.config.maxTaskRetries ≤ e.attempts + i → (a.step now).Ended S .skipped (e.attempts + i)
        (S.deadLetters first.record.key (e.retried i)))) ∧
    ((∀ a ∈ attempts, a.Failed S ∧ ∃ r, (a.course S).execution.resolution? = some r) →
      (∀ last, attempts.getLast? = some last →
        ∀ s ∈ (last.course S).sent, s.topic ≠ S.config.delayedTopic) →
      attempts.length = S.config.maxTaskRetries - e.attempts + 1 ∧
      ∀ i a, attempts[i]? = some a →
        (i < S.config.maxTaskRetries - e.attempts → a.Ended S .failure (e.attempts + i)
          [⟨S.config.delayedTopic, first.record.key, (e.retried (i + 1)).encode⟩]) ∧
        (i = S.config.maxTaskRetries - e.attempts →
          a.Ended S .skipped (max e.attempts S.config.maxTaskRetries)
            (S.deadLetters first.record.key (e.retried i)))) := by
  have hcounts : ∀ i a, attempts[i]? = some a → 0 < i → e.attempts + i ≤ S.config.maxTaskRetries :=
    fun i a ha => (h.carries hfirst he hfree i ha).2.2
  have hlength : 0 < attempts.length := (List.getElem?_eq_some_iff.mp hfirst).1
  have hlast : attempts[attempts.length - 1]? = some attempts[attempts.length - 1] :=
    List.getElem?_eq_getElem (Nat.sub_lt hlength Nat.zero_lt_one)
  have hlastCount := hcounts _ _ hlast
  have hword := S.limit_le
  refine ⟨by omega, ?_, ?_, ?_, ?_⟩
  · intro i a ha
    obtain ⟨hkey, hread, hcount⟩ := h.carries hfirst he hfree i ha
    refine ⟨hkey, hread, ?_⟩
    rcases Nat.eq_zero_or_pos i with rfl | hpos
    · exact (Envelope.readable_of_decode he).attempts_le
    · exact Nat.le_trans (hcount hpos) hword
  · exact fun i a ha hi => (h.ended_of_lt hfirst he hfree ha hi).2
  · intro i a ha hfailed now
    have hunfired := h.unfired a (List.mem_of_getElem? ha)
    have hended := h.fate hfirst he hfree ha fun hread => hfailed.step hread hunfired now
    exact ⟨fun hbelow => ⟨by omega, hended.1 hbelow⟩, hended.2⟩
  · intro hall hstop
    have hends : ∀ i a, attempts[i]? = some a →
        (e.attempts + i < S.config.maxTaskRetries → a.Ended S .failure (e.attempts + i)
          [⟨S.config.delayedTopic, first.record.key, (e.retried (i + 1)).encode⟩]) ∧
        (S.config.maxTaskRetries ≤ e.attempts + i → a.Ended S .skipped (e.attempts + i)
          (S.deadLetters first.record.key (e.retried i))) := by
      intro i a ha
      have hmem := List.mem_of_getElem? ha
      obtain ⟨hfailed, r, hr⟩ := hall a hmem
      exact h.fate hfirst he hfree ha fun hread => hfailed.ended hread (h.unfired a hmem) hr
    -- below the limit the last one would have published its retry
    have hgiven : S.config.maxTaskRetries ≤ e.attempts + (attempts.length - 1) := by
      by_contra hbelow
      obtain ⟨r, -, -, -, hsent⟩ := (hends _ _ hlast).1 (Nat.lt_of_not_le hbelow)
      have hmem : (⟨S.config.delayedTopic, first.record.key,
          (e.retried (attempts.length - 1 + 1)).encode⟩ : Sent) ∈
            (attempts[attempts.length - 1].course S).sent := by
        rw [hsent]
        exact List.mem_singleton.mpr rfl
      exact hstop _ (List.getLast?_eq_getElem?.trans hlast) _ hmem rfl
    refine ⟨by omega, fun i a ha => ⟨fun hi => (hends i a ha).1 (by omega), fun hi => ?_⟩⟩
    have hmax : max e.attempts S.config.maxTaskRetries = e.attempts + i := by omega
    rw [hmax]
    exact (hends i a ha).2 (by omega)

/-! ## A task that always fails -/

/-- Equality of what was sent is decided field by field. -/
instance : DecidableEq Sent := fun a b =>
  decidable_of_iff (a.topic = b.topic ∧ a.key = b.key ∧ a.value.data = b.value.data) <| by
    rw [← ByteArray.ext_iff]
    cases a
    cases b
    simp

/-- Two retries, a dead-letter topic, and a producer that takes everything. -/
def twice : Service Unit where
  config := { maxTaskRetries := 2, deadLetterTopic := some "dead" }
  policy := none
  jitter := .middle
  publish _ _ _ _ := (.ok (0, 0), ())
  validated := by decide +kernel
  limit_le := by decide
  succeeds _ _ _ _ := ⟨(0, 0), rfl⟩

/-- A task that has not been retried yet. -/
def crawl : Envelope := ⟨"crawl", .obj [("depth", .int 3)], none⟩

/-- An attempt whose handler, if there is one, shows a behavior. -/
def attemptAt (i : Nat) (behavior : Option Behavior) : Attempt Unit where
  registry := behavior.toList.map fun b => ⟨"h", fun _ => true, fun v => .ok ⟨v, b⟩⟩
  record := { topic := if i = 0 then "tasks" else "tasks-delayed-1", partition := 0, offset := i
              key := "k", value := (crawl.retried i).encode }
  producer := ()
  surroundings := ⟨false, []⟩
  happenings := [.step 0, .change () ⟨false, [("other", i)]⟩, .step 5, .step 5]

/-- Once there is no handler for it, then its handler panics behind a sleep, and then it asks for a
cancellation that nobody wanted. -/
def threeTimes : List (Attempt Unit) :=
  [attemptAt 0 none, attemptAt 1 (some (.sleep 5 (.finish .panicked))),
    attemptAt 2 (some (.finish (.returned (.error .canceled))))]

theorem lineage_threeTimes : Lineage twice threeTimes where
  leads i a b ha hb := by
    have hlt : i + 1 < 3 := (List.getElem?_eq_some_iff.mp hb).1
    have hsent : ∀ j < 2, ∀ a, threeTimes[j]? = some a → (a.course twice).sent =
        [⟨"tasks-delayed-1", "k", (crawl.retried (j + 1)).encode⟩] := by
      have hboth : ∀ j < 2, (threeTimes[j]?).map (fun a => (a.course twice).sent) =
          some [⟨"tasks-delayed-1", "k", (crawl.retried (j + 1)).encode⟩] := by decide +kernel
      intro j hj a ha
      have hone := hboth j hj
      rw [ha] at hone
      exact Option.some.inj hone
    have hrecord : b.record.topic = "tasks-delayed-1" ∧ b.record.key = "k" ∧
        b.record.value = (crawl.retried (i + 1)).encode := by
      match i, hlt with
      | 0, _ =>
        obtain rfl := Option.some.inj hb
        exact ⟨rfl, rfl, rfl⟩
      | 1, _ =>
        obtain rfl := Option.some.inj hb
        exact ⟨rfl, rfl, rfl⟩
    exact ⟨_, by rw [hsent i (by omega) a ha]; exact List.mem_singleton.mpr rfl, rfl, hrecord⟩
  unfired := by decide +kernel

/-- Two failures, and the third attempt gives the task up to the dead-letter topic. -/
theorem retries_bounded_threeTimes :
    threeTimes.length = twice.config.maxTaskRetries - crawl.attempts + 1 ∧
      (attemptAt 1 (some (.sleep 5 (.finish .panicked)))).Ended twice .failure 1
        [⟨"tasks-delayed-1", "k", (crawl.retried 2).encode⟩] ∧
      (attemptAt 2 (some (.finish (.returned (.error .canceled))))).Ended twice .skipped 2
        [⟨"dead", "k", (crawl.retried 2).encode⟩] := by
  have hread : Envelope.decode (attemptAt 0 none).record.value = .ok crawl := by decide +kernel
  obtain ⟨-, -, -, -, hwhole⟩ := retries_bounded lineage_threeTimes rfl hread rfl
  have houtcomes : threeTimes.map (fun a => (a.course twice).outcome) =
      [some (.error (.unroutable "crawl")), some (.error (.panicked "crawl")),
        some (.error (.handlerFailed "h" .canceled))] := by decide +kernel
  have hended : ∀ a ∈ threeTimes, (a.course twice).execution.resolution?.isSome = true := by
    decide +kernel
  have hfailed : ∀ a ∈ threeTimes, a.Failed twice := by
    intro a ha
    have hmem : (a.course twice).outcome ∈ threeTimes.map (fun a => (a.course twice).outcome) :=
      List.mem_map_of_mem ha
    rw [houtcomes] at hmem
    simp only [List.mem_cons, List.not_mem_nil, or_false] at hmem
    rcases hmem with hmem | hmem | hmem <;> exact ⟨_, hmem, fun _ _ heq => by cases heq⟩
  have hstop : ∀ last, threeTimes.getLast? = some last →
      ∀ s ∈ (last.course twice).sent, s.topic ≠ twice.config.delayedTopic := by
    intro last hlast
    obtain rfl := Option.some.inj hlast
    decide +kernel
  obtain ⟨hlength, hends⟩ := hwhole
    (fun a ha => ⟨hfailed a ha, Option.isSome_iff_exists.mp (hended a ha)⟩) hstop
  exact ⟨hlength, (hends 1 _ rfl).1 (by decide), (hends 2 _ rfl).2 rfl⟩

end Lineage

end WorkQueue
