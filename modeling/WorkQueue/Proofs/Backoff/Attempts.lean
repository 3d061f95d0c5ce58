import Mathlib.Data.List.Chain
import WorkQueue.Backoff.Retry

/-!
# What trying again comes to

A run of the loop is told by its calls: which attempt each of them was told to be, when it began, and
what came of it. A call that fails is followed by the next one behind a wait, or the run ends with it,
in one of three ways. `Retry.Trace` has a constructor for each of these; every run leaves a trace, and
what holds of all runs is read off from traces by induction.

The operation reports what is known of cancellation at the end of each attempt. What it may report of
a token that fires at a given time, or never, leaves open which is noticed first where a wait ends in
the same instant.

## Main definitions

* `Retry.noting`: an operation that notes its calls
* `Retry.Trace`: how calls follow each other, and how they end
* `Retry.Heeds`: reports that agree with the time at which a token fires
* `Retry.Lawful`: what is promised of a run

## Main statements

* `Retry.loop_trace`: every run leaves a trace
* `Retry.run_lawful`: every run does what is promised
* `Retry.Lawful.spaced`: how far apart calls are by a fair jitter
-/

namespace WorkQueue

namespace Retry

variable {ε α σ : Type} {policy : Policy} {budget : Duration} {jitter : Jitter} {token : Option Nat}

/-! ## Calls -/

/-- A call of an operation. -/
structure Call (ε α : Type) where
  /-- The number of the attempt that the operation is told. -/
  argument : Nat
  began : Nat
  outcome : Attempt ε α

namespace Call

/-- The time that has gone by since the first call when this one is over. -/
def elapsed (c : Call ε α) (started : Nat) : Duration := ⟨c.outcome.finished - started⟩

/-- The time at which a wait behind a call is over. -/
def waited (c : Call ε α) (wait : Duration) : Nat := wakeUp c.outcome.finished wait

end Call

/-- The same operation, which notes its calls. -/
def noting (op : Nat → Nat → σ → Attempt ε α × σ) (attempt now : Nat) (s : σ × List (Call ε α)) :
    Attempt ε α × σ × List (Call ε α) :=
  let (a, s') := op attempt now s.1
  (a, s', s.2 ++ [⟨attempt, now, a⟩])

/-! ## Waits -/

/-- A wait takes its time, and what is missing to a whole millisecond. -/
theorem add_le_wakeUp (now : Nat) (wait : Duration) : now + wait.nanos ≤ wakeUp now wait := by
  simp only [wakeUp, Duration.timerMillis, Duration.nanosPerMilli]
  omega

/-- A wait is never over before it begins. -/
theorem le_wakeUp (now : Nat) (wait : Duration) : now ≤ wakeUp now wait := Nat.le_add_right ..

/-- A wait takes time unless it is empty. -/
theorem lt_wakeUp (now : Nat) {wait : Duration} (h : 0 < wait.nanos) : now < wakeUp now wait :=
  Nat.lt_of_lt_of_le (Nat.lt_add_of_pos_right h) (add_le_wakeUp now wait)

/-- A wait is the policy's delay as jitter has it, within the budget. -/
theorem wait?_eq_some_iff {attempt : Nat} {elapsed wait : Duration} :
    wait? policy budget jitter attempt elapsed = some wait ↔ attempt < attemptsAllowed policy ∧
      ∃ delay, policy.delay? attempt = some delay ∧ wait = jitter attempt delay ∧
        elapsed.nanos + wait.nanos ≤ budget.nanos := by
  unfold wait?
  by_cases hleft : attempt < attemptsAllowed policy
  · rw [if_pos hleft, and_iff_right hleft]
    cases policy.delay? attempt with
    | none => exact ⟨nofun, fun ⟨_, hdelay, _⟩ => nomatch hdelay⟩
    | some delay =>
      dsimp only
      constructor
      · intro h
        split at h
        · next hfits =>
          obtain rfl := Option.some.inj h
          exact ⟨delay, rfl, rfl, hfits⟩
        · cases h
      · rintro ⟨_, ⟨⟩, rfl, hfits⟩
        rw [if_pos hfits]
  · rw [if_neg hleft]
    exact ⟨nofun, fun h => absurd h.1 hleft⟩

/-- Below the number of attempts it allows a policy has a delay. -/
theorem exists_delay? {attempt : Nat} (hpos : 1 ≤ attempt) (hleft : attempt < attemptsAllowed policy) :
    ∃ delay, policy.delay? attempt = some delay := by
  have hle : attempt ≤ policy.attemptLimit := by
    unfold attemptsAllowed at hleft
    omega
  cases policy with
  | single => exact absurd hpos (by simpa [Policy.attemptLimit] using hle)
  | fixed attempts delay => exact ⟨delay, if_pos hle⟩
  | exponential attempts initial cap => exact ⟨_, if_pos hle⟩

/-- While attempts are left, there is no further one only for want of budget. -/
theorem budget_lt_of_wait?_eq_none {attempt : Nat} {elapsed : Duration} (hpos : 1 ≤ attempt)
    (hleft : attempt < attemptsAllowed policy) (h : wait? policy budget jitter attempt elapsed = none) :
    ∃ delay, policy.delay? attempt = some delay ∧
      budget.nanos < elapsed.nanos + (jitter attempt delay).nanos := by
  obtain ⟨delay, hdelay⟩ := exists_delay? hpos hleft
  refine ⟨delay, hdelay, Nat.lt_of_not_le fun hfits => ?_⟩
  have hsome := wait?_eq_some_iff.mpr ⟨hleft, delay, hdelay, rfl, hfits⟩
  rw [h] at hsome
  cases hsome

/-! ## Steps of the loop -/

section Steps

variable {op : Nat → Nat → σ → Attempt ε α × σ} {started left attempt now : Nat} {s s' : σ}
  {a : Attempt ε α} {e : ε} {wait : Duration}

theorem loop_of_ok {v : α} (hop : op attempt now s = (a, s')) (hresult : a.result = .ok v) :
    loop policy budget jitter op started left attempt now s = (.ok v, s') := by
  unfold loop
  simp only [hop, hresult]

theorem loop_of_exhausted (hop : op attempt now s = (a, s')) (hresult : a.result = .error e)
    (hwait : wait? policy budget jitter attempt ⟨a.finished - started⟩ = none) :
    loop policy budget jitter op started left attempt now s =
      (.error (.exhausted attempt e), s') := by
  unfold loop
  simp only [hop, hresult, hwait]

theorem loop_of_canceled (hop : op attempt now s = (a, s')) (hresult : a.result = .error e)
    (hwait : wait? policy budget jitter attempt ⟨a.finished - started⟩ = some wait)
    (hfired : a.firedBefore (wakeUp a.finished wait) = true) :
    loop policy budget jitter op started (left + 1) attempt now s = (.error .canceled, s') := by
  rw [loop]
  simp only [hop, hresult, hwait, hfired, if_true]

theorem loop_of_again (hop : op attempt now s = (a, s')) (hresult : a.result = .error e)
    (hwait : wait? policy budget jitter attempt ⟨a.finished - started⟩ = some wait)
    (hfired : a.firedBefore (wakeUp a.finished wait) = false) :
    loop policy budget jitter op started (left + 1) attempt now s =
      loop policy budget jitter op started left (attempt + 1) (wakeUp a.finished wait) s' := by
  rw [loop]
  simp only [hop, hresult, hwait, hfired, if_neg Bool.false_ne_true]

end Steps

/-! ## Traces -/

section Trace

variable (policy budget jitter) (started : Nat)

/-- The calls of a run, from one of them on, and what the run returns. -/
inductive Trace : List (Call ε α) → Except (RetryError ε) α → Prop where
  /-- The call succeeds. -/
  | success {c : Call ε α} {v : α} (hresult : c.outcome.result = .ok v) : Trace [c] (.ok v)
  /-- The call fails, and there is no wait for another one. -/
  | exhausted {c : Call ε α} {e : ε} (hresult : c.outcome.result = .error e)
      (hwait : wait? policy budget jitter c.argument (c.elapsed started) = none) :
      Trace [c] (.error (.exhausted c.argument e))
  /-- The call fails, and the wait for another one is cut short. -/
  | canceled {c : Call ε α} {e : ε} {wait : Duration} (hresult : c.outcome.result = .error e)
      (hwait : wait? policy budget jitter c.argument (c.elapsed started) = some wait)
      (hfired : c.outcome.firedBefore (c.waited wait) = true) : Trace [c] (.error .canceled)
  /-- The call fails, and behind a wait there is another one. -/
  | again {c next : Call ε α} {e : ε} {wait : Duration} {calls : List (Call ε α)}
      {answer : Except (RetryError ε) α} (hresult : c.outcome.result = .error e)
      (hwait : wait? policy budget jitter c.argument (c.elapsed started) = some wait)
      (hfired : c.outcome.firedBefore (c.waited wait) = false)
      (hargument : next.argument = c.argument + 1) (hbegan : next.began = c.waited wait)
      (rest : Trace (next :: calls) answer) : Trace (c :: next :: calls) answer

/-- Every run leaves a trace, from any of its attempts on: the first call noted is that attempt, all
calls are calls of the operation, and noting them changes nothing else. -/
theorem loop_trace (op : Nat → Nat → σ → Attempt ε α × σ) (left attempt now : Nat) (s : σ)
    (noted : List (Call ε α)) (hleft : attemptsAllowed policy ≤ attempt + left) :
    ∃ first calls answer s', first.argument = attempt ∧ first.began = now ∧
      (∀ c ∈ first :: calls, ∃ s, c.outcome = (op c.argument c.began s).1) ∧
      Trace policy budget jitter started (first :: calls) answer ∧
      loop policy budget jitter op started left attempt now s = (answer, s') ∧
      loop policy budget jitter (noting op) started left attempt now (s, noted) =
        (answer, s', noted ++ first :: calls) := by
  -- the loop takes one of its attempts at a time, and noting grows along with it
  induction left using Nat.strongRecOn generalizing attempt now s noted with
  | ind left ih =>
    rcases hop : op attempt now s with ⟨a, s'⟩
    let c : Call ε α := ⟨attempt, now, a⟩
    have hnoting : noting op attempt now (s, noted) = (a, s', noted ++ [c]) := by
      simp only [noting, hop, c]
    have hmade : ∀ c' ∈ [c], ∃ s, c'.outcome = (op c'.argument c'.began s).1 :=
      List.forall_mem_singleton.mpr ⟨s, by rw [hop]⟩
    cases hresult : a.result with
    | ok v =>
      exact ⟨c, [], _, _, rfl, rfl, hmade, .success hresult, loop_of_ok hop hresult,
        loop_of_ok hnoting hresult⟩
    | error e =>
      cases hwait : wait? policy budget jitter attempt (c.elapsed started) with
      | none =>
        exact ⟨c, [], _, _, rfl, rfl, hmade, .exhausted hresult hwait,
          loop_of_exhausted hop hresult hwait, loop_of_exhausted hnoting hresult hwait⟩
      | some wait =>
        -- the policy allows for another attempt, and so does the loop
        have hallowed := (wait?_eq_some_iff.mp hwait).1
        obtain ⟨left, rfl⟩ : ∃ further, left = further + 1 := ⟨left - 1, by omega⟩
        cases hfired : a.firedBefore (c.waited wait) with
        | true =>
          exact ⟨c, [], _, _, rfl, rfl, hmade, .canceled hresult hwait hfired,
            loop_of_canceled hop hresult hwait hfired, loop_of_canceled hnoting hresult hwait hfired⟩
        | false =>
          obtain ⟨first, calls, answer, s'', hargument, hbegan, hcalls, htrace, hplain, hnoted⟩ :=
            ih left (Nat.lt_succ_self left) (attempt + 1) (c.waited wait) s' (noted ++ [c]) (by omega)
          refine ⟨c, first :: calls, answer, s'', rfl, rfl, ?calls,
            .again hresult hwait hfired hargument hbegan htrace, ?plain, ?noted⟩
          case calls => exact List.forall_mem_append.mpr ⟨hmade, hcalls⟩
          case plain => exact (loop_of_again hop hresult hwait hfired).trans hplain
          case noted =>
            rw [List.append_assoc, List.singleton_append] at hnoted
            exact (loop_of_again hnoting hresult hwait hfired).trans hnoted

namespace Trace

variable {policy budget jitter started} {calls : List (Call ε α)} {c : Call ε α}
  {answer : Except (RetryError ε) α}

/-- Calls are numbered one by one. -/
theorem arguments (h : Trace policy budget jitter started calls answer) (hfirst : calls.head? = some c) :
    calls.map (·.argument) = List.range' c.argument calls.length := by
  induction h generalizing c with
  | success | exhausted | canceled =>
    obtain rfl := Option.some.inj hfirst
    rfl
  | again _ _ _ hargument _ _ ih =>
    obtain rfl := Option.some.inj hfirst
    rw [List.map_cons, ih rfl, hargument]
    exact List.range'_succ.symm

/-- No call beyond the number allowed is made. -/
theorem argument_le (h : Trace policy budget jitter started calls answer)
    (hfirst : calls.head? = some c) (hle : c.argument ≤ attemptsAllowed policy) :
    ∀ c' ∈ calls, c'.argument ≤ attemptsAllowed policy := by
  induction h generalizing c with
  | success | exhausted | canceled =>
    obtain rfl := Option.some.inj hfirst
    exact List.forall_mem_singleton.mpr hle
  | again _ hwait _ hargument _ _ ih =>
    obtain rfl := Option.some.inj hfirst
    have hleft := (wait?_eq_some_iff.mp hwait).1
    exact List.forall_mem_cons.mpr ⟨hle, ih rfl (by omega)⟩

/-- All calls but the last one fail. -/
theorem failed (h : Trace policy budget jitter started calls answer) :
    ∀ c ∈ calls.dropLast, ∃ e, c.outcome.result = .error e := by
  induction h with
  | success | exhausted | canceled => exact nofun
  | again hresult _ _ _ _ _ ih => exact List.forall_mem_cons.mpr ⟨⟨_, hresult⟩, ih⟩

/-- What a run returns is decided by its last call. -/
theorem last (h : Trace policy budget jitter started calls answer) :
    ∃ c, calls.getLast? = some c ∧ Trace policy budget jitter started [c] answer := by
  induction h with
  | success hresult => exact ⟨_, rfl, .success hresult⟩
  | exhausted hresult hwait => exact ⟨_, rfl, .exhausted hresult hwait⟩
  | canceled hresult hwait hfired => exact ⟨_, rfl, .canceled hresult hwait hfired⟩
  | again _ _ _ _ _ _ ih =>
    obtain ⟨c, hlast, hends⟩ := ih
    exact ⟨c, by rw [List.getLast?_cons_cons, hlast], hends⟩

/-- Between two calls there is a wait that is not cut short. -/
theorem chain (h : Trace policy budget jitter started calls answer) :
    calls.IsChain fun c next => ∃ wait,
      wait? policy budget jitter c.argument (c.elapsed started) = some wait ∧
        c.outcome.firedBefore (c.waited wait) = false ∧ next.began = c.waited wait := by
  induction h with
  | success | exhausted | canceled => exact .singleton _
  | again _ hwait hfired _ hbegan _ ih => exact .cons_cons ⟨_, hwait, hfired, hbegan⟩ ih

end Trace

end Trace

/-! ## Cancellation -/

/-- A report at the end of an attempt agrees with a token: a wait is cut short only if the token has
fired by its end, and it is if the token has fired before its end and the wait takes time. -/
structure Attempt.Heeds (a : Attempt ε α) (token : Option Nat) (wait : Duration) : Prop where
  of_firedBefore : a.firedBefore (wakeUp a.finished wait) = true →
    ∃ time, token = some time ∧ time ≤ wakeUp a.finished wait
  firedBefore : ∀ time, token = some time → time < wakeUp a.finished wait →
    a.finished < wakeUp a.finished wait → a.firedBefore (wakeUp a.finished wait) = true

/-- An operation reports what agrees with a token. -/
def Heeds (token : Option Nat) (policy : Policy) (jitter : Jitter)
    (op : Nat → Nat → σ → Attempt ε α × σ) : Prop :=
  ∀ attempt now s delay, policy.delay? attempt = some delay →
    (op attempt now s).1.Heeds token (jitter attempt delay)

/-- It does if it always reports the token itself. -/
theorem heeds_of_fired {op : Nat → Nat → σ → Attempt ε α × σ}
    (h : ∀ attempt now s, (op attempt now s).1.fired = token) : Heeds token policy jitter op := by
  intro attempt now s delay _
  have hfired := h attempt now s
  generalize (op attempt now s).1 = a at hfired ⊢
  have hle := le_wakeUp a.finished (jitter attempt delay)
  cases token with
  | none =>
    refine ⟨fun hcut => ?_, nofun⟩
    simp [Attempt.firedBefore, hfired] at hcut
  | some time =>
    constructor
    · intro hcut
      have hor : time ≤ a.finished ∨ time < wakeUp a.finished (jitter attempt delay) := by
        simpa [Attempt.firedBefore, hfired] using hcut
      exact ⟨time, rfl, by omega⟩
    · rintro _ ⟨⟩ hlt -
      simp [Attempt.firedBefore, hfired, hlt]

/-! ## Runs -/

/-- Behind a call a wait is begun: it is what jitter makes of the policy's delay, and it ends within
the budget. -/
def Call.Waits (c : Call ε α) (policy : Policy) (budget : Duration) (jitter : Jitter) (started : Nat)
    (wait : Duration) : Prop :=
  ∃ delay, policy.delay? c.argument = some delay ∧ wait = jitter c.argument delay ∧
    (c.elapsed started).nanos + wait.nanos ≤ budget.nanos

/-- What is promised of what a run returns, by its last call. -/
structure Answered (policy : Policy) (budget : Duration) (jitter : Jitter) (token : Option Nat)
    (started : Nat) (last : Call ε α) (answer : Except (RetryError ε) α) : Prop where
  ok : ∀ v, answer = .ok v ↔ last.outcome.result = .ok v
  /-- The run gives up with the last failure, and with attempts left only for want of budget. -/
  exhausted : ∀ n e, answer = .error (.exhausted n e) →
    n = last.argument ∧ last.outcome.result = .error e ∧
      (n < max 1 policy.attemptLimit → ∃ delay, policy.delay? n = some delay ∧
        budget.nanos < (last.elapsed started).nanos + (jitter n delay).nanos)
  /-- The run is canceled in a wait, by whose end the token has fired. -/
  canceled : answer = .error .canceled → ∃ wait, last.Waits policy budget jitter started wait ∧
    ∃ time, token = some time ∧ time ≤ last.waited wait

/-- A trace of one call is of this kind. -/
theorem Trace.answered {started : Nat} {last : Call ε α} {answer : Except (RetryError ε) α}
    (h : Trace policy budget jitter started [last] answer) (hpos : 1 ≤ last.argument)
    (hheeds : ∀ delay, policy.delay? last.argument = some delay →
      last.outcome.Heeds token (jitter last.argument delay)) :
    Answered policy budget jitter token started last answer := by
  cases h with
  | success hresult =>
    refine ⟨fun v => ?_, nofun, nofun⟩
    rw [hresult, Except.ok.injEq, Except.ok.injEq]
  | exhausted hresult hwait =>
    refine ⟨fun v => ⟨nofun, fun hok => ?_⟩, ?_, nofun⟩
    · rw [hresult] at hok
      cases hok
    · rintro _ _ ⟨⟩
      refine ⟨rfl, hresult, fun hleft => budget_lt_of_wait?_eq_none hpos ?_ hwait⟩
      rwa [attemptsAllowed, Nat.max_comm]
  | canceled hresult hwait hfired =>
    refine ⟨fun v => ⟨nofun, fun hok => ?_⟩, nofun, fun _ => ?_⟩
    · rw [hresult] at hok
      cases hok
    · obtain ⟨-, delay, hdelay, rfl, hfits⟩ := wait?_eq_some_iff.mp hwait
      exact ⟨_, ⟨delay, hdelay, rfl, hfits⟩, (hheeds delay hdelay).of_firedBefore hfired⟩

/-- What is promised of a run, of which these are the calls, and of what it returns. -/
structure Lawful (policy : Policy) (budget : Duration) (jitter : Jitter) (token : Option Nat)
    (started : Nat) (calls : List (Call ε α)) (answer : Except (RetryError ε) α) : Prop where
  arguments : calls.map (·.argument) = List.range' 1 calls.length
  atLeast : 1 ≤ calls.length
  atMost : calls.length ≤ max 1 policy.attemptLimit
  /-- The first call is made at once. -/
  first : (calls.head?.map (·.began)) = some started
  failed : ∀ c ∈ calls.dropLast, ∃ e, c.outcome.result = .error e
  /-- Each call waits for the one before, and it is not made if the token had fired when that wait
  began, unless there was nothing to wait for. -/
  paced : calls.IsChain fun c next => ∃ wait, c.Waits policy budget jitter started wait ∧
    next.began = c.waited wait ∧
      ∀ time, token = some time → time ≤ c.outcome.finished → wait.nanos = 0
  /-- The last call decides what is returned. -/
  answered : ∃ last, calls.getLast? = some last ∧ last.argument = calls.length ∧
    Answered policy budget jitter token started last answer

/-- Every run does what is promised, whatever the policy, the budget and the waits, whatever the
operation takes and returns, and whenever the token fires. -/
theorem run_lawful (policy : Policy) (budget : Duration) (jitter : Jitter)
    (op : Nat → Nat → σ → Attempt ε α × σ) (started : Nat) (s : σ)
    (hop : Heeds token policy jitter op) :
    ∃ calls answer s', run policy budget jitter op started s = (answer, s') ∧
      run policy budget jitter (noting op) started (s, []) = (answer, s', calls) ∧
      (∀ c ∈ calls, ∃ s, c.outcome = (op c.argument c.began s).1) ∧
      Lawful policy budget jitter token started calls answer := by
  have hallowed : attemptsAllowed policy = max 1 policy.attemptLimit := Nat.max_comm ..
  obtain ⟨first, further, answer, s', hargument, hbegan, hmade, htrace, hplain, hnoted⟩ :=
    loop_trace policy budget jitter started op (attemptsAllowed policy - 1) 1 started s [] (by omega)
  generalize hcalls : first :: further = calls at hmade htrace hnoted
  have hfirst : calls.head? = some first := by rw [← hcalls, List.head?_cons]
  have hpos : 1 ≤ calls.length := by
    rw [← hcalls]
    exact Nat.le_add_left ..
  have harguments := htrace.arguments hfirst
  rw [hargument] at harguments
  obtain ⟨last, hlast, hends⟩ := htrace.last
  have hmem := List.mem_of_getLast? hlast
  -- the arguments count up from one, so the last one is the number of calls
  have hnumber : last.argument = calls.length := by
    have hmap := congrArg List.getLast? harguments
    rw [List.getLast?_map, hlast, List.getLast?_range', if_neg (by omega)] at hmap
    exact (Option.some.inj hmap).trans (by omega)
  have hheeds : ∀ c ∈ calls, ∀ delay, policy.delay? c.argument = some delay →
      c.outcome.Heeds token (jitter c.argument delay) := by
    intro c hc delay hdelay
    obtain ⟨s, houtcome⟩ := hmade c hc
    rw [houtcome]
    exact hop c.argument c.began s delay hdelay
  refine ⟨calls, answer, s', hplain, hnoted, hmade, harguments, hpos, ?atMost, ?first, htrace.failed,
    ?paced, last, hlast, hnumber, hends.answered (by omega) (hheeds last hmem)⟩
  case atMost =>
    rw [← hnumber, ← hallowed]
    exact htrace.argument_le hfirst (by omega) last hmem
  case first => rw [hfirst, Option.map_some, hbegan]
  case paced =>
    refine htrace.chain.imp_of_mem_imp fun c next hc _ hwaits => ?_
    obtain ⟨wait, hwait, hunfired, hnext⟩ := hwaits
    obtain ⟨-, delay, hdelay, rfl, hfits⟩ := wait?_eq_some_iff.mp hwait
    refine ⟨_, ⟨delay, hdelay, rfl, hfits⟩, hnext, fun time htoken hle => ?_⟩
    -- a wait that takes time would have been cut short
    refine Nat.eq_zero_of_not_pos fun htakes => ?_
    have hlt := lt_wakeUp c.outcome.finished htakes
    have hfired := (hheeds c hc delay hdelay).firedBefore time htoken (Nat.lt_of_le_of_lt hle hlt) hlt
    rw [Call.waited, hfired] at hunfired
    cases hunfired

/-- An operation that fails twice in a millisecond each and would then succeed; the token fires in the
second wait. -/
def failing (attempt now : Nat) (_ : Unit) : Attempt String Nat × Unit :=
  (⟨if attempt ≤ 2 then .error "unreachable" else .ok attempt, now + 1000000, some 15000000⟩, ())

/-- The third attempt is not made. -/
theorem run_lawful_failing : ∃ calls : List (Call String Nat),
    Heeds (some 15000000) (.fixed 5 (.ofMillis 12)) .middle failing ∧
      Lawful (.fixed 5 (.ofMillis 12)) (.ofSeconds 1) .middle (some 15000000) 0 calls
        (.error .canceled) ∧
      calls.length = 2 := by
  have hheeds : Heeds (some 15000000) (.fixed 5 (.ofMillis 12)) .middle failing :=
    heeds_of_fired fun _ _ _ => rfl
  have hcanceled : (run (.fixed 5 (.ofMillis 12)) (.ofSeconds 1) .middle failing 0 ()).1 =
      .error .canceled := by decide +kernel
  have hlength : (run (.fixed 5 (.ofMillis 12)) (.ofSeconds 1) .middle (noting failing) 0
      ((), [])).2.2.length = 2 := by decide +kernel
  obtain ⟨calls, answer, s', hplain, hnoted, -, hlawful⟩ :=
    run_lawful _ (.ofSeconds 1) _ failing 0 () hheeds
  rw [hplain] at hcanceled
  rw [hnoted] at hlength
  exact ⟨calls, hheeds, hcanceled ▸ hlawful, hlength⟩

/-! ## Waits by a fair jitter -/

/-- By a fair jitter a wait takes at least half of the policy's delay, and no more than all of it. -/
theorem Call.Waits.between {c : Call ε α} {started : Nat} {wait : Duration}
    (h : c.Waits policy budget jitter started wait) (hfair : jitter.Fair) :
    ∃ delay, policy.delay? c.argument = some delay ∧ delay.nanos ≤ 2 * wait.nanos ∧
      wait.nanos ≤ delay.nanos := by
  obtain ⟨delay, hdelay, rfl, -⟩ := h
  exact ⟨delay, hdelay, hfair c.argument delay⟩

/-- By a fair jitter at least half of the policy's delay lies between the end of a call and the next
one. -/
theorem Lawful.spaced {started : Nat} {calls : List (Call ε α)} {answer : Except (RetryError ε) α}
    (h : Lawful policy budget jitter token started calls answer) (hfair : jitter.Fair) :
    calls.IsChain fun c next => ∃ delay, policy.delay? c.argument = some delay ∧
      2 * c.outcome.finished + delay.nanos ≤ 2 * next.began := by
  refine h.paced.imp fun c next hwaits => ?_
  obtain ⟨wait, hwait, hnext, -⟩ := hwaits
  obtain ⟨delay, hdelay, hhalf, -⟩ := hwait.between hfair
  have hover : c.outcome.finished + wait.nanos ≤ next.began := by
    rw [hnext]
    exact add_le_wakeUp c.outcome.finished wait
  exact ⟨delay, hdelay, by omega⟩

/-- So it does if waits are taken from the middle of the range. -/
theorem Lawful.spaced_middle {attempts : Nat} {delay : Duration} {started : Nat}
    {calls : List (Call ε α)} {answer : Except (RetryError ε) α}
    (h : Lawful (.fixed attempts delay) budget .middle token started calls answer) :
    calls.IsChain fun c next => 2 * c.outcome.finished + delay.nanos ≤ 2 * next.began := by
  refine (h.spaced Jitter.middle_fair).imp fun c next hspaced => ?_
  obtain ⟨delay', hdelay, hle⟩ := hspaced
  rw [Policy.delay?] at hdelay
  split at hdelay
  · obtain rfl := Option.some.inj hdelay
    exact hle
  · cases hdelay

end Retry

end WorkQueue
