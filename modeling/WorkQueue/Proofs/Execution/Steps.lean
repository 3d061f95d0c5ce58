import WorkQueue.Execution.Basic

/-!
# What a step of an execution leaves alone

An execution keeps to its record. It publishes at most once in a step, and does nothing else to the
producer. Its entry leaves the states that hold a commit back only in the step that ends the
execution.

## Main definitions

* `Execution.Stepped`: what a step can be

## Main statements

* `Execution.stepped_of_step?`: a step is nothing else
* `Execution.record_step?`, `Execution.stage_step?_ne_fresh`, `Execution.producer_step?`,
  `Execution.committable_of_step?`
-/

namespace WorkQueue

namespace Execution

variable {exe : Executor} {x : Execution} {π : Type} {now : Nat} {publish : Publish π}
  {b : Workbench π} {next : Execution × Workbench π}

/-! ## Steps -/

/-- What a step of an execution can be. -/
inductive Stepped (exe : Executor) (now : Nat) (publish : Publish π) (x : Execution)
    (b : Workbench π) : Execution × Workbench π → Prop where
  /-- The record is read, and its task dispatched. -/
  | dispatched (hx : x.stage = .fresh) : Stepped exe now publish x b (x.dispatch exe now b)
  /-- The handler goes on behind a wait. -/
  | followed {handler : String} {p : Paused} {e : Envelope} {progress : Progress}
      {s : Surroundings} (hx : x.stage = .handling handler p) (henvelope : x.envelope = some e)
      (hresume : p.resume? now b.surroundings = some (progress, s)) :
      Stepped exe now publish x b
        (x.follow exe now e handler progress s.fired, { b with surroundings := s })
  /-- The token has fired, and the handler that waits is dropped. -/
  | dropped {handler : String} {p : Paused} (hx : x.stage = .handling handler p)
      (hwaits : ∀ e, x.envelope = some e → p.resume? now b.surroundings = none)
      (hfired : b.surroundings.fired = true) :
      Stepped exe now publish x b (x.settle .canceled none, b)
  | sent {p : Publication} (hx : x.stage = .sending p) :
      Stepped exe now publish x b (x.send exe now publish p b)
  /-- The token has fired, and what was to be published again is given up. -/
  | abandoned {p : Publication} {wake : Nat} (hx : x.stage = .resting p wake)
      (hfired : b.surroundings.fired = true) :
      Stepped exe now publish x b (x.settle .canceled p.error, b)
  | rested {p : Publication} {wake : Nat} (hx : x.stage = .resting p wake) :
      Stepped exe now publish x b ({ x with stage := .sending p }, b)

/-- A step is nothing else. -/
theorem stepped_of_step? (h : x.step? exe now publish b = some next) :
    Stepped exe now publish x b next := by
  unfold step? at h
  split at h
  · next hx =>
    obtain rfl := Option.some.inj h
    exact .dispatched hx
  · next handler p hx =>
    split at h
    · next henvelope hresume =>
      obtain rfl := Option.some.inj h
      exact .followed hx henvelope hresume
    · next hneither =>
      split at h
      · next hfired =>
        obtain rfl := Option.some.inj h
        refine .dropped hx (fun e henvelope => ?_) hfired
        -- had the handler gone on, this would be another branch
        cases hresume : p.resume? now b.surroundings with
        | none => rfl
        | some found => exact absurd hresume (hneither e found.1 found.2 henvelope)
      · cases h
  · next p hx =>
    obtain rfl := Option.some.inj h
    exact .sent hx
  · next p wake hx =>
    split at h
    · next hfired =>
      obtain rfl := Option.some.inj h
      exact .abandoned hx hfired
    · split at h
      · obtain rfl := Option.some.inj h
        exact .rested hx
      · cases h
  · cases h

/-! ## The record -/

@[simp] theorem record_settle (x : Execution) (state : EntryState) (error : Option String) :
    (x.settle state error).record = x.record := rfl

@[simp] theorem record_conclude (x : Execution) (now : Nat) (seen : Bool) (e : Envelope)
    (outcome : Except DispatchError Unit) :
    (x.conclude exe now seen e outcome).record = x.record := by
  unfold conclude carryOut
  dsimp only
  split
  case h_5 => split <;> rfl
  all_goals rfl

@[simp] theorem record_follow (x : Execution) (now : Nat) (e : Envelope) (handler : String)
    (progress : Progress) (seen : Bool) :
    (x.follow exe now e handler progress seen).record = x.record := by
  unfold follow
  split
  · simp
  · split <;> rfl

@[simp] theorem record_dispatch (x : Execution) (now : Nat) (b : Workbench π) :
    (x.dispatch exe now b).1.record = x.record := by
  unfold dispatch
  dsimp only
  split
  · rfl
  · split <;> simp

@[simp] theorem record_send (x : Execution) (now : Nat) (publish : Publish π) (p : Publication)
    (b : Workbench π) : (x.send exe now publish p b).1.record = x.record := by
  unfold send
  dsimp only
  split
  · rfl
  · split <;> rfl

/-- An execution keeps to its record. -/
theorem record_step? (h : x.step? exe now publish b = some next) :
    next.1.record = x.record := by
  cases stepped_of_step? h with
  | dispatched => exact record_dispatch x now b
  | followed => exact record_follow x now ..
  | dropped => rfl
  | sent => exact record_send x now ..
  | abandoned => rfl
  | rested => rfl

/-! ## The stage -/

theorem stage_conclude_ne_fresh (x : Execution) (now : Nat) (seen : Bool) (e : Envelope)
    (outcome : Except DispatchError Unit) :
    (x.conclude exe now seen e outcome).stage ≠ .fresh := by
  unfold conclude carryOut
  dsimp only
  split
  case h_5 => split <;> exact fun hstage => Stage.noConfusion hstage
  all_goals exact fun hstage => Stage.noConfusion hstage

theorem stage_follow_ne_fresh (x : Execution) (now : Nat) (e : Envelope) (handler : String)
    (progress : Progress) (seen : Bool) :
    (x.follow exe now e handler progress seen).stage ≠ .fresh := by
  unfold follow
  split
  · exact stage_conclude_ne_fresh x now _ _ _
  · split <;> exact fun hstage => Stage.noConfusion hstage

theorem stage_dispatch_ne_fresh (x : Execution) (now : Nat) (b : Workbench π) :
    (x.dispatch exe now b).1.stage ≠ .fresh := by
  unfold dispatch
  dsimp only
  split
  · exact fun hstage => Stage.noConfusion hstage
  · split
    · exact stage_conclude_ne_fresh _ now _ _ _
    · exact stage_follow_ne_fresh _ now _ _ _ _

theorem stage_send_ne_fresh (x : Execution) (now : Nat) (publish : Publish π) (p : Publication)
    (b : Workbench π) : (x.send exe now publish p b).1.stage ≠ .fresh := by
  unfold send
  dsimp only
  split
  · exact fun hstage => Stage.noConfusion hstage
  · split <;> exact fun hstage => Stage.noConfusion hstage

/-- An execution is dispatched by its first step, and never again. -/
theorem stage_step?_ne_fresh (h : x.step? exe now publish b = some next) :
    next.1.stage ≠ .fresh := by
  cases stepped_of_step? h with
  | dispatched => exact stage_dispatch_ne_fresh x now b
  | followed => exact stage_follow_ne_fresh x now _ _ _ _
  | dropped => exact fun hstage => Stage.noConfusion hstage
  | sent => exact stage_send_ne_fresh x now _ _ _
  | abandoned => exact fun hstage => Stage.noConfusion hstage
  | rested => exact fun hstage => Stage.noConfusion hstage

/-! ## The producer -/

/-- A dispatch publishes nothing. -/
@[simp] theorem producer_dispatch (x : Execution) (now : Nat) (b : Workbench π) :
    (x.dispatch exe now b).2.producer = b.producer := by
  unfold dispatch
  dsimp only
  split
  · rfl
  · split <;> rfl

theorem producer_send (x : Execution) (now : Nat) (publish : Publish π) (p : Publication)
    (b : Workbench π) :
    (x.send exe now publish p b).2.producer = (publish p.topic p.key p.value b.producer).2 := by
  unfold send
  dsimp only
  split
  · rfl
  · split <;> rfl

/-- The producer is as it was, or one publish later. -/
theorem producer_step? (h : x.step? exe now publish b = some next) :
    next.2.producer = b.producer ∨
      ∃ topic key value, next.2.producer = (publish topic key value b.producer).2 := by
  cases stepped_of_step? h with
  | dispatched => exact .inl (producer_dispatch x now b)
  | followed => exact .inl rfl
  | dropped => exact .inl rfl
  | @sent p _ => exact .inr ⟨p.topic, p.key, p.value, producer_send x now publish p b⟩
  | abandoned => exact .inl rfl
  | rested => exact .inl rfl

/-! ## The state -/

/-- What is reported names the place of the record and the state of its entry. -/
theorem resolution?_eq_some {r : Resolution} (h : x.resolution? = some r) :
    r.topic = x.record.topic ∧ r.partition = x.record.partition ∧ r.offset = x.record.offset ∧
      r.state = x.state := by
  unfold resolution? at h
  split at h
  · rw [← Option.some.inj h]
    exact ⟨rfl, rfl, rfl, rfl⟩
  · cases h

theorem state_conclude {seen : Bool} {e : Envelope} {outcome : Except DispatchError Unit}
    (h : (x.conclude exe now seen e outcome).resolution? = none) :
    (x.conclude exe now seen e outcome).state = x.state := by
  unfold conclude carryOut at h ⊢
  dsimp only at h ⊢
  split at h
  · cases h
  · cases h
  · cases h
  · rfl
  · split at h
    · cases h
    · rfl

theorem state_follow {e : Envelope} {handler : String} {progress : Progress} {seen : Bool}
    (h : (x.follow exe now e handler progress seen).resolution? = none) :
    (x.follow exe now e handler progress seen).state = x.state := by
  unfold follow at h ⊢
  split at h
  · exact state_conclude h
  · split at h
    · cases h
    · next hseen => rw [if_neg hseen]

/-- A dispatch that does not end the execution leaves its entry executing, or where it was. -/
theorem state_dispatch (h : (x.dispatch exe now b).1.resolution? = none) :
    (x.dispatch exe now b).1.state = EntryState.moveTo .executing x.state := by
  unfold dispatch at h ⊢
  dsimp only at h ⊢
  split at h
  · cases h
  · split at h
    · rw [state_conclude h]
    · rw [state_follow h]

theorem state_send {p : Publication} (h : (x.send exe now publish p b).1.resolution? = none) :
    (x.send exe now publish p b).1.state = x.state := by
  unfold send at h ⊢
  dsimp only at h ⊢
  split at h
  · cases h
  · split at h
    · cases h
    · rfl

/-- While an execution goes on, its entry does not come to a state that may be committed. -/
theorem committable_of_step? (h : x.step? exe now publish b = some next)
    (hnone : next.1.resolution? = none) (hstate : next.1.state.isCommittable = true) :
    x.state.isCommittable = true := by
  cases stepped_of_step? h with
  | dispatched =>
    rw [state_dispatch hnone] at hstate
    cases hx : x.state <;>
      simp [hx, EntryState.moveTo, EntryState.isTerminal, EntryState.isCommittable] at hstate ⊢
  | followed =>
    rw [state_follow hnone] at hstate
    exact hstate
  | dropped => cases hnone
  | sent =>
    rw [state_send hnone] at hstate
    exact hstate
  | abandoned => cases hnone
  | rested => exact hstate

end Execution

end WorkQueue
