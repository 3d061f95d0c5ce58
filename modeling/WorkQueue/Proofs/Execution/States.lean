import WorkQueue.Proofs.Execution.Steps

/-!
# The state of an entry in execution

An execution finds its entry queued, executes it from its first step on, through every wait and every
rest between two publishes, and ends in a terminal state.

## Main definitions

* `Execution.Regular`: the state fits the stage

## Main statements

* `Execution.regular_step?`: every step keeps it so
* `Execution.Regular.isTerminal_iff`: the state is terminal if and only if there is something to
  report
-/

namespace WorkQueue

namespace Execution

/-- The state of an execution fits its stage. -/
def Regular (x : Execution) : Prop :=
  match x.stage with
  | .fresh => x.state = .queued
  | .handling .. => x.state = .executing
  | .sending p | .resting p _ => x.state = .executing ∧ p.delivered.isTerminal = true
  | .settled _ => x.state.isTerminal = true

variable {exe : Executor} {x : Execution} {π : Type} {now : Nat} {publish : Publish π}
  {b : Workbench π} {next : Execution × Workbench π}

theorem regular_start (record : Record) : (start record .queued).Regular := rfl

/-- Only an execution that has ended has something to report. -/
theorem Regular.isTerminal_iff (h : x.Regular) :
    x.state.isTerminal = true ↔ ∃ r, x.resolution? = some r := by
  unfold Regular at h
  unfold resolution?
  cases hx : x.stage with
  | fresh =>
    simp only [hx] at h
    simp [h, EntryState.isTerminal]
  | handling handler p =>
    simp only [hx] at h
    simp [h, EntryState.isTerminal]
  | sending p =>
    simp only [hx] at h
    simp [h.1, EntryState.isTerminal]
  | resting p wake =>
    simp only [hx] at h
    simp [h.1, EntryState.isTerminal]
  | settled error =>
    simp only [hx] at h
    simp [h]

/-! ## Steps -/

theorem regular_settle (x : Execution) {state : EntryState} (h : state.isTerminal = true)
    (error : Option String) : (x.settle state error).Regular := by
  show (EntryState.moveTo state x.state).isTerminal = true
  unfold EntryState.moveTo
  split
  · assumption
  · exact h

theorem regular_conclude (hx : x.state = .executing) (now : Nat) (seen : Bool) (e : Envelope)
    (outcome : Except DispatchError Unit) : (x.conclude exe now seen e outcome).Regular := by
  unfold conclude carryOut
  dsimp only
  -- by the decision: success, cancellation, skip, retry, and the end of the retries
  split
  · exact regular_settle x rfl none
  · exact regular_settle x rfl _
  · exact regular_settle x rfl _
  · exact ⟨hx, rfl⟩
  · split
    · exact regular_settle x rfl _
    · exact ⟨hx, rfl⟩

theorem regular_follow (hx : x.state = .executing) (now : Nat) (e : Envelope) (handler : String)
    (progress : Progress) (seen : Bool) : (x.follow exe now e handler progress seen).Regular := by
  unfold follow
  split
  · exact regular_conclude hx now _ _ _
  · split
    · exact regular_settle x rfl none
    · exact hx

theorem regular_dispatch (hx : x.state = .queued) (now : Nat) (b : Workbench π) :
    (x.dispatch exe now b).1.Regular := by
  have hstate : EntryState.moveTo .executing x.state = .executing := by
    rw [hx]
    rfl
  unfold dispatch
  dsimp only
  split
  · exact regular_settle _ rfl _
  · split
    · exact regular_conclude hstate now _ _ _
    · exact regular_follow hstate now _ _ _ _

theorem regular_send {p : Publication} (hx : x.state = .executing)
    (hp : p.delivered.isTerminal = true) (now : Nat) (publish : Publish π) (b : Workbench π) :
    (x.send exe now publish p b).1.Regular := by
  unfold send
  dsimp only
  split
  · exact regular_settle x hp _
  · split
    · exact regular_settle x rfl _
    · exact ⟨hx, hp⟩

/-- Every step leaves the entry in a state that fits. -/
theorem regular_step? (h : x.Regular) (hnext : x.step? exe now publish b = some next) :
    next.1.Regular := by
  unfold Regular at h
  cases stepped_of_step? hnext with
  | dispatched hx =>
    simp only [hx] at h
    exact regular_dispatch h now b
  | followed hx =>
    simp only [hx] at h
    exact regular_follow h now _ _ _ _
  | dropped => exact regular_settle x rfl none
  | sent hx =>
    simp only [hx] at h
    exact regular_send h.1 h.2 now publish b
  | abandoned => exact regular_settle x rfl _
  | rested hx =>
    simp only [hx] at h
    exact h

end Execution

end WorkQueue
