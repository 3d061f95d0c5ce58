import WorkQueue.Proofs.Intake.Steps
import WorkQueue.Proofs.Queue.Lanes

/-!
# What an intake loop has done

An intake loop is watched while it works: whatever it does is noted with the time at which it does
it. In between the others go on in any way they like. They change the cluster, so that a poll may
find anything or fail with anything, and the clock, and the channel, which they can close but not open
again; and at some point the token fires.

## Main definitions

* `Annals`: what is noted of a loop
* `IntakeLoop`, `Primary.watched`, `Delayed.watched`: a loop and what its steps do
* `Shift`, `Shift.after`: a loop at work among others

## Main statements

* `Shift.next_step_cases`: a loop cannot go on, or takes a step that is noted
* `Shift.after_invariant`: what every occurrence keeps
-/

namespace WorkQueue

/-! ## Deeds -/

namespace Deed

/-- The result of a poll. -/
def result? : Deed → Option (Except BrokerError (Option Record))
  | polled result => some result
  | _ => none

/-- The record that a poll has handed out. -/
def record? : Deed → Option Record
  | polled (.ok (some r)) => some r
  | _ => none

/-- The time until which the loop has rested. -/
def wake? : Deed → Option Nat
  | rested wake => some wake
  | _ => none

/-- What has been pushed into the channel. -/
def delivery? : Deed → Option Delivery
  | pushed d => some d
  | _ => none

end Deed

/-- What a loop has done, and when, from the oldest deed on. -/
abbrev Annals := List (Nat × Deed)

namespace Annals

/-- What some of the deeds tell. -/
def pick {α : Type} (tell : Deed → Option α) (h : Annals) : List α := h.filterMap (tell ·.2)

/-- The results of all polls. -/
def polls (h : Annals) : List (Except BrokerError (Option Record)) := h.pick Deed.result?

/-- The records that polls have handed out. -/
def records (h : Annals) : List Record := h.pick Deed.record?

/-- The times until which the loop has rested in front of records. -/
def rests (h : Annals) : List Nat := h.pick Deed.wake?

/-- What has been pushed into the channel. -/
def pushes (h : Annals) : List Delivery := h.pick Deed.delivery?

/-- What has been done at one moment. -/
def moment (time : Nat) (deeds : List Deed) : Annals := deeds.map (time, ·)

@[simp] theorem pick_append {α : Type} (tell : Deed → Option α) (h h' : Annals) :
    pick tell (h ++ h') = h.pick tell ++ pick tell h' := List.filterMap_append

@[simp] theorem polls_append (h h' : Annals) : polls (h ++ h') = h.polls ++ polls h' :=
  pick_append ..

@[simp] theorem records_append (h h' : Annals) : records (h ++ h') = h.records ++ records h' :=
  pick_append ..

@[simp] theorem rests_append (h h' : Annals) : rests (h ++ h') = h.rests ++ rests h' :=
  pick_append ..

@[simp] theorem pushes_append (h h' : Annals) : pushes (h ++ h') = h.pushes ++ pushes h' :=
  pick_append ..

/-- The times do not matter for what deeds tell. -/
theorem pick_eq_filterMap {α β : Type} (tell : Deed → Option α) {h : Annals} {l : List β}
    {deed : β → Deed} (hdeeds : h.map (·.2) = l.map deed) :
    h.pick tell = l.filterMap (fun b => tell (deed b)) := by
  have hmap := congrArg (List.filterMap tell) hdeeds
  rwa [List.filterMap_map, List.filterMap_map] at hmap

end Annals

/-! ## A loop among others -/

variable {σ : Type}

/-- An intake loop, as far as it is watched. -/
structure IntakeLoop (σ loop : Type) where
  source : Source
  step? : Bool → loop → Feed σ → Option (loop × Feed σ)
  deeds : Bool → loop → Feed σ → List Deed
  /-- Records that have been polled and not been pushed. -/
  held : loop → List Record
  hasStopped : loop → Bool
  /-- The time up to which the loop may wait. -/
  wake? : loop → Option Nat

/-- A loop at work. -/
structure Shift (σ loop : Type) where
  loop : loop
  feed : Feed σ
  /-- The token has fired. -/
  fired : Bool := false
  annals : Annals := []

/-- What may happen next. -/
inductive Occurrence (σ : Type) where
  /-- The loop takes a step, if it need not wait. -/
  | step
  /-- Others do something to the cluster, or time passes. -/
  | cluster (change : Cluster σ → Cluster σ)
  /-- Others do something to the channel. -/
  | channel (change : Channel → Channel)
  /-- The token fires. -/
  | fire

/-- What others have made of a channel. They do not open it again. -/
def Channel.changed (change : Channel → Channel) (c : Channel) : Channel :=
  { change c with closed := c.closed || (change c).closed }

namespace Shift

variable {loop : Type}

/-- The next thing happens. -/
def next (l : IntakeLoop σ loop) (m : Shift σ loop) : Occurrence σ → Shift σ loop
  | .step =>
    match l.step? m.fired m.loop m.feed with
    | none => m
    | some (loop, feed) =>
      { m with
        loop, feed
        annals := m.annals ++ .moment m.feed.cluster.now (l.deeds m.fired m.loop m.feed) }
  | .cluster change => { m with feed := { m.feed with cluster := change m.feed.cluster } }
  | .channel change => { m with feed := { m.feed with channel := m.feed.channel.changed change } }
  | .fire => { m with fired := true }

/-- The loop cannot go on, or takes a step that is noted. -/
theorem next_step_cases (l : IntakeLoop σ loop) (m : Shift σ loop) :
    m.next l .step = m ∨ ∃ a' f', l.step? m.fired m.loop m.feed = some (a', f') ∧
      m.next l .step = { m with
        loop := a', feed := f'
        annals := m.annals ++ .moment m.feed.cluster.now (l.deeds m.fired m.loop m.feed) } := by
  cases hstep : l.step? m.fired m.loop m.feed with
  | none => exact .inl (by simp only [next, hstep])
  | some after => exact .inr ⟨after.1, after.2, rfl, by simp only [next, hstep]⟩

/-- One thing happens after the other. -/
def after (l : IntakeLoop σ loop) (m : Shift σ loop) (os : List (Occurrence σ)) : Shift σ loop :=
  os.foldl (next l) m

theorem after_append (l : IntakeLoop σ loop) (m : Shift σ loop) (os os' : List (Occurrence σ)) :
    m.after l (os ++ os') = (m.after l os).after l os' := List.foldl_append

/-- What every occurrence keeps holds behind all of them. -/
theorem after_invariant {l : IntakeLoop σ loop} {I : Shift σ loop → Prop} {m : Shift σ loop}
    (os : List (Occurrence σ)) (hnext : ∀ m, ∀ o ∈ os, I m → I (m.next l o)) (hm : I m) :
    I (m.after l os) := by
  induction os generalizing m with
  | nil => exact hm
  | cons o os ih =>
    obtain ⟨hfirst, hrest⟩ : (∀ m, I m → I (m.next l o)) ∧ ∀ m, ∀ o ∈ os, I m → I (m.next l o) :=
      ⟨fun m => hnext m o List.mem_cons_self, fun m o ho => hnext m o (List.mem_cons_of_mem _ ho)⟩
    exact ih hrest (hfirst m hm)

/-- A loop has been told to stop: the token has fired, or the receiver is gone. -/
def Ended (m : Shift σ loop) : Prop := m.fired = true ∨ m.feed.channel.closed = true

end Shift

/-! ## The two loops -/

variable [LogStore σ]

/-- The primary loop. -/
def Primary.watched (s : IntakeSettings) : IntakeLoop σ Primary where
  source := .primary
  step? := Primary.step? s
  deeds := Primary.deeds s
  held := Primary.held
  hasStopped := Primary.hasStopped
  wake? := Primary.due?

/-- The delayed loop. A poll of its own waits no longer than to the moment at which it has begun. -/
def Delayed.watched (s : IntakeSettings) : IntakeLoop σ Delayed where
  source := .delayed
  step? := Delayed.step? s
  deeds := Delayed.deeds s
  held d := d.phase.held
  hasStopped := Delayed.hasStopped
  wake? d :=
    match d.phase with
    | .draining _ p => some p.deadline
    | _ => d.due?

end WorkQueue
