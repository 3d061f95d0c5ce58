import WorkQueue.Proofs.Cluster.Pace
import WorkQueue.Proofs.Execution.Steps
import WorkQueue.Proofs.Queue.Inversion

/-!
# Whom a step concerns

Whatever a process of a run does, it does by the consumers of its run: it polls, commits and
publishes, and it makes nobody leave but its own consumers, or one that has just joined. A token that
has fired stays so.

## Main definitions

* `Scene.Reaches`: the consumers that a step of a run may close
* `Scene.Manned`: it is known whom a run may close
* `Scene.Joined`: a launch that both consumers have come out of

## Main statements

* `Scene.acted_step?`, `Scene.acted_abort`: what a run does to the cluster
* `Scene.launch_cases`: what a launch leads to
* `Scene.fired_step?`: a token that has fired stays so
* `Scene.Manned.step`, `Scene.Manned.abort`: it stays known whom a run may close
-/

namespace WorkQueue

open Cluster

/-! ## The token -/

theorem Behavior.fired_run (now : Nat) (b : Behavior) {s : Surroundings} (h : s.fired = true) :
    (b.run now s).2.fired = true := by
  induction b generalizing s with
  | finish ending => exact h
  | sleep ms next ih =>
    rw [run]
    split
    · exact ih h
    · exact h
  | awaitCancel next ih =>
    rw [run, if_pos h]
    exact ih h
  | fireCancel next ih =>
    rw [run]
    exact ih rfl
  | flaky counter failures next ih =>
    rw [run]
    dsimp only
    split
    · exact h
    · exact ih h

namespace Execution

variable {exe : Executor} {x : Execution} {π : Type} {now : Nat} {publish : Publish π}
  {b : Workbench π} {next : Execution × Workbench π}

theorem fired_dispatch (h : b.surroundings.fired = true) :
    (x.dispatch exe now b).2.surroundings.fired = true := by
  unfold dispatch
  dsimp only
  split
  · exact h
  · split
    · exact h
    · exact Behavior.fired_run now _ h

theorem surroundings_send (p : Publication) :
    (x.send exe now publish p b).2.surroundings = b.surroundings := by
  unfold send
  dsimp only
  split
  · rfl
  · split <;> rfl

/-- A token that has fired stays so. -/
theorem fired_step? (h : x.step? exe now publish b = some next) (hfired : b.surroundings.fired = true) :
    next.2.surroundings.fired = true := by
  cases stepped_of_step? h with
  | dispatched => exact fired_dispatch hfired
  | @followed handler p e progress s hx henvelope hresume =>
    unfold Paused.resume? at hresume
    split at hresume
    · have hrun := Behavior.fired_run now p.next hfired
      rw [Option.some.inj hresume] at hrun
      exact hrun
    · cases hresume
  | dropped => exact hfired
  | sent =>
    rw [surroundings_send]
    exact hfired
  | abandoned => exact hfired
  | rested => exact hfired

end Execution

variable {σ : Type}

/-! ## Who belongs to a run -/

namespace Scene

variable {s s' : Scene σ}

/-- The consumers that a step of the run may close: its own ones, and such as are new. -/
def Reaches (s : Scene σ) (place : Nat) : Prop :=
  s.run.Owns place ∨ s.cluster.consumers.size ≤ place

/-- Has the run not begun, or is it over? -/
def Off (s : Scene σ) : Prop := s.run.dequeue = .starting ∨ ∃ outcome, s.run.dequeue = .ended outcome

/-- The consumers of the run are there. A run without consumers has loops that have stopped, and has
either not begun or is over. -/
structure Manned (s : Scene σ) : Prop where
  inside : ∀ place, s.run.Owns place → place < s.cluster.consumers.size
  idle : ∀ source, (s.run.lane source).consumer = 0 → (s.run.lane source).stopped = true ∧ s.Off

/-- Only a run that has consumers comes to its conclusion. -/
theorem Manned.owns_lane (h : s.Manned) (source : Source)
    (hrunning : (s.run.lane source).stopped = false ∨ ¬ s.Off) :
    s.run.Owns (s.run.lane source).place := by
  refine ⟨source, fun hzero => ?_, rfl⟩
  obtain ⟨hstopped, hoff⟩ := h.idle source hzero
  rcases hrunning with hrunning | hon
  · rw [hstopped] at hrunning
    cases hrunning
  · exact hon hoff

/-- The run keeps its consumers, and nothing begins again. -/
structure Stays (s s' : Scene σ) : Prop where
  lane : ∀ source, (s'.run.lane source).place = (s.run.lane source).place ∧
    (s'.run.lane source).consumer = (s.run.lane source).consumer
  stopped : ∀ source, (s.run.lane source).stopped = true → (s'.run.lane source).stopped = true
  off : s.Off → s'.Off

theorem Stays.owns_iff (h : s.Stays s') (place : Nat) : s'.run.Owns place ↔ s.run.Owns place := by
  unfold Run.Owns
  constructor
  · rintro ⟨source, hused, rfl⟩
    rw [(h.lane source).2] at hused
    exact ⟨source, hused, (h.lane source).1.symm⟩
  · rintro ⟨source, hused, rfl⟩
    rw [← (h.lane source).2] at hused
    exact ⟨source, hused, (h.lane source).1⟩

theorem Manned.stays (h : s.Manned) (hstays : s.Stays s')
    (hsize : s.cluster.consumers.size ≤ s'.cluster.consumers.size) : s'.Manned := by
  constructor
  · intro place howns
    exact Nat.lt_of_lt_of_le (h.inside place ((hstays.owns_iff place).mp howns)) hsize
  · intro source hzero
    rw [(hstays.lane source).2] at hzero
    obtain ⟨hstopped, hoff⟩ := h.idle source hzero
    exact ⟨hstays.stopped source hstopped, hstays.off hoff⟩

/-- Others do something. -/
theorem Manned.beside (h : s.Manned) (hrun : s'.run = s.run)
    (hsize : s.cluster.consumers.size ≤ s'.cluster.consumers.size) : s'.Manned := by
  apply h.stays ?_ hsize
  constructor
  case lane =>
    intro source
    rw [hrun]
    exact ⟨rfl, rfl⟩
  case stopped =>
    intro source
    rw [hrun]
    exact id
  case off =>
    unfold Off
    rw [hrun]
    exact id

/-- A delivery concerns the ledger only. -/
theorem cluster_accept (s : Scene σ) (d : Delivery) :
    (s.accept d).cluster = s.cluster ∧ (s.accept d).run.fired = s.run.fired ∧
      ∀ source, (s.accept d).run.lane source = s.run.lane source := by
  unfold accept
  split
  · exact ⟨rfl, rfl, fun _ => rfl⟩
  · exact ⟨rfl, rfl, fun source => by cases source <;> rfl⟩

end Scene

variable [LogStore σ]

/-! ## Acts -/

namespace Cluster

variable {own : Nat → Prop}

theorem acted_send (broker : Nat) (topic key : String) (value : ByteArray) (c : Cluster σ) :
    Acted own c ((send broker topic key value).on c).2 := by
  rw [← on_send]
  apply Acted.single
  trivial

theorem acted_subscribe (broker : Nat) (group topic : String) (c : Cluster σ) (own : Nat → Prop) :
    Acted own c ((subscribe broker group topic).on c).2 := by
  have htrivial : (Act.subscribe broker group topic).Of own := trivial
  exact .single htrivial c

theorem acted_close {place : Nat} (h : own place) (c : Cluster σ) : Acted own c (c.close place) := by
  have hown : (Act.close place).Of own := h
  exact .single hown c

end Cluster

namespace Scene

variable {s s' : Scene σ} {own : Nat → Prop}

/-! ### Commits -/

theorem commitFor_keeps (s : Scene σ) (group : Nat × List (Int × Int)) :
    (s.commitFor group).run = s.run ∧ Acted own s.cluster (s.commitFor group).cluster := by
  unfold commitFor
  cases s.run.consumer? group.1 with
  | none => exact ⟨rfl, .refl _⟩
  | some settings =>
    have hof : (Act.commit settings.place group.2).Of own := trivial
    have hacted := Acted.single hof s.cluster
    dsimp only
    split
    · exact ⟨rfl, hacted⟩
    · exact ⟨rfl, hacted⟩

/-- A commit pass is a number of commits. -/
theorem commitPass_keeps (s : Scene σ) :
    s.commitPass.run = s.run ∧ Acted own s.cluster s.commitPass.cluster := by
  refine commitPass_invariant (I := fun s' => s'.run = s.run ∧ Acted own s.cluster s'.cluster)
    ⟨rfl, .refl _⟩ ⟨rfl, .refl _⟩ fun s' group ⟨hrun, hacted⟩ => ?_
  obtain ⟨hrun', hacted'⟩ : (s'.commitFor group).run = s'.run ∧
      Acted own s'.cluster (s'.commitFor group).cluster := commitFor_keeps s' group
  exact ⟨hrun'.trans hrun, hacted.trans hacted'⟩

theorem run_commitPass (s : Scene σ) : s.commitPass.run = s.run :=
  (@commitPass_keeps σ _ (fun _ => False) s).1

/-! ### Loops and tasks -/

theorem acted_leaveIfAborted {c : Cluster σ} (hc : Acted own c s.cluster) (stopped : Bool)
    {place : Nat} (h : own place) : Acted own c (s.leaveIfAborted stopped place).cluster := by
  unfold leaveIfAborted
  split
  · exact hc.trans (acted_close h s.cluster)
  · exact hc

/-- A loop does nothing but poll. -/
theorem acted_intake {settings : IntakeSettings} {held held' : List Record} {stopped : Bool}
    {f f' : Feed σ} (h : IntakeMove settings held f held' stopped f') :
    Acted own f.cluster f'.cluster := by
  cases h with
  | stay => exact .refl _
  | push => exact .refl _
  | @poll p step cluster _ _ hpoll _ =>
    have hof : (Act.poll settings.place p).Of own := trivial
    have hacted := Acted.single hof f.cluster
    simp only [Act.on, hpoll] at hacted
    exact hacted

/-- A task publishes and commits. -/
theorem Worked.acted {jitter : Jitter} {index : Nat} (h : s.Worked jitter index s') :
    Acted own s.cluster s'.cluster := by
  cases h with
  | execute ht hstage hnext hafter =>
    rcases Execution.producer_step? hnext with heq | ⟨topic, key, value, heq⟩
    · rw [heq]
      exact .refl _
    · rw [heq]
      exact acted_send s.queue.broker topic key value s.cluster
  | report => exact .refl _
  | lose => exact .refl _
  | commit => exact (commitPass_keeps s).2

/-- What a task changes of its run. -/
theorem Worked.run_keeps {jitter : Jitter} {index : Nat} (h : s.Worked jitter index s') :
    ∃ fired permits tasks, s'.run = { s.run with fired, permits, tasks } ∧
      (s.run.fired = true → fired = true) := by
  cases h with
  | execute ht hstage hnext hafter =>
    exact ⟨_, _, _, rfl, fun hfired => Execution.fired_step? hnext hfired⟩
  | report => exact ⟨s.run.fired, s.run.permits, _, rfl, id⟩
  | lose => exact ⟨s.run.fired, s.run.permits, _, rfl, id⟩
  | commit =>
    refine ⟨s.run.fired, s.run.permits, s.run.tasks.eraseIdx index, ?_, id⟩
    show { s.commitPass.run with tasks := s.commitPass.run.tasks.eraseIdx index } = _
    rw [run_commitPass]

/-! ### Launching and concluding -/

/-- A launch that both consumers have come out of. -/
structure Joined (s s' : Scene σ) : Prop where
  queue_eq : s'.queue = s.queue
  receiving : s'.run.dequeue = .receiving
  fired_eq : s'.run.fired = s.run.fired
  opened : s'.run.channel.closed = false
  primary_ready : s'.run.primaryLoop = .ready
  delayed_starts : s'.run.delayedLoop = .start s'.cluster.now s'.run.delayed.period
  joined : ∃ c, (subscribe s.queue.broker s.queue.config.groupId s.queue.config.primaryTopic).on
      s.cluster = (.ok s'.run.primary.place, c) ∧
    (subscribe s.queue.broker s.queue.config.groupId s.queue.config.delayedTopic).on c =
      (.ok s'.run.delayed.place, s'.cluster)
  primary_eq : s'.run.primary = .ofConfig s.queue.config s'.run.primary.place
    (((s'.cluster.consumer? s'.run.primary.place).map (·.id)).getD 0)
  delayed_eq : s'.run.delayed = .ofConfig s.queue.config s'.run.delayed.place
    (((s'.cluster.consumer? s'.run.delayed.place).map (·.id)).getD 0)

/-- A launch that has failed. Its first consumer, if there was one, has left again. -/
structure Rejected (s s' : Scene σ) : Prop where
  run_eq : ∃ e, s'.run = { s.run with dequeue := .ended (.failed e) }
  acted : Acted (s.cluster.consumers.size ≤ ·) s.cluster s'.cluster

theorem launch_cases (s : Scene σ) : s.Joined s.launch ∨ s.Rejected s.launch := by
  unfold launch
  dsimp only
  cases s.queue.config.validate with
  | error e => exact .inr ⟨⟨_, rfl⟩, .refl _⟩
  | ok u =>
  rcases hon : (subscribe s.queue.broker s.queue.config.groupId s.queue.config.primaryTopic).on
    s.cluster with ⟨result, c⟩
  have hacted : Acted (s.cluster.consumers.size ≤ ·) s.cluster c := by
    have hsubscribed := acted_subscribe s.queue.broker s.queue.config.groupId
      s.queue.config.primaryTopic s.cluster
    rw [hon] at hsubscribed
    exact hsubscribed _
  cases result with
  | error e => exact .inr ⟨⟨_, rfl⟩, hacted⟩
  | ok primary =>
  dsimp only
  rcases hon' : (subscribe s.queue.broker s.queue.config.groupId s.queue.config.delayedTopic).on
    c with ⟨result', c'⟩
  cases result' with
  | error e =>
    obtain ⟨-, -, -, -, -, hplace, -⟩ := subscribed (fun _ => True) trivial (fun _ => trivial) hon
    have hsubscribed := acted_subscribe s.queue.broker s.queue.config.groupId
      s.queue.config.delayedTopic c
    rw [hon'] at hsubscribed
    refine .inr ⟨⟨_, rfl⟩, (hacted.trans (hsubscribed _)).trans (acted_close ?_ c')⟩
    exact Nat.le_of_eq hplace.symm
  | ok delayed => exact .inl ⟨rfl, rfl, rfl, rfl, rfl, rfl, ⟨c, hon, hon'⟩, rfl, rfl⟩

theorem Joined.acted (h : s.Joined s') : Acted own s.cluster s'.cluster := by
  obtain ⟨c, hon, hon'⟩ := h.joined
  have hfirst := acted_subscribe s.queue.broker s.queue.config.groupId
    s.queue.config.primaryTopic s.cluster
  have hsecond := acted_subscribe s.queue.broker s.queue.config.groupId
    s.queue.config.delayedTopic c
  rw [hon] at hfirst
  rw [hon'] at hsecond
  exact (hfirst own).trans (hsecond own)

theorem acted_conclude (h : s.Manned) (hclosing : s.run.dequeue = .closing) :
    Acted s.run.Owns s.cluster s.conclude.cluster := by
  have howns : ∀ source, s.run.Owns (s.run.lane source).place := fun source =>
    h.owns_lane source (.inr (by simp [Off, hclosing]))
  unfold conclude
  dsimp only
  rw [run_commitPass]
  exact ((commitPass_keeps s).2.trans (acted_close (howns .primary) _)).trans
    (acted_close (howns .delayed) _)

/-! ### Steps -/

/-- Whatever a process of a run does, it makes nobody leave but the consumers of the run. -/
theorem acted_step? (h : s.Manned) {jitter : Jitter} {p : Process} (hstep : s.step? jitter p = some s') :
    Acted s.Reaches s.cluster s'.cluster := by
  have hown : ∀ place, s.run.Owns place → s.Reaches place := fun _ => .inl
  cases p with
  | dequeue =>
    cases dequeued_of_step? hstep with
    | launch =>
      rcases s.launch_cases with hjoined | hrejected
      · exact hjoined.acted
      · exact hrejected.acted.mono fun _ => .inr
    | accept =>
      rw [(cluster_accept _ _).1]
      exact .refl _
    | conclude hclosing => exact (acted_conclude h hclosing).mono hown
    | _ => exact .refl _
  | primary =>
    obtain ⟨⟨loop, feed⟩, hloop, rfl⟩ := Option.map_eq_some_iff.mp hstep
    obtain ⟨hrunning, hmove⟩ := Primary.move_of_step? hloop
    have howns : s.Reaches s.run.primary.place := hown _ (h.owns_lane .primary (.inl hrunning))
    have hpolled : Acted s.Reaches s.cluster feed.cluster := acted_intake hmove
    exact acted_leaveIfAborted hpolled _ howns
  | delayed =>
    obtain ⟨⟨loop, feed⟩, hloop, rfl⟩ := Option.map_eq_some_iff.mp hstep
    obtain ⟨hrunning, hmove⟩ := Delayed.move_of_step? hloop
    have howns : s.Reaches s.run.delayed.place := hown _ (h.owns_lane .delayed (.inl hrunning))
    have hpolled : Acted s.Reaches s.cluster feed.cluster := acted_intake hmove
    exact acted_leaveIfAborted hpolled _ howns
  | task index => exact (worked_of_step? hstep).acted

/-- So does tearing it down. -/
theorem acted_abort (h : s.Manned) : Acted s.run.Owns s.cluster s.abort.cluster := by
  unfold abort
  split
  · exact .refl _
  · exact .refl _
  · next hgoing hbegun =>
    have howns : ∀ source, s.run.Owns (s.run.lane source).place := fun source =>
      h.owns_lane source (.inr fun hoff => hoff.elim hbegun fun ⟨outcome, h⟩ => hgoing outcome h)
    dsimp only
    rw [run_leaveIfAborted]
    refine acted_leaveIfAborted ?_ _ (howns .delayed)
    refine acted_leaveIfAborted ?_ _ (howns .primary)
    exact .refl _

/-- A token that has fired stays so. -/
theorem fired_step? {jitter : Jitter} {p : Process} (hstep : s.step? jitter p = some s')
    (hfired : s.run.fired = true) : s'.run.fired = true := by
  cases p with
  | dequeue =>
    cases dequeued_of_step? hstep with
    | launch =>
      rcases s.launch_cases with hjoined | hrejected
      · exact hjoined.fired_eq.trans hfired
      · obtain ⟨e, hrun⟩ := hrejected.run_eq
        rw [hrun]
        exact hfired
    | accept => exact (cluster_accept _ _).2.1.trans hfired
    | conclude =>
      show s.commitPass.run.fired = true
      rw [run_commitPass]
      exact hfired
    | _ => exact hfired
  | primary =>
    obtain ⟨⟨loop, feed⟩, hloop, rfl⟩ := Option.map_eq_some_iff.mp hstep
    rw [run_leaveIfAborted]
    exact hfired
  | delayed =>
    obtain ⟨⟨loop, feed⟩, hloop, rfl⟩ := Option.map_eq_some_iff.mp hstep
    rw [run_leaveIfAborted]
    exact hfired
  | task index =>
    obtain ⟨fired, permits, tasks, hrun, hkept⟩ := (worked_of_step? hstep).run_keeps
    rw [hrun]
    exact hkept hfired

/-! ### Who belongs to the run afterwards -/

/-- Both consumers that have come out of a launch are new. -/
theorem Joined.lane (h : s.Joined s') (source : Source) :
    s.cluster.consumers.size ≤ (s'.run.lane source).place ∧
      ∃ k, s'.cluster.consumer? (s'.run.lane source).place = some k ∧
        (s'.run.lane source).consumer = k.id := by
  obtain ⟨c, hon, hon'⟩ := h.joined
  obtain ⟨_, _, _, -, -, hplace, hk⟩ := subscribed (fun _ => True) trivial (fun _ => trivial) hon
  obtain ⟨_, _, _, -, -, hplace', hk'⟩ := subscribed (fun _ => True) trivial (fun _ => trivial) hon'
  cases source with
  | primary =>
    -- the second one joins behind the first one
    have hkept := @consumer?_on σ _ c (.subscribe s.queue.broker s.queue.config.groupId
      s.queue.config.delayedTopic) _ _ hk (fun _ => Act.noConfusion) Act.noConfusion
    simp only [Act.on, hon'] at hkept
    refine ⟨Nat.le_of_eq hplace.symm, _, hkept, ?_⟩
    show s'.run.primary.consumer = _
    rw [h.primary_eq, hkept]
    rfl
  | delayed =>
    have hsize := size_on (.subscribe s.queue.broker s.queue.config.groupId
      s.queue.config.primaryTopic) s.cluster
    simp only [Act.on, hon] at hsize
    refine ⟨Nat.le_trans hsize (Nat.le_of_eq hplace'.symm), _, hk', ?_⟩
    show s'.run.delayed.consumer = _
    rw [h.delayed_eq, hk']
    rfl

/-- A step of a loop leaves its consumer in its place. -/
theorem Moved.stays {source : Source} (h : s.Moved source s') : s.Stays s' := by
  cases h with
  | intro hrunning _ _ _ hself hother hrest =>
    constructor
    case lane =>
      intro other
      by_cases hsource : other = source
      · subst hsource
        rw [hself]
        exact ⟨rfl, rfl⟩
      · rw [hother other hsource]
        exact ⟨rfl, rfl⟩
    case stopped =>
      intro other hstopped
      have hsource : other ≠ source := by
        rintro rfl
        exact Bool.false_ne_true (hrunning.symm.trans hstopped)
      rw [hother other hsource]
      exact hstopped
    case off =>
      unfold Off
      rw [hrest.2.1]
      exact id

theorem Stays.leaveIfAborted (h : s.Stays s') (stopped : Bool) (place : Nat) :
    s.Stays (s'.leaveIfAborted stopped place) := by
  have hrun := run_leaveIfAborted s' stopped place
  refine ⟨?_, ?_, ?_⟩
  · rw [hrun]
    exact h.lane
  · rw [hrun]
    exact h.stopped
  · unfold Off
    rw [hrun]
    exact h.off

theorem Worked.stays {jitter : Jitter} {index : Nat} (h : s.Worked jitter index s') : s.Stays s' := by
  obtain ⟨fired, permits, tasks, hrun, -⟩ := h.run_keeps
  constructor
  case lane =>
    intro source
    rw [hrun]
    cases source <;> exact ⟨rfl, rfl⟩
  case stopped =>
    intro source
    rw [hrun]
    cases source <;> exact id
  case off =>
    unfold Off
    rw [hrun]
    exact id

/-- A step is a launch that both consumers come out of, or leaves the run its consumers. -/
theorem stays_step? {jitter : Jitter} {p : Process} (hstep : s.step? jitter p = some s') :
    s.Joined s' ∨ s.Stays s' := by
  -- a run that takes deliveries or comes to its end has begun and is not over
  have hgoing : ∀ {t : Scene σ}, ¬ s.Off → (∀ source, t.run.lane source = s.run.lane source) →
      s.Stays t := by
    intro t hon hlane
    refine ⟨fun source => ?_, fun source hstopped => ?_, fun hoff => absurd hoff hon⟩
    · rw [hlane]
      exact ⟨rfl, rfl⟩
    · rw [hlane]
      exact hstopped
  have hintake : p = .primary ∨ p = .delayed → s.Stays s' := by
    intro hp
    obtain ⟨source, next, stopped, place, hmoved, rfl⟩ := moved_of_step? hstep hp
    exact hmoved.stays.leaveIfAborted stopped place
  cases p with
  | primary => exact .inr (hintake (.inl rfl))
  | delayed => exact .inr (hintake (.inr rfl))
  | task index => exact .inr (worked_of_step? hstep).stays
  | dequeue =>
    cases dequeued_of_step? hstep with
    | launch =>
      rcases s.launch_cases with hjoined | hrejected
      · exact .inl hjoined
      · obtain ⟨e, hrun⟩ := hrejected.run_eq
        refine .inr ⟨fun source => ?_, fun source hstopped => ?_, fun _ => .inr ⟨.failed e, ?_⟩⟩
        · rw [hrun]
          cases source <;> exact ⟨rfl, rfl⟩
        · rw [hrun]
          cases source <;> exact hstopped
        · rw [hrun]
    | accept h =>
      refine .inr (hgoing (by simp [Off, h]) fun source => ?_)
      rw [(cluster_accept _ _).2.2]
      cases source <;> rfl
    | conclude h =>
      refine .inr (hgoing (by simp [Off, h]) fun source => ?_)
      show Run.lane { s.commitPass.run with dequeue := .ended .stopped } source = _
      rw [run_commitPass]
      cases source <;> rfl
    | stop h | cancel h | spawn h | skip h | close h =>
      refine .inr (hgoing (by simp [Off, h]) fun source => ?_)
      cases source <;> rfl

/-- A run has no consumers but its own ones and new ones. -/
theorem reaches_of_owns {jitter : Jitter} {p : Process} (hstep : s.step? jitter p = some s')
    {place : Nat} (howns : s'.run.Owns place) : s.Reaches place := by
  rcases stays_step? hstep with hjoined | hstays
  · obtain ⟨source, -, rfl⟩ := howns
    exact .inr (hjoined.lane source).1
  · exact .inl ((hstays.owns_iff place).mp howns)

theorem Manned.step [LawfulStore σ] (h : s.Manned) (hsound : s'.cluster.Sound) {jitter : Jitter}
    {p : Process} (hstep : s.step? jitter p = some s') : s'.Manned := by
  rcases stays_step? hstep with hjoined | hstays
  · constructor
    · rintro place ⟨source, -, rfl⟩
      obtain ⟨-, k, hk, -⟩ := hjoined.lane source
      exact (Array.getElem?_eq_some_iff.mp hk).1
    -- no consumer has the number zero
    · intro source hzero
      obtain ⟨-, k, hk, hid⟩ := hjoined.lane source
      have hpos := hsound.id_pos _ k hk
      omega
  · exact h.stays hstays (acted_step? h hstep).size_le

/-- A run that is torn down is over. -/
theorem off_abort (s : Scene σ) : s.abort.Off := by
  unfold abort
  split
  · next outcome hended => exact .inr ⟨outcome, hended⟩
  · exact .inr ⟨.aborted, rfl⟩
  · refine .inr ⟨.aborted, ?_⟩
    rw [run_leaveIfAborted, run_leaveIfAborted]

theorem queue_abort (s : Scene σ) : s.abort.queue = s.queue := by
  unfold abort
  split
  · rfl
  · rfl
  · rw [queue_leaveIfAborted, queue_leaveIfAborted]

theorem stays_abort (s : Scene σ) : s.Stays s.abort := by
  constructor
  case off => exact fun _ => s.off_abort
  case lane =>
    intro source
    unfold abort
    split
    · exact ⟨rfl, rfl⟩
    · cases source <;> exact ⟨rfl, rfl⟩
    · rw [run_leaveIfAborted, run_leaveIfAborted]
      cases source <;> exact ⟨rfl, rfl⟩
  case stopped =>
    intro source hstopped
    unfold abort
    split
    · exact hstopped
    · cases source <;> exact hstopped
    · rw [run_leaveIfAborted, run_leaveIfAborted]
      cases source <;> exact hstopped

theorem Manned.abort (h : s.Manned) : s.abort.Manned :=
  h.stays s.stays_abort (acted_abort h).size_le

end Scene

end WorkQueue
