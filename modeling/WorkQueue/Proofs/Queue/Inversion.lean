import WorkQueue.Proofs.Queue.Lanes
import WorkQueue.Queue.Step

/-!
# What a step of a process can be

A process has few kinds of steps. Each kind is named here once, with what enables it and the scene it
leads to, so that whatever is shown of steps is shown kind by kind.

## Main definitions

* `Scene.Launched`: the scenes a launch leads to
* `Scene.Dequeued`: the steps of the loop that takes deliveries
* `Scene.Moved`: the steps of an intake loop
* `Scene.Worked`: the steps of a task
* `Queue.Same`: what stays the same of a queue

## Main statements

* `Task.perm_set`: the tasks behind a step of one of them
* `Scene.launched`: a launch leads to one of these
* `Scene.dequeued_of_step?`, `Scene.moved_of_step?`, `Scene.worked_of_step?`: there are no others
* `Scene.same_step?`: none of them changes the configuration
-/

namespace WorkQueue

/-- The same queue, whatever has become of it. -/
structure Queue.Same (q q' : Queue) : Prop where
  broker_eq : q'.broker = q.broker
  config_eq : q'.config = q.config

namespace Queue.Same

theorem refl (q : Queue) : q.Same q := ⟨rfl, rfl⟩

theorem trans {q q' q'' : Queue} (h : q.Same q') (h' : q'.Same q'') : q.Same q'' :=
  ⟨h'.broker_eq.trans h.broker_eq, h'.config_eq.trans h.config_eq⟩

end Queue.Same

/-! ## Tasks -/

namespace Task

variable {tasks : List Task} {index : Nat}

/-- The other tasks stay behind a task that goes on. -/
theorem perm_set (hlt : index < tasks.length) (t : Task) :
    (tasks.set index t).Perm (t :: tasks.eraseIdx index) := by
  have hlt' : index < (tasks.set index t).length := by simpa using hlt
  have hperm := (List.getElem_cons_eraseIdx_perm hlt').symm
  rwa [List.getElem_set_self, List.eraseIdx_set_eq] at hperm

theorem perm_of_getElem? {t : Task} (ht : tasks[index]? = some t) :
    tasks.Perm (t :: tasks.eraseIdx index) := by
  obtain ⟨hlt, rfl⟩ := List.getElem?_eq_some_iff.mp ht
  exact (List.getElem_cons_eraseIdx_perm hlt).symm

variable {α : Type}

theorem filterMap_set_perm (f : Task → Option α) (hlt : index < tasks.length) (t : Task) :
    ((tasks.set index t).filterMap f).Perm
      ((f t).toList ++ (tasks.eraseIdx index).filterMap f) := by
  have hperm := (perm_set hlt t).filterMap f
  rw [List.filterMap_cons] at hperm
  cases ht : f t <;> simpa [ht] using hperm

theorem filterMap_perm (f : Task → Option α) {t : Task} (ht : tasks[index]? = some t) :
    (tasks.filterMap f).Perm ((f t).toList ++ (tasks.eraseIdx index).filterMap f) := by
  have hperm := (perm_of_getElem? ht).filterMap f
  rw [List.filterMap_cons] at hperm
  cases hf : f t <;> simpa [hf] using hperm

end Task

/-! ## Steps -/

namespace Scene

variable {σ : Type} [LogStore σ] {s s' : Scene σ}

/-- What a launch leads to. -/
inductive Launched (s : Scene σ) : Scene σ → Prop where
  | fail (c : Cluster σ) (e : QueueError) :
      Launched s { s with cluster := c, run := { s.run with dequeue := .ended (.failed e) } }
  | join {primary delayed : Nat} {c c' : Cluster σ} {r : Run}
      (hvalid : s.queue.config.validate = .ok ())
      (hon : (Cluster.subscribe s.queue.broker s.queue.config.groupId
        s.queue.config.primaryTopic).on s.cluster = (.ok primary, c))
      (hon' : (Cluster.subscribe s.queue.broker s.queue.config.groupId
        s.queue.config.delayedTopic).on c = (.ok delayed, c'))
      (hlane : r.lane .primary = ⟨primary, ((c'.consumer? primary).map (·.id)).getD 0, [], false⟩)
      (hlane' : r.lane .delayed = ⟨delayed, ((c'.consumer? delayed).map (·.id)).getD 0, [], false⟩)
      (hchannel : r.channel.buffer = [] ∧ r.channel.closed = false)
      (hdequeue : r.dequeue = .receiving) (htasks : r.tasks = s.run.tasks)
      (hpermits : r.permits = s.queue.config.maxParallelTasks) :
      Launched s { s with cluster := c', run := r }

theorem launched (s : Scene σ) : s.Launched s.launch := by
  unfold Scene.launch
  dsimp only
  cases hvalid : s.queue.config.validate with
  | error e => exact .fail _ _
  | ok u =>
  rcases hon : (Cluster.subscribe s.queue.broker s.queue.config.groupId
    s.queue.config.primaryTopic).on s.cluster with ⟨result, c⟩
  cases result with
  | error e => exact .fail _ _
  | ok primary =>
  dsimp only
  rcases hon' : (Cluster.subscribe s.queue.broker s.queue.config.groupId
    s.queue.config.delayedTopic).on c with ⟨result', c'⟩
  cases result' with
  | error e => exact .fail _ _
  | ok delayed =>
  refine .join hvalid hon hon' ?_ ?_ ⟨rfl, rfl⟩ rfl rfl rfl
  · simp [Run.lane, IntakeSettings.ofConfig, Primary.held, Primary.hasStopped]
  · simp [Run.lane, IntakeSettings.ofConfig, Delayed.start, DelayedPhase.held, Delayed.hasStopped]

namespace Launched

theorem queue_eq (h : s.Launched s') : s'.queue = s.queue := by
  cases h <;> rfl

theorem tasks_eq (h : s.Launched s') : s'.run.tasks = s.run.tasks := by
  cases h with
  | fail => rfl
  | join _ _ _ _ _ _ _ htasks => exact htasks

theorem not_awaiting (h : s.Launched s') (entry : Nat) :
    s'.run.dequeue ≠ .awaitingPermit entry := by
  cases h with
  | fail => exact Dequeue.noConfusion
  | join _ _ _ _ _ _ hdequeue =>
    rw [hdequeue]
    exact Dequeue.noConfusion

theorem not_stopped (h : s.Launched s') : s'.run.dequeue ≠ .ended .stopped := by
  cases h with
  | fail => exact fun heq => by cases heq
  | join _ _ _ _ _ _ hdequeue =>
    rw [hdequeue]
    exact Dequeue.noConfusion

end Launched

/-- Steps of the loop that takes deliveries. -/
inductive Dequeued (s : Scene σ) : Scene σ → Prop where
  | launch (h : s.run.dequeue = .starting) : Dequeued s s.launch
  | accept {d : Delivery} {rest : List Delivery} (h : s.run.dequeue = .receiving)
      (hbuffer : s.run.channel.buffer = d :: rest) :
      Dequeued s (Scene.accept { s with run :=
        { s.run with channel := { s.run.channel with buffer := rest } } } d)
  | stop (h : s.run.dequeue = .receiving) : Dequeued s s.stopReceiving
  /-- The token has fired before there was a permit. -/
  | cancel {entry : Nat} (h : s.run.dequeue = .awaitingPermit entry) :
      Dequeued s (Scene.stopReceiving { s with queue :=
        { s.queue with ledger := (s.queue.ledger.transition entry .canceled).2 } })
  | spawn {entry : Nat} {e : Entry} (h : s.run.dequeue = .awaitingPermit entry)
      (he : s.queue.ledger.entry? entry = some e) (hpermits : 0 < s.run.permits) :
      Dequeued s (s.spawn entry e.record e.state)
  /-- There is no such entry. -/
  | skip {entry : Nat} (h : s.run.dequeue = .awaitingPermit entry)
      (hnone : s.queue.ledger.entry? entry = none) :
      Dequeued s { s with run := { s.run with dequeue := .receiving } }
  | close (h : s.run.dequeue = .finishing) (htasks : s.run.tasks = []) :
      Dequeued s { s with run := { s.run with dequeue := .closing } }
  | conclude (h : s.run.dequeue = .closing) (hstopped : s.run.intakeStopped = true) :
      Dequeued s s.conclude

theorem dequeued_of_step? (h : s.dequeueStep? = some s') : s.Dequeued s' := by
  unfold dequeueStep? at h
  split at h
  · next hdequeue =>
    obtain rfl := Option.some.inj h
    exact .launch hdequeue
  -- receiving: the token comes first, then a delivery, then the end of both loops
  · next hdequeue =>
    split at h
    · obtain rfl := Option.some.inj h
      exact .stop hdequeue
    · split at h
      · next d channel htake =>
        obtain rfl := Option.some.inj h
        unfold Channel.take? at htake
        split at htake
        · cases htake
        · next hbuffer =>
          obtain ⟨rfl, rfl⟩ := Prod.mk.inj (Option.some.inj htake)
          exact .accept hdequeue hbuffer
      · split at h
        · obtain rfl := Option.some.inj h
          exact .stop hdequeue
        · cases h
  -- awaiting a permit: a token that fires before it comes cancels the entry
  · next hdequeue =>
    split at h
    · obtain rfl := Option.some.inj h
      exact .cancel hdequeue
    · split at h
      · next hpermits =>
        split at h
        · next he =>
          obtain rfl := Option.some.inj h
          exact .spawn hdequeue he hpermits
        · next hnone =>
          obtain rfl := Option.some.inj h
          exact .skip hdequeue hnone
      · cases h
  -- finishing: the tasks have to come to an end
  · next hdequeue =>
    split at h
    · next hempty =>
      obtain rfl := Option.some.inj h
      exact .close hdequeue (List.isEmpty_iff.mp hempty)
    · cases h
  -- closing: the loops have to come to an end
  · next hdequeue =>
    split at h
    · next hstopped =>
      obtain rfl := Option.some.inj h
      exact .conclude hdequeue hstopped
    · cases h
  · cases h

/-- Steps of the loop of one source, as long as the run has not been torn down. -/
inductive Moved (source : Source) (s : Scene σ) : Scene σ → Prop where
  | intro {settings : IntakeSettings} {held : List Record} {stopped : Bool} {f : Feed σ} {r : Run}
      (hrunning : (s.run.lane source).stopped = false)
      (hplace : settings.place = (s.run.lane source).place)
      (hconsumer : settings.consumer = (s.run.lane source).consumer)
      (hmove : IntakeMove settings (s.run.lane source).held ⟨s.cluster, s.run.channel⟩ held stopped f)
      (hself : r.lane source = { s.run.lane source with held, stopped })
      (hother : ∀ other, other ≠ source → r.lane other = s.run.lane other)
      (hrest : r.channel = f.channel ∧ r.dequeue = s.run.dequeue ∧ r.tasks = s.run.tasks)
      (hpermits : r.permits = s.run.permits) :
      Moved source s { s with cluster := f.cluster, run := r }

/-- Behind its step the consumer of a loop may have to leave. -/
theorem moved_of_step? {jitter : Jitter} {p : Process} (h : s.step? jitter p = some s')
    (hp : p = .primary ∨ p = .delayed) : ∃ source next stopped place,
      s.Moved source next ∧ s' = next.leaveIfAborted stopped place := by
  rcases hp with rfl | rfl
  · obtain ⟨⟨loop, feed⟩, hloop, rfl⟩ := Option.map_eq_some_iff.mp h
    obtain ⟨hrunning, hmove⟩ := Primary.move_of_step? hloop
    refine ⟨.primary, _, _, _, ?_, rfl⟩
    refine .intro hrunning rfl rfl hmove rfl (fun other hother => ?_) ⟨rfl, rfl, rfl⟩ rfl
    cases other with
    | primary => exact absurd rfl hother
    | delayed => rfl
  · obtain ⟨⟨loop, feed⟩, hloop, rfl⟩ := Option.map_eq_some_iff.mp h
    obtain ⟨hrunning, hmove⟩ := Delayed.move_of_step? hloop
    refine ⟨.delayed, _, _, _, ?_, rfl⟩
    refine .intro hrunning rfl rfl hmove rfl (fun other hother => ?_) ⟨rfl, rfl, rfl⟩ rfl
    cases other with
    | primary => rfl
    | delayed => exact absurd rfl hother

theorem queue_leaveIfAborted (s : Scene σ) (stopped : Bool) (place : Nat) :
    (s.leaveIfAborted stopped place).queue = s.queue := by
  unfold leaveIfAborted
  split <;> rfl

theorem run_leaveIfAborted (s : Scene σ) (stopped : Bool) (place : Nat) :
    (s.leaveIfAborted stopped place).run = s.run := by
  unfold leaveIfAborted
  split <;> rfl

/-- In a run that has not been torn down nobody has to leave. -/
theorem leaveIfAborted_eq (h : s.run.wasAborted = false) (stopped : Bool) (place : Nat) :
    s.leaveIfAborted stopped place = s := by
  unfold leaveIfAborted
  rw [h]
  rfl

/-- What an execution works with. -/
def bench (s : Scene σ) : Workbench (Cluster σ) :=
  { producer := s.cluster
    surroundings := { fired := s.run.fired, counters := s.queue.counters } }

/-- Steps of the task at `index`. -/
inductive Worked (jitter : Jitter) (index : Nat) (s : Scene σ) : Scene σ → Prop where
  /-- A step of the execution, behind which it goes on or has come to an outcome. -/
  | execute {t : Task} {x : Execution} {next : Execution × Workbench (Cluster σ)}
      {stage : TaskStage} {permits : Nat} (ht : s.run.tasks[index]? = some t)
      (hstage : t.stage = .executing x)
      (hnext : x.step? (s.queue.executor jitter) s.cluster.now (publish s.queue.broker) s.bench =
        some next)
      (hafter : next.1.resolution? = none ∧ stage = .executing next.1 ∨
        ∃ r, next.1.resolution? = some r ∧ stage = .reporting r)
      (hpermits : permits = s.run.permits + (next.1.resolution?.toList).length) :
      Worked jitter index s {
        cluster := next.2.producer
        queue := { s.queue with
          ledger := (s.queue.ledger.transition t.entry next.1.state).2
          counters := next.2.surroundings.counters }
        run := { s.run with
          fired := next.2.surroundings.fired, permits
          tasks := s.run.tasks.set index { t with stage } } }
  | report {t : Task} {r : Resolution} (ht : s.run.tasks[index]? = some t)
      (hstage : t.stage = .reporting r) :
      Worked jitter index s (Scene.setTask
        { s with queue := s.queue.report (.resolved s.cluster.now r) } index
        { t with stage := .committing })
  /-- The recorder takes the task with it. -/
  | lose {t : Task} {r : Resolution} (ht : s.run.tasks[index]? = some t)
      (hstage : t.stage = .reporting r) :
      Worked jitter index s (Scene.endTask
        { s with queue := s.queue.report (.resolved s.cluster.now r) } index)
  | commit {t : Task} (ht : s.run.tasks[index]? = some t) (hstage : t.stage = .committing) :
      Worked jitter index s (s.commitPass.endTask index)

theorem worked_of_step? {jitter : Jitter} {index : Nat} (h : s.taskStep? jitter index = some s') :
    s.Worked jitter index s' := by
  unfold taskStep? at h
  split at h
  · cases h
  next t ht =>
  split at h
  · next x hstage =>
    dsimp only at h
    split at h
    · cases h
    next x' bench hnext =>
    split at h
    · next hresolution =>
      obtain rfl := Option.some.inj h
      exact .execute ht hstage hnext (.inl ⟨hresolution, rfl⟩) (by rw [hresolution]; rfl)
    · next r hresolution =>
      obtain rfl := Option.some.inj h
      exact .execute ht hstage hnext (.inr ⟨r, hresolution, rfl⟩) (by rw [hresolution]; rfl)
  · next r hstage =>
    dsimp only at h
    split at h
    · obtain rfl := Option.some.inj h
      exact .lose ht hstage
    · obtain rfl := Option.some.inj h
      exact .report ht hstage
  · next hstage =>
    obtain rfl := Option.some.inj h
    exact .commit ht hstage

/-! ## What stays the same -/

theorem same_report (q : Queue) (r : Report) : q.Same (q.report r) := by
  unfold Queue.report
  split <;> exact ⟨rfl, rfl⟩

theorem same_commitFor (s : Scene σ) (group : Nat × List (Int × Int)) :
    s.queue.Same (s.commitFor group).queue := by
  unfold commitFor
  split
  · exact .refl _
  · dsimp only
    split
    · exact .refl _
    · exact same_report _ _

/-- What holds once the ledger has released its entries, and behind every commit, holds behind a
pass. -/
theorem commitPass_invariant {I : Scene σ → Prop} (h : I s)
    (hcollect : I { s with queue := { s.queue with ledger := s.queue.ledger.collect.2 } })
    (hcommit : ∀ s group, I s → I (s.commitFor group)) : I s.commitPass := by
  have hall : ∀ (groups : List (Nat × List (Int × Int))) (s : Scene σ), I s →
      I (groups.foldl commitFor s) := by
    intro groups
    induction groups with
    | nil => exact fun _ hs => hs
    | cons group rest ih => exact fun s hs => ih _ (hcommit s group hs)
  unfold commitPass
  dsimp only
  split
  · exact h
  · exact hall _ _ hcollect

theorem same_commitPass (s : Scene σ) : s.queue.Same s.commitPass.queue :=
  commitPass_invariant (I := fun s' => s.queue.Same s'.queue) (.refl _) ⟨rfl, rfl⟩
    fun s' group hs' => hs'.trans (same_commitFor s' group)

theorem Dequeued.same (h : s.Dequeued s') : s.queue.Same s'.queue := by
  cases h with
  | launch =>
    rw [s.launched.queue_eq]
    exact .refl _
  | accept =>
    unfold Scene.accept
    split <;> exact ⟨rfl, rfl⟩
  | stop => exact ⟨rfl, rfl⟩
  | cancel => exact ⟨rfl, rfl⟩
  | spawn => exact ⟨rfl, rfl⟩
  | skip => exact ⟨rfl, rfl⟩
  | close => exact ⟨rfl, rfl⟩
  | conclude => exact ⟨(same_commitPass s).broker_eq, (same_commitPass s).config_eq⟩

theorem Worked.same {jitter : Jitter} {index : Nat} (h : s.Worked jitter index s') :
    s.queue.Same s'.queue := by
  cases h with
  | execute => exact ⟨rfl, rfl⟩
  | report => exact same_report _ _
  | lose => exact same_report _ _
  | commit => exact same_commitPass s

/-- A step of a loop has to do with neither the queue nor the tasks. -/
theorem intake_keeps {jitter : Jitter} {p : Process} (h : s.step? jitter p = some s')
    (hp : p = .primary ∨ p = .delayed) :
    s'.queue = s.queue ∧ s'.run.tasks = s.run.tasks ∧ s'.run.dequeue = s.run.dequeue ∧
      s'.run.permits = s.run.permits := by
  obtain ⟨source, next, stopped, place, hmoved, rfl⟩ := moved_of_step? h hp
  rw [queue_leaveIfAborted, run_leaveIfAborted]
  cases hmoved with
  | intro _ _ _ _ _ _ hrest hpermits => exact ⟨rfl, hrest.2.2, hrest.2.1, hpermits⟩

/-- A run keeps to its broker and its configuration. -/
theorem same_step? {jitter : Jitter} {p : Process} (h : s.step? jitter p = some s') :
    s.queue.Same s'.queue := by
  cases p with
  | dequeue => exact (dequeued_of_step? h).same
  | primary =>
    rw [(intake_keeps h (.inl rfl)).1]
    exact .refl _
  | delayed =>
    rw [(intake_keeps h (.inr rfl)).1]
    exact .refl _
  | task index => exact (worked_of_step? h).same

end Scene

end WorkQueue
