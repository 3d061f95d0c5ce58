import WorkQueue.Proofs.Execution.Steps
import WorkQueue.Proofs.Queue.Inversion
import WorkQueue.Proofs.Queue.Steps

/-!
# Steps of the processes of a run

A run begins when its two consumers join, and each of its processes then keeps the run and its world
sound, whatever the order they take their steps in. Executions add to what is known to be resolved;
nobody else does.

## Main definitions

* `Scene.resolved`: the outcome that a step of a process brings about

## Main statements

* `Scene.Sound.launch`, `.dequeueStep?`, `.intake`, `.taskStep?`: a step of each
* `Scene.Sound.step?`: a step of any process
* `Scene.Sound.abort`: a run torn down
-/

namespace WorkQueue

open StoreView

/-! ## What steps bring about -/

/-- What a task of a run is about to do. -/
def Run.stage? (r : Run) (index : Nat) : Option TaskStage := (r.tasks[index]?).map (·.stage)

/-- The outcome that shows when a task goes from one stage to another. -/
def TaskStage.brings : TaskStage → TaskStage → List Resolution
  | .executing _, .reporting r => [r]
  | _, _ => []

/-- The outcome that a step of a process brings about: that of the task it belongs to, if its
execution has just ended. -/
def Scene.resolved {σ : Type} [LogStore σ] (jitter : Jitter) (s : Scene σ) (p : Process) :
    List Resolution :=
  match p, s.step? jitter p with
  | .task index, some s' =>
    match s.run.stage? index, s'.run.stage? index with
    | some before, some after => before.brings after
    | _, _ => []
  | _, _ => []

/-- A task that executes nothing brings about no outcome. -/
theorem Scene.resolved_of_not_executing {σ : Type} [LogStore σ] {jitter : Jitter} {s : Scene σ}
    {index : Nat} {stage : TaskStage} (hbefore : s.run.stage? index = some stage)
    (hstage : ∀ x, stage ≠ .executing x) : s.resolved jitter (.task index) = [] := by
  have hnothing : ∀ after, stage.brings after = [] := by
    intro after
    cases stage with
    | executing x => exact absurd rfl (hstage x)
    | reporting r => rfl
    | committing => rfl
  unfold Scene.resolved
  cases s.step? jitter (.task index) with
  | none => rfl
  | some s' =>
    simp only [hbefore]
    cases s'.run.stage? index with
    | none => rfl
    | some after => exact hnothing after

/-- Whatever state an execution is in after a step, it accounts for it: by the outcome that shows
then, or by one that showed before. -/
theorem Execution.resolved_of_step? {π : Type} {outcomes : List Resolution} {exe : Executor}
    {now : Nat} {publish : Publish π} {x : Execution} {bench : Workbench π}
    {next : Execution × Workbench π} (hnext : x.step? exe now publish bench = some next)
    (hbefore : x.state.isCommittable = true →
      Resolved outcomes x.record.topic x.record.partition x.record.offset)
    (hstate : next.1.state.isCommittable = true) :
    Resolved (outcomes ++ next.1.resolution?.toList) next.1.record.topic
      next.1.record.partition next.1.record.offset := by
  rw [record_step? hnext]
  cases hresolution : next.1.resolution? with
  | none =>
    have hnow := hbefore (committable_of_step? hnext hresolution hstate)
    exact hnow.mono fun r => List.mem_append_left _
  | some r =>
    obtain ⟨htopic, hpartition, hoffset, hended⟩ := resolution?_eq_some hresolution
    rw [record_step? hnext] at htopic hpartition hoffset
    exact ⟨r, by simp, htopic, hpartition, hoffset, by rw [hended, hstate]⟩

/-! ## The beginning of a run -/

/-- A consumer that has read nothing yet, in front of an empty channel. -/
theorem Lane.sound_fresh {σ : Type} {group : String} {w : World σ} {channel : Channel} {l : Lane}
    {k : Consumer} (hk : w.cluster.consumer? l.place = some k) (hid : k.id = l.consumer)
    (hpos : 0 < k.id) (hgroup : k.group = group) (hfetch : k.fetch = {}) (hheld : l.held = [])
    (hbuffer : channel.buffer = []) : l.Sound group w channel := by
  refine .inr ⟨by omega, k, hk, hid, hgroup, fun _ => ?_⟩
  have hnothing : channel.recordsOf k.id = [] := by simp [Channel.recordsOf, hbuffer]
  rw [hnothing]
  refine ⟨trivial, fun _ => ?_, fun _ => ?_⟩
  · rw [hheld]
    trivial
  · rw [hfetch]
    exact Fetch.flow_empty

namespace Scene

variable {σ : Type} [LogStore σ] [LawfulStore σ] {group : String}
  {outcomes : List Resolution} {s s' : Scene σ}

/-- The cluster goes on without a commit, and nobody reads. -/
theorem Sound.steady (h : s.Sound group outcomes) {c : Cluster σ}
    (hc : Cluster.Steady (fun _ => False) s.cluster c) :
    GoesOn group outcomes outcomes s { s with cluster := c } := by
  obtain ⟨hworld, hadvances⟩ := h.world.steady hc
  exact h.of_world hworld hadvances rfl rfl

/-- A consumer joins. -/
theorem Sound.join (h : s.Sound group outcomes) {c : Cluster σ} {id broker : Nat}
    {name topic : String} {partitions : Int} (hmoved : Unmoved s.cluster.store c.store)
    (hlt : issued s.cluster.store < id) (hle : id ≤ issued c.store)
    (hconsumers : c.consumers =
      s.cluster.consumers.push { id, broker, group := name, topic, partitions }) :
    GoesOn group outcomes outcomes s { s with cluster := c } := by
  obtain ⟨hworld, hadvances⟩ := h.world.join hmoved hlt hle hconsumers
  exact h.of_world hworld hadvances rfl rfl

/-- The run fails before it has begun. -/
theorem Sound.fail (h : s.Sound group outcomes) (e : QueueError) :
    GoesOn group outcomes outcomes s
      { s with run := { s.run with dequeue := .ended (.failed e) } } := by
  refine h.dequeueAt _ ?_
  rintro (hend | hend) <;> cases hend

/-- The beginning of a run: both consumers join, or none is left behind. -/
theorem Sound.launch (h : s.Sound group outcomes) : Goes group outcomes outcomes s s.launch := by
  unfold Scene.launch
  dsimp only
  split
  · exact (h.fail _).goes
  have hstore : StoreView.Sound s.cluster.store := h.world.settled.cluster.store
  rcases Cluster.subscribe_cases hstore s.queue.broker s.queue.config.groupId
      s.queue.config.primaryTopic with
    ⟨e, c, hon, hsteady⟩ | ⟨c, id, n, hon, hmoved, hlt, hle, hconsumers⟩
  · rw [hon]
    have hleft := h.steady hsteady
    exact (hleft.trans (hleft.sound.fail (.broker e))).goes
  rw [hon]
  have hjoined : GoesOn group outcomes outcomes s { s with cluster := c } :=
    h.join hmoved hlt hle hconsumers
  dsimp only
  rcases Cluster.subscribe_cases hmoved.sound s.queue.broker s.queue.config.groupId
      s.queue.config.delayedTopic with
    ⟨e, c', hon', hsteady⟩ | ⟨c', id', n', hon', hmoved', hlt', hle', hconsumers'⟩
  · rw [hon']
    have hfailed := hjoined.trans (hjoined.sound.steady hsteady)
    have hleft := hfailed.trans (hfailed.sound.close s.cluster.consumers.size)
    exact (hleft.trans (hleft.sound.fail (.broker e))).goes
  · rw [hon']
    have hboth := hjoined.trans (hjoined.sound.join hmoved' hlt' hle' hconsumers')
    -- the two consumers stand behind all others
    have hsize : c.consumers.size = s.cluster.consumers.size + 1 := by
      rw [hconsumers]
      exact Array.size_push ..
    have hprimary := Cluster.consumer?_push_of_some hconsumers'
      (Cluster.consumer?_push_size hconsumers)
    have hdelayed := Cluster.consumer?_push_size hconsumers'
    refine ⟨⟨h.group_eq, hboth.sound.world, ?_⟩, hboth.advances, fun source => .inr ?_⟩
    · constructor
      · intro source
        cases source with
        | primary =>
          refine Lane.sound_fresh hprimary ?_ (Nat.zero_lt_of_lt hlt) h.group_eq rfl rfl rfl
          simp [Run.lane, IntakeSettings.ofConfig, hprimary]
        | delayed =>
          refine Lane.sound_fresh hdelayed ?_ (Nat.zero_lt_of_lt hlt') h.group_eq rfl rfl rfl
          simp [Run.lane, IntakeSettings.ofConfig, hdelayed]
      · intro _ _
        simp [Run.lane, IntakeSettings.ofConfig, hsize]
      · intro d hd
        cases hd
      · exact fun _ => rfl
      · rintro (hend | hend) <;> cases hend
      · exact hboth.sound.run.task
    · cases source with
      | primary => exact Nat.le_refl _
      | delayed =>
        rw [hsize]
        exact Nat.le_succ _

/-! ## The loop that takes deliveries -/

theorem Sound.dequeueStep? (h : s.Sound group outcomes) (hstep : s.dequeueStep? = some s') :
    Goes group outcomes outcomes s s' := by
  cases dequeued_of_step? hstep with
  | launch => exact h.launch
  | accept _ hbuffer => exact (h.accept hbuffer).goes
  | stop => exact h.stopReceiving.goes
  | @cancel entry =>
    have hcanceled := h.cancelEntry entry
    exact (hcanceled.trans hcanceled.sound.stopReceiving).goes
  | spawn _ he => exact (h.spawn he).goes
  | skip =>
    refine (h.dequeueAt .receiving ?_).goes
    rintro (hend | hend) <;> cases hend
  | close hdequeue => exact (h.dequeueAt .closing fun _ => h.run.closed (.inl hdequeue)).goes
  | conclude hdequeue => exact (h.conclude (h.run.closed (.inr hdequeue))).goes

/-! ## The intake loops -/

theorem Sound.leaveIfAborted (h : s.Sound group outcomes) (stopped : Bool) (place : Nat) :
    GoesOn group outcomes outcomes s (s.leaveIfAborted stopped place) := by
  unfold Scene.leaveIfAborted
  split
  · exact h.close place
  · exact h.refl

/-- A step of one of the two loops. -/
theorem Sound.moved (h : s.Sound group outcomes) {source : Source} (hstep : s.Moved source s') :
    GoesOn group outcomes outcomes s s' := by
  cases hstep with
  | intro hrunning hplace hconsumer hmove hself hother hrest =>
  obtain ⟨hworld, hadvances, hrun⟩ :=
    h.run.intake h.world hrunning hplace hconsumer hmove hself hother hrest
  refine ⟨⟨h.group_eq, hworld, hrun⟩, hadvances, fun other => ?_⟩
  by_cases heq : other = source
  · rw [heq, hself]
    exact ⟨rfl, rfl⟩
  · rw [hother other heq]
    exact ⟨rfl, rfl⟩

theorem Sound.intake (h : s.Sound group outcomes) {jitter : Jitter} {p : Process}
    (hstep : s.step? jitter p = some s') (hp : p = .primary ∨ p = .delayed) :
    GoesOn group outcomes outcomes s s' := by
  obtain ⟨source, next, stopped, place, hmoved, rfl⟩ := moved_of_step? hstep hp
  have hgoes := h.moved hmoved
  exact hgoes.trans (hgoes.sound.leaveIfAborted stopped place)

/-! ## Tasks -/

/-- Only the tasks of a run change. -/
theorem Sound.tasks (h : s.Sound group outcomes) {tasks : List Task}
    (htasks : ∀ t ∈ tasks, t.Sound (s.world outcomes)) :
    GoesOn group outcomes outcomes s { s with run := { s.run with tasks } } :=
  h.of_run (h.run.update (fun _ => rfl) rfl h.run.closed htasks) fun _ => ⟨rfl, rfl⟩

/-- To the cluster a step of an execution is a send, or nothing. -/
theorem steady_of_step? {exe : Executor} {now broker : Nat} {x : Execution} {c : Cluster σ}
    (hstore : StoreView.Sound c.store) {bench : Workbench (Cluster σ)}
    (hproducer : bench.producer = c) {next : Execution × Workbench (Cluster σ)}
    (hnext : x.step? exe now (Scene.publish broker) bench = some next) :
    Cluster.Steady (fun _ => False) c next.2.producer := by
  rcases Execution.producer_step? hnext with heq | ⟨topic, key, value, heq⟩
  · rw [heq, hproducer]
    exact .refl hstore
  · rw [heq, hproducer]
    exact Cluster.steady_send hstore broker topic key value

/-- A step of an execution: it publishes at most once, its entry follows its state, and its outcome
is known once it has one. -/
theorem Sound.execute (h : s.Sound group outcomes) {index : Nat} {t : Task} {x : Execution}
    (ht : s.run.tasks[index]? = some t) (hstage : t.stage = .executing x) {exe : Executor}
    {bench : Workbench (Cluster σ)} (hproducer : bench.producer = s.cluster)
    {next : Execution × Workbench (Cluster σ)}
    (hnext : x.step? exe s.cluster.now (Scene.publish s.queue.broker) bench = some next)
    {counters : Counters} {seen : Bool} {permits : Nat} {stage : TaskStage}
    (hafter : stage = .executing next.1 ∨ ∃ r, stage = .reporting r) :
    GoesOn group outcomes (outcomes ++ next.1.resolution?.toList) s
      { cluster := next.2.producer
        queue := { s.queue with
          ledger := (s.queue.ledger.transition t.entry next.1.state).2, counters }
        run := { s.run with
          fired := seen, permits, tasks := s.run.tasks.set index { t with stage } } } := by
  have htask := h.run.task t (List.mem_of_getElem? ht)
  simp only [Task.Sound, hstage] at htask
  obtain ⟨e, he, hrecord, hbefore⟩ := htask
  have hresolved := Execution.resolved_of_step? hnext hbefore
  -- first the cluster changes, then the ledger and the outcomes
  obtain ⟨hcluster, hcarried⟩ :=
    h.world.steady (steady_of_step? h.world.settled.cluster.store hproducer hnext)
  obtain ⟨hworld, hmoved⟩ := hcluster.transition next.1.resolution?.toList t.entry next.1.state
    fun hstate e' he' => by
      obtain rfl := Option.some.inj (he.symm.trans he')
      rw [hrecord, ← Execution.record_step? hnext]
      exact hresolved hstate
  have hadvances := hcarried.trans hmoved
  have hrun := h.run.mono hadvances fun _ _ _ => id
  refine ⟨⟨h.group_eq, hworld, ?_⟩, hadvances.weaken fun _ => False.elim, fun _ => ⟨rfl, rfl⟩⟩
  refine hrun.update (fun _ => rfl) rfl hrun.closed fun t' ht' => ?_
  rcases List.mem_or_eq_of_mem_set ht' with hold | rfl
  · exact hrun.task t' hold
  · rcases hafter with rfl | ⟨r, rfl⟩
    -- the task still follows the same entry
    · obtain ⟨e', he', hsame⟩ := hadvances.record t.entry e he
      refine ⟨e', he', ?_, hresolved⟩
      rw [hsame, hrecord, Execution.record_step? hnext]
    · trivial

theorem Sound.taskStep? (h : s.Sound group outcomes) {jitter : Jitter} {index : Nat}
    (hstep : s.taskStep? jitter index = some s') :
    GoesOn group outcomes (outcomes ++ s.resolved jitter (.task index)) s s' := by
  have hstage? : ∀ {t : Task}, s.run.tasks[index]? = some t →
      s.run.stage? index = some t.stage := fun ht => by simp [Run.stage?, ht]
  cases worked_of_step? hstep with
  -- the outcome shows in the stage that the task goes to
  | @execute t x next stage permits ht hstage hnext hafter =>
    have hlt : index < s.run.tasks.length := (List.getElem?_eq_some_iff.mp ht).1
    have hbefore := hstage? ht
    have hnow : ∀ r : Run, r.tasks = s.run.tasks.set index { t with stage } →
        r.stage? index = some stage := fun r hr => by simp [Run.stage?, hr, hlt]
    have hbrings : s.resolved jitter (.task index) = next.1.resolution?.toList := by
      simp only [resolved, Scene.step?, hstep, hbefore, hstage, hnow]
      rcases hafter with ⟨hnone, rfl⟩ | ⟨r, hr, rfl⟩
      · rw [hnone]
        rfl
      · rw [hr]
        rfl
    rw [hbrings]
    apply h.execute ht hstage rfl hnext
    exact hafter.imp And.right fun ⟨r, hr⟩ => ⟨r, hr.2⟩
  | @report t r ht hstage =>
    rw [resolved_of_not_executing (hstage? ht) (by simp [hstage]), List.append_nil]
    have hreported := h.report (.resolved s.cluster.now r)
    refine hreported.trans (hreported.sound.tasks fun t' ht' => ?_)
    rcases List.mem_or_eq_of_mem_set ht' with hold | rfl
    · exact hreported.sound.run.task t' hold
    · trivial
  | @lose t r ht hstage =>
    rw [resolved_of_not_executing (hstage? ht) (by simp [hstage]), List.append_nil]
    have hreported := h.report (.resolved s.cluster.now r)
    refine hreported.trans (hreported.sound.tasks fun t' ht' => ?_)
    exact hreported.sound.run.task t' (List.mem_of_mem_eraseIdx ht')
  | @commit t ht hstage =>
    rw [resolved_of_not_executing (hstage? ht) (by simp [hstage]), List.append_nil]
    obtain ⟨hpass, -⟩ := h.commitPass
    refine hpass.trans (hpass.sound.tasks fun t' ht' => ?_)
    exact hpass.sound.run.task t' (List.mem_of_mem_eraseIdx ht')

/-! ## All processes -/

/-- Whatever process takes a step, the run and its world stay sound. -/
theorem Sound.step? (h : s.Sound group outcomes) {jitter : Jitter} {p : Process}
    (hstep : s.step? jitter p = some s') :
    Goes group outcomes (outcomes ++ s.resolved jitter p) s s' := by
  cases p with
  | dequeue =>
    have hnothing : s.resolved jitter .dequeue = [] := rfl
    rw [hnothing, List.append_nil]
    exact h.dequeueStep? hstep
  | primary =>
    have hnothing : s.resolved jitter .primary = [] := rfl
    rw [hnothing, List.append_nil]
    exact (h.intake hstep (.inl rfl)).goes
  | delayed =>
    have hnothing : s.resolved jitter .delayed = [] := rfl
    rw [hnothing, List.append_nil]
    exact (h.intake hstep (.inr rfl)).goes
  | task index => exact (h.taskStep? hstep).goes

/-- A run torn down leaves a sound world behind. -/
theorem Sound.abort (h : s.Sound group outcomes) : GoesOn group outcomes outcomes s s.abort := by
  unfold Scene.abort
  split
  · exact h.refl
  · refine h.dequeueAt (.ended .aborted) ?_
    rintro (hend | hend) <;> cases hend
  · have hended : GoesOn group outcomes outcomes s { s with run :=
        { s.run with dequeue := .ended .aborted, tasks := [], channel := s.run.channel.close } } :=
      h.of_run (h.run.close (fun _ => rfl) rfl fun t ht => by cases ht) fun _ => ⟨rfl, rfl⟩
    have hleft := hended.trans (hended.sound.leaveIfAborted s.run.primaryLoop.hasStopped
      s.run.primary.place)
    exact hleft.trans (hleft.sound.leaveIfAborted _ _)

/-- The token of a run fires. -/
theorem Sound.cancel (h : s.Sound group outcomes) :
    GoesOn group outcomes outcomes s { s with run := { s.run with fired := true } } :=
  h.of_run (h.run.update (fun _ => rfl) rfl h.run.closed h.run.task) fun _ => ⟨rfl, rfl⟩

end Scene

end WorkQueue
