import WorkQueue.Proofs.Execution.Steps
import WorkQueue.Proofs.Queue.Inversion
import WorkQueue.Proofs.Queue.Passes
import WorkQueue.Proofs.Store.MemoryGroups

/-!
# Runs in a stable group

A run of a queue whose consumers stay alone in their groups: nobody else joins, whatever else others
do. Its processes take their steps in any order, time passes, and the token fires at any moment. Such
a run waits to begin, is under way, or is over. While it is under way, the records of a partition
arrive in the order of their offsets, and the ledger holds those that have not been released.

## Main definitions

* `Scene.Move`, `Scene.next`, `Scene.after`: what happens to a run
* `Scene.Undisturbed`, `Config.Spares`: what others may do
* `Scene.Begins`, `Scene.Underway`, `Scene.Over`: the three stages of a run

## Main statements

* `Scene.Underway.dequeued`, `Scene.Underway.moved`, `Scene.Underway.worked`: what the steps of a run
  under way lead to
* `Scene.Begins.launch`: a run that begins is under way, or over at once
* `Scene.Stable.next`: whatever happens, a run is in one of the three
-/

namespace WorkQueue

open StoreView GroupStore

/-- Something that happens to a run. -/
inductive Scene.Move where
  /-- A process takes a step, if it need not wait. -/
  | step (process : Process)
  /-- The token fires. -/
  | cancel
  /-- Time passes, or somebody else uses the cluster. -/
  | other (a : Act)

variable {σ : Type} [LogStore σ]

/-- What others do comes to allowed calls. -/
def Scene.Move.Keeps (allowed : StoreCall → Prop) (c : Cluster σ) : Move → Prop
  | .other a => ∀ call, a.MayCall c call → allowed call
  | _ => True

namespace Scene

/-- The scene behind a move. -/
def next (jitter : Jitter) (s : Scene σ) : Move → Scene σ
  | .step p => (s.step? jitter p).getD s
  | .cancel => { s with run := { s.run with fired := true } }
  | .other a => { s with cluster := a.on s.cluster }

/-- The scene behind a number of moves. -/
def after (jitter : Jitter) (s : Scene σ) (moves : List Move) : Scene σ :=
  moves.foldl (next jitter) s

/-- A run keeps to its broker and its configuration. -/
theorem same_next (s : Scene σ) (jitter : Jitter) (m : Move) :
    s.queue.Same (s.next jitter m).queue := by
  cases m with
  | step p =>
    show s.queue.Same ((s.step? jitter p).getD s).queue
    cases hstep : s.step? jitter p with
    | none => exact .refl s.queue
    | some s' => exact same_step? hstep
  | cancel => exact .refl s.queue
  | other a => exact .refl s.queue

theorem same_after (s : Scene σ) (jitter : Jitter) (moves : List Move) :
    s.queue.Same (s.after jitter moves).queue := by
  induction moves generalizing s with
  | nil => exact .refl s.queue
  | cons m rest ih => exact (same_next s jitter m).trans (ih (s.next jitter m))

/-- Whatever others do meanwhile comes to allowed calls. -/
def Undisturbed (allowed : StoreCall → Prop) (jitter : Jitter) : List Move → Scene σ → Prop
  | [], _ => True
  | m :: rest, s => m.Keeps allowed s.cluster ∧ Undisturbed allowed jitter rest (s.next jitter m)

end Scene

/-- Whoever only sends records appends them, and creates their topics. -/
theorem Scene.undisturbed_of_sends {allowed : StoreCall → Prop} {jitter : Jitter}
    {moves : List Move} (hask : ∀ topic, allowed (.partitions topic))
    (hcreate : ∀ topic n, allowed (.createTopic topic n))
    (happend : ∀ topic p key value, allowed (.append topic p key value))
    (hsends : ∀ a, .other a ∈ moves → ∃ broker topic key value,
      a = .outside (.send broker topic key value)) (s : Scene σ) :
    Undisturbed allowed jitter moves s := by
  induction moves generalizing s with
  | nil => trivial
  | cons m rest ih =>
    refine ⟨?_, ih (fun a ha => hsends a (List.mem_cons_of_mem _ ha)) _⟩
    cases m with
    | step p => trivial
    | cancel => trivial
    | other a =>
      obtain ⟨broker, topic, key, value, rfl⟩ := hsends a List.mem_cons_self
      rintro call (rfl | ⟨n, rfl⟩ | ⟨p, rfl⟩)
      · exact hask topic
      · exact hcreate topic n
      · exact happend topic p key value

/-- One for each source. -/
def Source.both {α : Type} (primary delayed : α) : Source → α
  | .primary => primary
  | .delayed => delayed

/-! ## Stages of a run -/

variable [GroupStore σ]

/-- A call of somebody who keeps out of a queue's groups. -/
def Config.Spares (σ : Type) [LogStore σ] [GroupStore σ] (c : Config) (call : StoreCall) : Prop :=
  call.By (Valid σ) ∧ ∀ source, ¬ call.Concerns c.groupId (c.topicOf source)

/-- The loop that takes deliveries has begun and not ended. -/
def Dequeue.Going : Dequeue → Prop
  | .starting => False
  | .ended _ => False
  | _ => True

namespace Scene

/-- A run is about to begin, and nobody is in its groups. Its ledger may hold what earlier runs have
left. -/
structure Begins (s : Scene σ) : Prop where
  run : s.run = { fired := s.run.fired }
  orderly : Orderly s.cluster.store
  empty : ∀ source,
    (roster s.cluster.store s.queue.config.groupId (s.queue.config.topicOf source)).members = []
  tidy : s.queue.ledger.Tidy
  /-- Consumers get new numbers. -/
  known : ∀ q ∈ s.queue.ledger.queues, q.1.consumer ≤ issued s.cluster.store

/-- A run under way that had `first` entries in the ledger and `told` reports in front of it. -/
structure Underway (first told : Nat) (s : Scene σ) (k : Source → Consumer) : Prop where
  staffed : s.Staffed first k
  going : s.run.dequeue.Going
  closed : s.run.dequeue = .finishing ∨ s.run.dequeue = .closing → s.run.channel.closed = true
  through : s.run.dequeue = .closing → s.run.tasks = []
  tidy : s.queue.ledger.Tidy
  first_le : first ≤ s.queue.ledger.entries.size
  told_le : told ≤ s.queue.reports.size
  ascending : ∀ topic p, (s.queue.ledger.taken first topic p).Pairwise (· < ·)
  parted : ∀ source p, ∃ released, s.Parted first told source p released

/-- A run that has ended. None of its processes goes on. -/
structure Over (s : Scene σ) : Prop where
  ended : ∃ outcome, s.run.dequeue = .ended outcome
  stopped : s.run.intakeStopped = true
  tasks : s.run.tasks = []
  buffer : s.run.channel.buffer = []

variable {first told : Nat} {s s' : Scene σ} {k : Source → Consumer}

/-! ## A run under way -/

namespace Underway

/-- Whatever leaves the ledger and its commits as they are. -/
theorem update (h : s.Underway first told k) {k' : Source → Consumer}
    (hstaffed : s'.Staffed first k') (hgoing : s'.run.dequeue.Going)
    (hclosed : s'.run.dequeue = .finishing ∨ s'.run.dequeue = .closing →
      s'.run.channel.closed = true)
    (hthrough : s'.run.dequeue = .closing → s'.run.tasks = [])
    (hledger : s'.queue.ledger = s.queue.ledger) (hconfig : s'.queue.config = s.queue.config)
    (hconsumer : ∀ source, (s'.run.lane source).consumer = (s.run.lane source).consumer)
    (htold : s.queue.reports.size ≤ s'.queue.reports.size)
    (hcommitted : ∀ topic p, s'.queue.committed told topic p = s.queue.committed told topic p) :
    s'.Underway first told k' := by
  refine ⟨hstaffed, hgoing, hclosed, hthrough, ?_, ?_, h.told_le.trans htold, ?_, fun source p => ?_⟩
  · rw [hledger]
    exact h.tidy
  · rw [hledger]
    exact h.first_le
  · rw [hledger]
    exact h.ascending
  · obtain ⟨released, hparted⟩ := h.parted source p
    exact ⟨released, hparted.update hconfig (hconsumer source) hledger fun topic => hcommitted topic p⟩

/-- The cluster changes, and both consumers stay alone. -/
theorem cluster (h : s.Underway first told k) {c : Cluster σ}
    (hsole : ∀ source, c.Sole (s.run.lane source).place (k source)) :
    Underway first told { s with cluster := c } k :=
  h.update (h.staffed.update rfl (fun _ => rfl) rfl (fun _ _ => rfl) hsole) h.going h.closed
    h.through rfl rfl (fun _ => rfl) (Nat.le_refl _) fun _ _ => rfl

/-- An entry goes on to another state. -/
theorem transition (h : s.Underway first told k) (id : Nat) (next : EntryState) :
    Underway first told
      { s with queue := { s.queue with ledger := (s.queue.ledger.transition id next).2 } } k := by
  refine ⟨?_, h.going, h.closed, h.through, h.tidy.transition id next, ?_, h.told_le,
    fun topic p => ?_, fun source p => ?_⟩
  · exact h.staffed.update rfl (fun _ => rfl) rfl (fun _ _ => Ledger.taken_transition id next)
      fun source => (h.staffed.member source).sole
  · show first ≤ (s.queue.ledger.transition id next).2.entries.size
    rw [Ledger.size_entries_transition]
    exact h.first_le
  · show ((s.queue.ledger.transition id next).2.taken first topic p).Pairwise _
    rw [Ledger.taken_transition]
    exact h.ascending topic p
  · obtain ⟨released, hparted⟩ := h.parted source p
    exact ⟨released, hparted.transition id next⟩

/-- Another process of the run, its tasks or its permits go on. -/
theorem ofRun (h : s.Underway first told k) {dequeue : Dequeue} {fired : Bool} {tasks : List Task}
    {permits : Nat} (hgoing : dequeue.Going)
    (hclosed : dequeue = .finishing ∨ dequeue = .closing → s.run.channel.closed = true)
    (hthrough : dequeue = .closing → tasks = []) :
    Underway first told { s with run := { s.run with dequeue, fired, tasks, permits } } k :=
  h.update (h.staffed.update rfl (fun _ => rfl) rfl (fun _ _ => rfl)
      fun source => (h.staffed.member source).sole) hgoing hclosed hthrough rfl rfl (fun _ => rfl)
    (Nat.le_refl _) fun _ _ => rfl

/-- A run with a task is not about to end. -/
theorem not_closing (h : s.Underway first told k) {index : Nat} {t : Task}
    (ht : s.run.tasks[index]? = some t) : s.run.dequeue ≠ .closing := by
  intro hclosing
  rw [h.through hclosing] at ht
  cases ht

/-- The tasks change while there are some. -/
theorem ofTasks (h : s.Underway first told k) (hclosing : s.run.dequeue ≠ .closing)
    (tasks : List Task) : Underway first told { s with run := { s.run with tasks } } k :=
  h.ofRun h.going h.closed fun hdequeue => absurd hdequeue hclosing

/-- An outcome is reported. -/
theorem report (h : s.Underway first told k) (time : Nat) (r : Resolution) :
    Underway first told { s with queue := s.queue.report (.resolved time r) } k := by
  have heq := Queue.report_eq s.queue (.resolved time r)
  have hledger : (s.queue.report (.resolved time r)).ledger = s.queue.ledger := by rw [heq]
  have hconfig : (s.queue.report (.resolved time r)).config = s.queue.config := by rw [heq]
  refine h.update (h.staffed.update hconfig (fun _ => rfl) rfl (fun _ _ => by rw [hledger])
      fun source => (h.staffed.member source).sole) h.going h.closed h.through hledger hconfig
    (fun _ => rfl) (Queue.size_reports_report _ _)
    (Queue.committed_report_resolved h.told_le time r)

/-- A pass. -/
theorem commits (h : s.Underway first told k) :
    Commits told k s.queue.ledger.collect.1.offsets
      { s with queue := { s.queue with ledger := s.queue.ledger.collect.2 } } s.commitPass :=
  h.staffed.commits h.tidy h.told_le

/-- What is released is gone. -/
theorem collected (h : s.Underway first told k) : Staffed first
    { s with queue := { s.queue with ledger := s.queue.ledger.collect.2 } } k :=
  h.staffed.update rfl (fun _ => rfl) rfl (fun _ _ => rfl)
    fun source => (h.staffed.member source).sole

theorem commitPass (h : s.Underway first told k) : s.commitPass.Underway first told k := by
  have hcommits := h.commits
  have hledger : s.commitPass.queue.ledger = s.queue.ledger.collect.2 := by rw [hcommits.queue]
  have hrun : s.commitPass.run = s.run := hcommits.run
  refine ⟨hcommits.staffed h.collected, ?_, ?_, ?_, ?_, ?_, h.told_le.trans hcommits.size, ?_,
    fun source p => ?_⟩
  · rw [hrun]
    exact h.going
  · rw [hrun]
    exact h.closed
  · rw [hrun]
    exact h.through
  · rw [hledger]
    exact h.tidy.collect
  · rw [hledger]
    exact h.first_le
  · rw [hledger]
    exact h.ascending
  · obtain ⟨released, hparted⟩ := h.parted source p
    exact ⟨_, hparted.commits h.tidy h.staffed.topics hcommits⟩

/-- The ledger holds only what has arrived since the run began. -/
theorem mem_appended (h : s.Underway first told k) (source : Source) (p : Int) (id : Nat)
    (hid : id ∈ s.queue.ledger.queue ⟨(s.run.lane source).consumer, p⟩) :
    id ∈ s.queue.ledger.appended first (s.queue.config.topicOf source) p := by
  obtain ⟨released, hparted⟩ := h.parted source p
  rw [hparted.entries]
  exact List.mem_append_right _ hid

/-- The next delivery is never refused. -/
theorem append_eq_ok (h : s.Underway first told k) {d : Delivery} {rest : List Delivery}
    (hbuffer : s.run.channel.buffer = d :: rest) :
    s.queue.ledger.append d.consumer d.record =
      .ok (s.queue.ledger.entries.size, s.queue.ledger.track d.consumer d.record) :=
  h.staffed.append_eq_ok hbuffer h.mem_appended

theorem accept_eq (h : s.Underway first told k) {d : Delivery} {rest : List Delivery}
    (hbuffer : s.run.channel.buffer = d :: rest) :
    Scene.accept { s with run :=
      { s.run with channel := { s.run.channel with buffer := rest } } } d = { s with
        queue := { s.queue with ledger := s.queue.ledger.track d.consumer d.record }
        run := { s.run with
          dequeue := .awaitingPermit s.queue.ledger.entries.size
          channel := { s.run.channel with buffer := rest } } } := by
  unfold Scene.accept
  simp only [h.append_eq_ok hbuffer]

/-- A delivery is accepted. -/
theorem accept (h : s.Underway first told k) {d : Delivery} {rest : List Delivery}
    (hbuffer : s.run.channel.buffer = d :: rest) :
    Underway first told { s with
      queue := { s.queue with ledger := s.queue.ledger.track d.consumer d.record }
      run := { s.run with
        dequeue := .awaitingPermit s.queue.ledger.entries.size
        channel := { s.run.channel with buffer := rest } } } k := by
  obtain ⟨reader, hreader, hreads, hrecords⟩ := h.staffed.reader_of_buffer hbuffer
  have htopic : d.record.topic = s.queue.config.topicOf reader :=
    hreads.1.trans (h.staffed.member reader).topic_eq
  obtain ⟨hlast, -, -⟩ := Ledger.append_eq_ok_iff.mp (h.append_eq_ok hbuffer)
  refine ⟨h.staffed.arrive hbuffer h.first_le _, trivial, ?_, nofun, h.tidy.track hlast, ?_,
    h.told_le, fun topic p => ?_, fun source p => ?_⟩
  · rintro (hend | hend) <;> cases hend
  · show first ≤ (s.queue.ledger.track d.consumer d.record).entries.size
    rw [Ledger.size_entries_track]
    exact Nat.le_succ_of_le h.first_le
  · show ((s.queue.ledger.track d.consumer d.record).taken first topic p).Pairwise _
    rw [Ledger.taken_track h.first_le]
    split
    -- whatever arrives lies behind what has been taken of its partition
    · next hplace =>
      have harriving := (h.staffed.ordered (h.staffed.open_of_buffer hbuffer) reader).arriving p
      rw [hrecords, ← htopic, hplace.1] at harriving
      refine harriving.sublist (List.Sublist.append_left ?_ _)
      simp [offsetsIn, hplace.2]
    · rw [List.append_nil]
      exact h.ascending topic p
  · obtain ⟨released, hparted⟩ := h.parted source p
    have hiff := h.staffed.reader_iff hreader htopic source
    exact ⟨released, (hparted.track h.tidy h.first_le hiff).update rfl rfl rfl fun _ => rfl⟩

/-- The receiver goes away. -/
theorem stopReceiving (h : s.Underway first told k) :
    s.stopReceiving.Underway first told k :=
  h.update (h.staffed.close rfl (fun _ => rfl) rfl rfl) trivial (fun _ => rfl) nofun rfl rfl
    (fun _ => rfl) (Nat.le_refl _) fun _ _ => rfl

/-- The run comes to its end. -/
theorem over_conclude (h : s.Underway first told k) (hclosing : s.run.dequeue = .closing)
    (hstopped : s.run.intakeStopped = true) : s.conclude.Over := by
  have hrun : s.commitPass.run = s.run := h.commits.run
  unfold conclude
  refine ⟨⟨.stopped, rfl⟩, ?_, ?_, ?_⟩
  · show s.commitPass.run.intakeStopped = true
    rw [hrun]
    exact hstopped
  · show s.commitPass.run.tasks = []
    rw [hrun]
    exact h.through hclosing
  · show s.commitPass.run.channel.buffer = []
    rw [hrun]
    exact h.staffed.drained (h.closed (.inr hclosing))

/-! ## Steps -/

/-- A step of the loop that takes deliveries. -/
theorem dequeued (h : s.Underway first told k) (hstep : s.Dequeued s') :
    s'.Underway first told k ∨ s' = s.conclude ∧ s'.Over := by
  cases hstep with
  | launch hdequeue =>
    have hgoing := h.going
    rw [hdequeue] at hgoing
    exact hgoing.elim
  | accept hdequeue hbuffer =>
    rw [h.accept_eq hbuffer]
    exact .inl (h.accept hbuffer)
  | stop => exact .inl h.stopReceiving
  | @cancel entry => exact .inl (h.transition entry .canceled).stopReceiving
  | spawn =>
    refine .inl (h.ofRun trivial ?_ nofun)
    rintro (hend | hend) <;> cases hend
  | skip =>
    refine .inl (h.ofRun trivial ?_ nofun)
    rintro (hend | hend) <;> cases hend
  | close hdequeue htasks =>
    exact .inl (h.ofRun trivial (fun _ => h.closed (.inl hdequeue)) fun _ => htasks)
  | conclude hclosing hstopped => exact .inr ⟨rfl, h.over_conclude hclosing hstopped⟩

/-- A step of the loop of one source. -/
theorem moved (h : s.Underway first told k) {source : Source} (hstep : s.Moved source s') :
    ∃ fetch, s'.Underway first told (Function.update k source { k source with fetch }) := by
  cases hstep with
  | @intro settings held stopped f r hrunning hplace hconsumer hmove hself hother hrest =>
  obtain ⟨hchannel, hdequeue, htasks⟩ := hrest
  obtain ⟨fetch, hstaffed⟩ :=
    h.staffed.intake hrunning hplace hconsumer hmove hself hother hchannel
  refine ⟨fetch, h.update hstaffed ?_ ?_ ?_ rfl rfl (fun other => ?_) (Nat.le_refl _)
    fun _ _ => rfl⟩
  · show r.dequeue.Going
    rw [hdequeue]
    exact h.going
  · show r.dequeue = _ ∨ r.dequeue = _ → r.channel.closed = true
    rw [hdequeue, hchannel, hmove.on_channel.1]
    exact h.closed
  · show r.dequeue = _ → r.tasks = []
    rw [hdequeue, htasks]
    exact h.through
  · show (r.lane other).consumer = _
    by_cases heq : other = source
    · rw [heq, hself]
    · rw [hother other heq]

/-- A step of a task. -/
theorem worked (h : s.Underway first told k) {jitter : Jitter} {index : Nat}
    (hstep : s.Worked jitter index s') : s'.Underway first told k := by
  cases hstep with
  | @execute t x next stage permits ht hstage hnext hafter =>
    have hsole : ∀ source, next.2.producer.Sole (s.run.lane source).place (k source) := by
      intro source
      have hmember := (h.staffed.member source).sole
      rcases Execution.producer_step? hnext with heq | ⟨topic, key, value, heq⟩
      · rw [heq]
        exact hmember
      · rw [heq]
        exact hmember.send s.queue.broker topic key value
    have hmoved := (h.transition t.entry next.1.state).cluster hsole
    exact hmoved.update (hmoved.staffed.update rfl (fun _ => rfl) rfl (fun _ _ => rfl) hsole)
      h.going h.closed (fun hdequeue => absurd hdequeue (h.not_closing ht)) rfl rfl (fun _ => rfl)
      (Nat.le_refl _) fun _ _ => rfl
  | @report t r ht =>
    exact (h.report s.cluster.now r).ofTasks (h.not_closing ht) _
  | @lose t r ht =>
    exact (h.report s.cluster.now r).ofTasks (h.not_closing ht) _
  | commit ht =>
    refine h.commitPass.ofTasks ?_ _
    rw [h.commits.run]
    exact h.not_closing ht

/-- A run under way has not been torn down. -/
theorem not_aborted (h : s.Underway first told k) : s.run.wasAborted = false := by
  unfold Run.wasAborted
  rw [beq_eq_false_iff_ne]
  intro heq
  have hended := h.going
  rw [heq] at hended
  exact hended

/-- A step of an intake loop. -/
theorem intake (h : s.Underway first told k) {jitter : Jitter} {p : Process}
    (hstep : s.step? jitter p = some s') (hp : p = .primary ∨ p = .delayed) :
    ∃ k', s'.Underway first told k' := by
  obtain ⟨source, next, stopped, place, hmoved, rfl⟩ := moved_of_step? hstep hp
  obtain ⟨fetch, h'⟩ := h.moved hmoved
  rw [leaveIfAborted_eq h'.not_aborted]
  exact ⟨_, h'⟩

/-- A step of any process. -/
theorem stepped (h : s.Underway first told k) {jitter : Jitter} {p : Process}
    (hstep : s.step? jitter p = some s') : (∃ k', s'.Underway first told k') ∨ s'.Over := by
  cases p with
  | dequeue => exact (h.dequeued (dequeued_of_step? hstep)).imp (fun h' => ⟨k, h'⟩) And.right
  | primary => exact .inl (h.intake hstep (.inl rfl))
  | delayed => exact .inl (h.intake hstep (.inr rfl))
  | task index => exact .inl ⟨k, h.worked (worked_of_step? hstep)⟩

/-- Others act, and keep out of the groups. -/
theorem other (h : s.Underway first told k) {a : Act}
    (hspares : ∀ call, a.MayCall s.cluster call → s.queue.config.Spares σ call) :
    Underway first told { s with cluster := a.on s.cluster } k := by
  refine h.cluster fun source => ?_
  have hmember := h.staffed.member source
  apply hmember.sole.aside
  intro call hcall
  obtain ⟨hby, hconcerns⟩ := hspares call hcall
  rw [hmember.group_eq, hmember.topic_eq]
  exact ⟨hby, hconcerns source⟩

end Underway

/-! ## A run that is over -/

omit [GroupStore σ] in
theorem Over.step?_eq_none (h : s.Over) (jitter : Jitter) (p : Process) : s.step? jitter p = none := by
  obtain ⟨outcome, hended⟩ := h.ended
  have hloops := h.stopped
  rw [Run.intakeStopped, Bool.and_eq_true] at hloops
  cases hstep : s.step? jitter p with
  | none => rfl
  | some s' =>
    exfalso
    cases p with
    | dequeue =>
      have hdequeued := dequeued_of_step? hstep
      cases hdequeued <;> simp_all
    | primary =>
      obtain ⟨next, hloop, -⟩ := Option.map_eq_some_iff.mp hstep
      have hrunning := (Primary.move_of_step? hloop).1
      rw [hloops.1] at hrunning
      cases hrunning
    | delayed =>
      obtain ⟨next, hloop, -⟩ := Option.map_eq_some_iff.mp hstep
      have hrunning := (Delayed.move_of_step? hloop).1
      rw [hloops.2] at hrunning
      cases hrunning
    | task index =>
      have hworked := worked_of_step? hstep
      cases hworked <;> simp_all [h.tasks]

/-! ## A run that begins -/

namespace Begins

/-- None of the processes but one can take a step. -/
theorem step?_eq (h : s.Begins) (jitter : Jitter) (p : Process) :
    s.step? jitter p = if p = .dequeue then some s.launch else none := by
  obtain ⟨cluster, queue, run⟩ := s
  obtain ⟨hrun, -⟩ := h
  dsimp only at hrun
  rw [hrun]
  cases p <;> rfl

/-- A run whose two consumers have joined. Nothing has been read yet, and the ledger holds nothing of
theirs, since their numbers are new. -/
theorem underway (h : s.Begins) {c : Cluster σ} {r : Run}
    (hs : Staffed s.queue.ledger.entries.size { s with cluster := c, run := r } k)
    (hnew : ∀ source, issued s.cluster.store < (k source).id) (hdequeue : r.dequeue = .receiving) :
    Underway s.queue.ledger.entries.size s.queue.reports.size { s with cluster := c, run := r } k := by
  have hqueue : ∀ source p, s.queue.ledger.queue ⟨(r.lane source).consumer, p⟩ = [] := by
    intro source p
    rw [List.eq_nil_iff_forall_not_mem]
    intro id hid
    have hle := h.known _ (h.tidy.mem_queues hid)
    rw [← show (k source).id = _ from (hs.member source).id_eq] at hle
    exact Nat.not_lt.mpr hle (hnew source)
  refine ⟨hs, ?_, ?_, ?_, h.tidy, Nat.le_refl _, Nat.le_refl _, fun topic p => ?_,
    fun source p => ⟨[], ?_, fun _ hid => absurd hid List.not_mem_nil, ?_⟩⟩
  · show r.dequeue.Going
    rw [hdequeue]
    trivial
  · show r.dequeue = _ ∨ r.dequeue = _ → _
    rw [hdequeue]
    rintro (hend | hend) <;> cases hend
  · show r.dequeue = _ → _
    rw [hdequeue]
    intro hend
    cases hend
  · show (s.queue.ledger.taken s.queue.ledger.entries.size topic p).Pairwise _
    rw [Ledger.taken_of_size rfl]
    exact List.Pairwise.nil
  · dsimp only
    rw [Ledger.appended_of_size rfl, hqueue]
    rfl
  · have hsince : s.queue.since s.queue.reports.size = [] := List.drop_length
    show (s.queue.committed s.queue.reports.size _ p).Sublist []
    rw [Queue.committed, hsince]
    exact List.nil_sublist _

/-- Both consumers join, or the run is over at once. -/
theorem launch (h : s.Begins) : s.launch.Over ∨
    ∃ k, s.launch.Underway s.queue.ledger.entries.size s.queue.reports.size k := by
  have hlaunched := s.launched
  generalize s.launch = s' at hlaunched ⊢
  cases hlaunched with
  | fail c e =>
    rw [h.run]
    exact .inl ⟨⟨_, rfl⟩, rfl, rfl, rfl⟩
  | @join primary delayed c c' r hvalid hon hon' hlane hlane' hchannel hdequeue =>
    have htopics := Config.topicOf_injective hvalid
    have hne : s.queue.config.primaryTopic ≠ s.queue.config.delayedTopic :=
      htopics.ne (nofun : Source.primary ≠ Source.delayed)
    obtain ⟨k, hk, hgroup, htopic, -, -, -, hlt, hle⟩ :=
      Cluster.Sole.of_subscribe h.orderly (h.empty .primary) hon
    -- nobody is in the group of the other topic still
    have hempty := Cluster.roster_subscribe h.orderly s.queue.broker s.queue.config.groupId hne
    rw [hon] at hempty
    obtain ⟨l, hl, hgroup', htopic', -, -, -, hlt', -⟩ :=
      Cluster.Sole.of_subscribe hk.orderly (by rw [hempty]; exact h.empty .delayed) hon'
    have hother : s.queue.config.delayedTopic ≠ k.topic := by
      rw [htopic]
      exact hne.symm
    have hkept := hk.subscribe s.queue.broker s.queue.config.groupId hother
    rw [hon'] at hkept
    rw [hkept.consumer] at hlane
    rw [hl.consumer] at hlane'
    have hbehind : k.id < l.id := Nat.lt_of_le_of_lt hle hlt'
    have hheld : ∀ source, (r.lane source).held = [] := by
      intro source
      cases source
      · rw [hlane]
      · rw [hlane']
    have hstaffed : Staffed s.queue.ledger.entries.size { s with cluster := c', run := r }
        (Source.both k l) := by
      refine Staffed.fresh (s := { s with cluster := c', run := r }) htopics
        (fun source => ?_) (fun a b heq => ?_) hheld hchannel.1
      · cases source with
        | primary => exact ⟨hlane ▸ hkept, by rw [hlane]; rfl, hgroup, htopic⟩
        | delayed => exact ⟨hlane' ▸ hl, by rw [hlane']; rfl, hgroup', htopic'⟩
      · cases a <;> cases b
        · rfl
        · exact absurd heq hbehind.ne
        · exact absurd heq hbehind.ne'
        · rfl
    refine .inr ⟨Source.both k l, h.underway hstaffed (fun source => ?_) hdequeue⟩
    cases source with
    | primary => exact hlt
    | delayed => exact hlt.trans hbehind

end Begins

/-! ## Whatever happens -/

/-- A run in a stable group, at any moment. -/
inductive Stable (first told : Nat) (s : Scene σ) : Prop where
  | begins (h : s.Begins) (hfirst : s.queue.ledger.entries.size = first)
    (htold : s.queue.reports.size = told)
  | underway {k : Source → Consumer} (h : s.Underway first told k)
  | ended (h : s.Over)

/-- Others act before the run begins, and keep out of the groups. -/
theorem Begins.other (h : s.Begins) {a : Act}
    (hspares : ∀ call, a.MayCall s.cluster call → s.queue.config.Spares σ call) :
    Begins { s with cluster := a.on s.cluster } := by
  have hreached : Reached (s.queue.config.Spares σ) s.cluster.store (a.on s.cluster).store :=
    Cluster.reached_on a s.cluster hspares
  have hfair : ∀ call, s.queue.config.Spares σ call → Fair σ call := fun _ hcall => hcall.1
  refine ⟨h.run, ?_, fun source => ?_, h.tidy, fun q hq => ?_⟩
  · exact (hreached.roster_later h.orderly hfair "" "").1
  · have hsame := hreached.roster_eq h.orderly hfair fun call hcall => hcall.2 source
    exact (congrArg Membership.members hsame).trans (h.empty source)
  · exact (h.known q hq).trans (hreached.issued_le (sound_of_orderly _ h.orderly))

/-- The token fires before the run begins. -/
theorem Begins.cancel (h : s.Begins) : Begins { s with run := { s.run with fired := true } } := by
  refine ⟨?_, h.orderly, h.empty, h.tidy, h.known⟩
  show { s.run with fired := true } = _
  rw [h.run]

theorem Stable.next (h : s.Stable first told) (jitter : Jitter) {m : Move}
    (hspares : m.Keeps (s.queue.config.Spares σ) s.cluster) :
    (s.next jitter m).Stable first told := by
  cases m with
  | step p =>
    show ((s.step? jitter p).getD s).Stable first told
    cases h with
    | begins h hfirst htold =>
      rw [h.step?_eq]
      split
      · rw [Option.getD_some]
        rcases h.launch with hover | ⟨k, hunderway⟩
        · exact .ended hover
        · rw [hfirst, htold] at hunderway
          exact .underway hunderway
      · exact .begins h hfirst htold
    | underway h =>
      cases hstep : s.step? jitter p with
      | none => exact .underway h
      | some s' =>
        rcases h.stepped hstep with ⟨k', h'⟩ | h'
        · exact .underway h'
        · exact .ended h'
    | ended h =>
      rw [h.step?_eq_none]
      exact .ended h
  | cancel =>
    cases h with
    | begins h hfirst htold => exact .begins h.cancel hfirst htold
    | underway h => exact .underway (h.ofRun h.going h.closed h.through)
    | ended h => exact .ended ⟨h.ended, h.stopped, h.tasks, h.buffer⟩
  | other a =>
    cases h with
    | begins h hfirst htold => exact .begins (h.other hspares) hfirst htold
    | underway h => exact .underway (h.other hspares)
    | ended h => exact .ended ⟨h.ended, h.stopped, h.tasks, h.buffer⟩

/-! ## A run on its own -/

/-- A run that is about to begin on a broker of its own. -/
def lone : Scene MemoryLog where
  cluster := { store := {}, brokers := #[{ defaultPartitions := 1 }] }
  queue := { broker := 0, config := { groupId := "g", primaryTopic := "t", delayedTopic := "d" } }
  run := {}

theorem begins_lone : lone.Begins where
  run := rfl
  orderly := MemoryLog.orderly_empty
  empty source := by cases source <;> rfl
  tidy := Ledger.tidy_empty
  known _ hq := absurd hq List.not_mem_nil

end Scene

end WorkQueue
