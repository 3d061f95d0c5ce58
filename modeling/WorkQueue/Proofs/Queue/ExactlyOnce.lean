import Mathlib.Data.List.Perm.Subperm
import WorkQueue.Proofs.Queue.Stable

/-!
# Exactly once in a stable group

In a group that nobody else joins, a run takes every record at most once: the ledger accepts whatever
arrives and holds no record twice, no record is dispatched or reported twice, and the offsets
reported for a partition ascend. This holds in front of and behind the moment at which the token
fires, and whatever fails on the way.

That a record has been dispatched cannot be told from a scene, since its task may be gone; so the
records dispatched are kept beside it.

## Main definitions

* `Scene.dispatched`: the records whose tasks are dispatched along what happens
* `Scene.Distinct`: records accepted by the run, none of them twice
* `Scene.Noted`: the invariant

## Main statements

* `Scene.Noted.next`: whatever happens keeps it
* `Scene.exactlyOnce`: accepted, dispatched and reported at most once
-/

namespace WorkQueue

open StoreView GroupStore

/-! ## Records of tasks -/

namespace Task

/-- The record whose outcome a task has still to report. -/
def unreported? (t : Task) : Option Place :=
  match t.stage with
  | .executing x => some x.record.place
  | .reporting r => some (r.topic, r.partition, r.offset)
  | .committing => none

/-- The record that a task has still to dispatch. -/
def undispatched? (t : Task) : Option Place :=
  match t.stage with
  | .executing x =>
    match x.stage with
    | .fresh => some x.record.place
    | _ => none
  | _ => none

theorem undispatched?_eq_none {t : Task} (h : ∀ x, t.stage = .executing x → x.stage ≠ .fresh) :
    t.undispatched? = none := by
  unfold undispatched?
  split
  · next x hstage =>
    split
    · next hfresh => exact absurd hfresh (h x hstage)
    · rfl
  · rfl

end Task

/-- The records whose outcomes are still to be reported. -/
def Run.unreported (r : Run) : List Place := r.tasks.filterMap Task.unreported?

/-- The records that are still to be dispatched. -/
def Run.undispatched (r : Run) : List Place := r.tasks.filterMap Task.undispatched?

variable {σ : Type}

namespace Scene

/-- The record that a move dispatches. -/
def dispatches (s : Scene σ) : Move → List Place
  | .step (.task index) => ((s.run.tasks[index]?).bind Task.undispatched?).toList
  | _ => []

variable {first told : Nat} {places places' begun begun' : List Place} {s s' : Scene σ}

/-! ## Records accepted once -/

/-- Records that the ledger has accepted behind `first` entries, none of them twice, and none that
waits for a permit. -/
structure Distinct (first : Nat) (s : Scene σ) (places : List Place) : Prop where
  nodup : places.Nodup
  accepted : ∀ place ∈ places, ∃ id, first ≤ id ∧ s.queue.ledger.placeAt? id = some place
  waits : ∀ id, s.run.dequeue = .awaitingPermit id →
    ∀ place ∈ places, s.queue.ledger.placeAt? id ≠ some place

namespace Distinct

theorem nil (first : Nat) (s : Scene σ) : s.Distinct first [] :=
  ⟨List.nodup_nil, fun _ hplace => absurd hplace List.not_mem_nil,
    fun _ _ _ hplace => absurd hplace List.not_mem_nil⟩

/-- Fewer records, of the same entries. -/
theorem mono (h : s.Distinct first places)
    (hplace : ∀ id, s'.queue.ledger.placeAt? id = s.queue.ledger.placeAt? id)
    (hdequeue : ∀ id, s'.run.dequeue = .awaitingPermit id → s.run.dequeue = .awaitingPermit id)
    (hplaces : places'.Subperm places) : s'.Distinct first places' := by
  refine ⟨?_, fun place hmem => ?_, fun id hid place hmem => ?_⟩
  · obtain ⟨kept, hperm, hsub⟩ := hplaces
    exact hperm.nodup_iff.mp (h.nodup.sublist hsub)
  · obtain ⟨id, hfirst, hid⟩ := h.accepted place (hplaces.subset hmem)
    exact ⟨id, hfirst, (hplace id).trans hid⟩
  · rw [hplace]
    exact h.waits id (hdequeue id hid) place (hplaces.subset hmem)

/-- A new entry is none of them, since no place is taken twice. -/
theorem track (h : s.Distinct first places) {d : Delivery} {channel : Channel}
    (hfirst : first ≤ s.queue.ledger.entries.size)
    (hascending : ∀ topic p,
      ((s.queue.ledger.track d.consumer d.record).taken first topic p).Pairwise (· < ·)) :
    Distinct first { s with
      queue := { s.queue with ledger := s.queue.ledger.track d.consumer d.record }
      run := { s.run with
        dequeue := .awaitingPermit s.queue.ledger.entries.size, channel } } places := by
  have hold : ∀ id place, s.queue.ledger.placeAt? id = some place →
      Ledger.placeAt? (s.queue.ledger.track d.consumer d.record) id = some place := by
    intro id place hid
    rw [Ledger.placeAt?_track, if_neg (Nat.ne_of_lt (Ledger.lt_of_placeAt? hid))]
    exact hid
  refine ⟨h.nodup, fun place hmem => ?_, fun id hid place hmem hnew => ?_⟩
  · obtain ⟨id, hle, hid⟩ := h.accepted place hmem
    exact ⟨id, hle, hold id place hid⟩
  · obtain rfl := Dequeue.awaitingPermit.inj hid
    obtain ⟨id, hle, hid'⟩ := h.accepted place hmem
    have heq := Ledger.eq_of_placeAt?_eq hascending hle hfirst (hold id place hid') hnew
    exact Nat.ne_of_lt (Ledger.lt_of_placeAt? hid') heq

/-- What has waited for a permit joins them. -/
theorem spawn (h : s.Distinct first places) {entry : Nat} {e : Entry}
    (hdequeue : s.run.dequeue = .awaitingPermit entry) (hfirst : first ≤ entry)
    (he : s.queue.ledger.entry? entry = some e) :
    (s.spawn entry e.record e.state).Distinct first (places ++ [e.record.place]) := by
  have hplace : s.queue.ledger.placeAt? entry = some e.record.place :=
    Ledger.placeAt?_eq_some.mpr ⟨e, he, rfl⟩
  refine ⟨?_, fun place hmem => ?_, fun id hid => ?_⟩
  · refine List.nodup_append.mpr ⟨h.nodup, List.nodup_singleton _, fun a ha b hb heq => ?_⟩
    rw [List.mem_singleton.mp hb] at heq
    exact h.waits entry hdequeue a ha (heq ▸ hplace)
  · rcases List.mem_append.mp hmem with hold | hnew
    · exact h.accepted place hold
    · rw [List.mem_singleton.mp hnew]
      exact ⟨entry, hfirst, hplace⟩
  · cases hid

end Distinct

/-! ## The invariant -/

/-- What has been noted of a run behind `first` entries and `told` reports, whose tasks have
dispatched the records `begun`. -/
structure Noted (first told : Nat) (begun : List Place) (s : Scene σ) : Prop where
  ascending : ∀ topic p, (s.queue.ledger.taken first topic p).Pairwise (· < ·)
  /-- Whatever has been reported to be committed has been taken. -/
  committed : ∀ topic p, (s.queue.committed told topic p).Sublist
    (s.queue.ledger.taken first topic p)
  awaiting : ∀ id, s.run.dequeue = .awaitingPermit id → first ≤ id
  reported : s.Distinct first (s.queue.resolved told ++ s.run.unreported)
  dispatched : s.Distinct first (begun ++ s.run.undispatched)

namespace Noted

/-- Whatever leaves the entries as they are and brings in no record. -/
theorem update (h : s.Noted first told begun)
    (hplace : ∀ id, s'.queue.ledger.placeAt? id = s.queue.ledger.placeAt? id)
    (htaken : ∀ topic p, s'.queue.ledger.taken first topic p = s.queue.ledger.taken first topic p)
    (hcommitted : ∀ topic p, (s'.queue.committed told topic p).Sublist
      (s.queue.ledger.taken first topic p))
    (hdequeue : ∀ id, s'.run.dequeue = .awaitingPermit id → s.run.dequeue = .awaitingPermit id)
    (hreported : (s'.queue.resolved told ++ s'.run.unreported).Subperm
      (s.queue.resolved told ++ s.run.unreported))
    (hdispatched : (begun' ++ s'.run.undispatched).Subperm
      (begun ++ s.run.undispatched)) : s'.Noted first told begun' where
  ascending topic p := by
    rw [htaken]
    exact h.ascending topic p
  committed topic p := by
    rw [htaken]
    exact hcommitted topic p
  awaiting id hid := h.awaiting id (hdequeue id hid)
  reported := h.reported.mono hplace hdequeue hreported
  dispatched := h.dispatched.mono hplace hdequeue hdispatched

/-- Whatever leaves the queue and the tasks as they are. -/
theorem ofRun (h : s.Noted first told begun) (hqueue : s'.queue = s.queue)
    (hdequeue : ∀ id, s'.run.dequeue = .awaitingPermit id → s.run.dequeue = .awaitingPermit id)
    (htasks : s'.run.tasks = s.run.tasks) : s'.Noted first told begun := by
  refine h.update (fun _ => by rw [hqueue]) (fun _ _ => by rw [hqueue]) (fun topic p => ?_) hdequeue
    ?_ ?_
  · rw [hqueue]
    exact h.committed topic p
  · rw [hqueue, Run.unreported, htasks]
    exact .refl _
  · rw [Run.undispatched, htasks]
    exact .refl _

/-- Nothing has happened to a run without tasks. -/
theorem fresh (hfirst : s.queue.ledger.entries.size = first) (htold : s.queue.reports.size = told)
    (hdequeue : ∀ id, s.run.dequeue ≠ .awaitingPermit id) (htasks : s.run.tasks = []) :
    s.Noted first told [] := by
  have hsince : s.queue.since told = [] := by
    rw [← htold]
    exact List.drop_length
  refine ⟨fun topic p => ?_, fun topic p => ?_, fun id hid => absurd hid (hdequeue id), ?_, ?_⟩
  · rw [Ledger.taken_of_size hfirst]
    exact List.Pairwise.nil
  · rw [Queue.committed, hsince]
    exact List.nil_sublist _
  · rw [Queue.resolved, hsince, Run.unreported, htasks]
    exact .nil first s
  · rw [Run.undispatched, htasks]
    exact .nil first s

/-- An execution is begun. -/
theorem spawn (h : s.Noted first told begun) {entry : Nat} {e : Entry}
    (hdequeue : s.run.dequeue = .awaitingPermit entry)
    (he : s.queue.ledger.entry? entry = some e) :
    (s.spawn entry e.record e.state).Noted first told begun := by
  have hfirst := h.awaiting entry hdequeue
  have hunreported : (s.spawn entry e.record e.state).run.unreported =
      s.run.unreported ++ [e.record.place] := by
    unfold Run.unreported Scene.spawn
    rw [List.filterMap_append]
    rfl
  have hundispatched : (s.spawn entry e.record e.state).run.undispatched =
      s.run.undispatched ++ [e.record.place] := by
    unfold Run.undispatched Scene.spawn
    rw [List.filterMap_append]
    rfl
  refine ⟨h.ascending, h.committed, fun id hid => ?_, ?_, ?_⟩
  · cases hid
  · rw [hunreported, ← List.append_assoc]
    exact h.reported.spawn hdequeue hfirst he
  · rw [hundispatched, ← List.append_assoc]
    exact h.dispatched.spawn hdequeue hfirst he

/-! ## Steps -/

variable [LogStore σ]

/-- A step of an execution. It keeps its record, which is dispatched by the first step. -/
theorem execute (h : s.Noted first told begun) {jitter : Jitter} {index : Nat} {t : Task}
    {x : Execution} {next : Execution × Workbench (Cluster σ)} {stage : TaskStage} {permits : Nat}
    (ht : s.run.tasks[index]? = some t) (hstage : t.stage = .executing x)
    (hnext : x.step? (s.queue.executor jitter) s.cluster.now (publish s.queue.broker) s.bench =
      some next)
    (hafter : next.1.resolution? = none ∧ stage = .executing next.1 ∨
      ∃ r, next.1.resolution? = some r ∧ stage = .reporting r) :
    Noted first told (begun ++ t.undispatched?.toList) {
      cluster := next.2.producer
      queue := { s.queue with
        ledger := (s.queue.ledger.transition t.entry next.1.state).2
        counters := next.2.surroundings.counters }
      run := { s.run with
        fired := next.2.surroundings.fired, permits
        tasks := s.run.tasks.set index { t with stage } } } := by
  obtain ⟨hlt, -⟩ := List.getElem?_eq_some_iff.mp ht
  have hrecord := Execution.record_step? hnext
  have hunreported : Task.unreported? { t with stage } = t.unreported? := by
    unfold Task.unreported?
    rw [hstage]
    rcases hafter with ⟨-, rfl⟩ | ⟨r, hr, rfl⟩
    · simp only [hrecord]
    · obtain ⟨htopic, hpartition, hoffset, -⟩ := Execution.resolution?_eq_some hr
      simp only [htopic, hpartition, hoffset, hrecord]
      rfl
  have hundispatched : Task.undispatched? { t with stage } = none := by
    apply Task.undispatched?_eq_none
    rcases hafter with ⟨-, rfl⟩ | ⟨r, -, rfl⟩
    · intro x' hx'
      obtain rfl := TaskStage.executing.inj hx'
      exact Execution.stage_step?_ne_fresh hnext
    · intro x' hx'
      cases hx'
  refine h.update (Ledger.placeAt?_transition t.entry next.1.state)
    (fun _ _ => Ledger.taken_transition t.entry next.1.state) h.committed (fun _ hid => hid) ?_ ?_
  · have hset := Task.filterMap_set_perm Task.unreported? hlt { t with stage }
    rw [hunreported] at hset
    exact ((hset.trans (Task.filterMap_perm _ ht).symm).append_left _).subperm
  · have hset := Task.filterMap_set_perm Task.undispatched? hlt { t with stage }
    rw [hundispatched] at hset
    rw [List.append_assoc]
    exact (((hset.append_left _).trans (Task.filterMap_perm _ ht).symm).append_left _).subperm

variable [GroupStore σ] {k : Source → Consumer}

/-- A pass reports what has been released. -/
theorem commitPass (h : s.Noted first told begun) (hs : s.Underway first told k) :
    s.commitPass.Noted first told begun := by
  have hcommits := hs.commits
  have hledger : s.commitPass.queue.ledger = s.queue.ledger.collect.2 := by rw [hcommits.queue]
  have hconfig : s.commitPass.queue.config = s.queue.config := by rw [hcommits.queue]
  have hrun : s.commitPass.run = s.run := hcommits.run
  refine h.update (fun _ => by rw [hledger]; rfl) (fun _ _ => by rw [hledger]; rfl)
    (fun topic p => ?_) (fun id hid => ?_) ?_ ?_
  · obtain ⟨added, hadded, rfl | ⟨source, rfl, -⟩⟩ := hcommits.committed topic p
    · rw [hadded, List.append_nil]
      exact h.committed topic p
    -- the topic is one that the run reads
    · obtain ⟨released, hparted⟩ := hs.commitPass.parted source p
      have hsub := hparted.sublist_taken
      rw [hconfig, hledger] at hsub
      exact hsub
  · rwa [hrun] at hid
  · rw [hcommits.resolved, hrun]
    exact .refl _
  · rw [hrun]

/-- The next delivery is accepted. -/
theorem accept (h : s.Noted first told begun) (hs : s.Underway first told k) {d : Delivery}
    {rest : List Delivery} (hbuffer : s.run.channel.buffer = d :: rest) :
    Noted first told begun { s with
      queue := { s.queue with ledger := s.queue.ledger.track d.consumer d.record }
      run := { s.run with
        dequeue := .awaitingPermit s.queue.ledger.entries.size
        channel := { s.run.channel with buffer := rest } } } := by
  have hascending := (hs.accept hbuffer).ascending
  refine ⟨hascending, fun topic p => ?_, fun id hid => ?_, h.reported.track hs.first_le hascending,
    h.dispatched.track hs.first_le hascending⟩
  · refine (h.committed topic p).trans ?_
    show List.Sublist _ ((s.queue.ledger.track d.consumer d.record).taken first topic p)
    rw [Ledger.taken_track hs.first_le]
    exact List.sublist_append_left _ _
  · rw [← Dequeue.awaitingPermit.inj hid]
    exact hs.first_le

/-- A step of the loop that takes deliveries. -/
theorem dequeued (h : s.Noted first told begun) (hs : s.Underway first told k)
    (hstep : s.Dequeued s') : s'.Noted first told begun := by
  cases hstep with
  | launch hdequeue =>
    have hgoing := hs.going
    rw [hdequeue] at hgoing
    exact hgoing.elim
  | accept hdequeue hbuffer =>
    rw [hs.accept_eq hbuffer]
    exact h.accept hs hbuffer
  | stop =>
    refine h.ofRun rfl (fun id hid => ?_) rfl
    cases hid
  | @cancel entry =>
    refine h.update (Ledger.placeAt?_transition entry .canceled)
      (fun _ _ => Ledger.taken_transition entry .canceled) h.committed (fun id hid => ?_)
      (.refl _) (.refl _)
    cases hid
  | spawn hdequeue he => exact h.spawn hdequeue he
  | skip =>
    refine h.ofRun rfl (fun id hid => ?_) rfl
    cases hid
  | close =>
    refine h.ofRun rfl (fun id hid => ?_) rfl
    cases hid
  | conclude =>
    have hpass := h.commitPass hs
    refine hpass.update (fun _ => rfl) (fun _ _ => rfl) hpass.committed (fun id hid => ?_)
      (.refl _) (.refl _)
    cases hid

/-- An outcome is reported, or not if the recorder is silent. -/
theorem report (h : s.Noted first told begun) (hs : s.Underway first told k) {index : Nat}
    {t : Task} {r : Resolution} (ht : s.run.tasks[index]? = some t) (hstage : t.stage = .reporting r)
    {tasks : List Task} (htasks : ∀ f : Task → Option Place, f { t with stage := .committing } = none →
      (tasks.filterMap f).Perm ((s.run.tasks.eraseIdx index).filterMap f)) :
    Noted first told begun { s with
      queue := s.queue.report (.resolved s.cluster.now r), run := { s.run with tasks } } := by
  have hledger : (s.queue.report (.resolved s.cluster.now r)).ledger = s.queue.ledger := by
    rw [Queue.report_eq]
  have hunreported : t.unreported? = some (r.topic, r.partition, r.offset) := by
    unfold Task.unreported?
    rw [hstage]
  have hold := Task.filterMap_perm Task.unreported? ht
  rw [hunreported] at hold
  have hnew := htasks Task.unreported? rfl
  refine h.update (fun _ => by rw [hledger]) (fun _ _ => by rw [hledger]) (fun topic p => ?_)
    (fun _ hid => hid) ?_ ?_
  · show List.Sublist ((s.queue.report (.resolved s.cluster.now r)).committed told topic p) _
    rw [Queue.committed_report_resolved hs.told_le]
    exact h.committed topic p
  · show List.Subperm ((s.queue.report (.resolved s.cluster.now r)).resolved told ++
      tasks.filterMap Task.unreported?) (_ ++ s.run.tasks.filterMap Task.unreported?)
    rcases Queue.resolved_report_resolved hs.told_le s.cluster.now r with heq | heq
    · rw [heq]
      exact (List.Subperm.refl _).append
        (hnew.subperm.trans ((List.sublist_cons_self _ _).subperm.trans hold.symm.subperm))
    · rw [heq, List.append_assoc]
      exact (List.Subperm.refl _).append ((hnew.cons _).subperm.trans hold.symm.subperm)
  · refine (List.Subperm.refl _).append ?_
    have hnone : t.undispatched? = none := Task.undispatched?_eq_none fun x hx => by
      rw [hstage] at hx
      cases hx
    have hsame := Task.filterMap_perm Task.undispatched? ht
    rw [hnone] at hsame
    exact ((htasks Task.undispatched? rfl).trans hsame.symm).subperm

/-- A step of a task. -/
theorem worked (h : s.Noted first told begun) (hs : s.Underway first told k) {jitter : Jitter}
    {index : Nat} (hstep : s.Worked jitter index s') :
    s'.Noted first told (begun ++ s.dispatches (.step (.task index))) := by
  have hdispatches : ∀ t, s.run.tasks[index]? = some t →
      s.dispatches (.step (.task index)) = t.undispatched?.toList := by
    intro t ht
    show ((s.run.tasks[index]?).bind Task.undispatched?).toList = _
    rw [ht]
    rfl
  -- only an execution dispatches
  have hnothing : ∀ t, s.run.tasks[index]? = some t → (∀ x, t.stage ≠ .executing x) →
      begun ++ s.dispatches (.step (.task index)) = begun := by
    intro t ht hstage
    have hnone : t.undispatched? = none :=
      Task.undispatched?_eq_none fun x hx => absurd hx (hstage x)
    rw [hdispatches t ht, hnone]
    exact List.append_nil _
  cases hstep with
  | @execute t x next stage permits ht hstage hnext hafter =>
    rw [hdispatches t ht]
    exact h.execute ht hstage hnext hafter
  | @report t r ht hstage =>
    obtain ⟨hlt, -⟩ := List.getElem?_eq_some_iff.mp ht
    rw [hnothing t ht fun x hx => TaskStage.noConfusion (hstage.symm.trans hx)]
    refine h.report hs ht hstage fun f hf => ?_
    have hset := Task.filterMap_set_perm f hlt { t with stage := .committing }
    rw [hf] at hset
    exact hset
  | @lose t r ht hstage =>
    rw [hnothing t ht fun x hx => TaskStage.noConfusion (hstage.symm.trans hx)]
    exact h.report hs ht hstage fun f _ => List.Perm.refl _
  | @commit t ht hstage =>
    rw [hnothing t ht fun x hx => TaskStage.noConfusion (hstage.symm.trans hx)]
    have hpass := h.commitPass hs
    have hrun : s.commitPass.run = s.run := hs.commits.run
    refine hpass.update (fun _ => rfl) (fun _ _ => rfl) hpass.committed (fun _ hid => hid) ?_ ?_ <;>
      refine (List.Subperm.refl _).append ?_
    · show List.Subperm ((s.commitPass.run.tasks.eraseIdx index).filterMap _) s.commitPass.run.unreported
      rw [hrun]
      exact ((List.eraseIdx_sublist _ _).filterMap _).subperm
    · show List.Subperm ((s.commitPass.run.tasks.eraseIdx index).filterMap _)
        s.commitPass.run.undispatched
      rw [hrun]
      exact ((List.eraseIdx_sublist _ _).filterMap _).subperm

/-! ## Whatever happens -/

omit [GroupStore σ] in
/-- A task that has to be dispatched need not wait. -/
theorem dispatches_of_step?_eq_none {jitter : Jitter} {p : Process} (h : s.step? jitter p = none) :
    s.dispatches (.step p) = [] := by
  cases p with
  | dequeue => rfl
  | primary => rfl
  | delayed => rfl
  | task index =>
    cases ht : s.run.tasks[index]? with
    | none => simp [dispatches, ht]
    | some t =>
      have hnone : t.undispatched? = none := Task.undispatched?_eq_none fun x hx hfresh => by
        simp only [Scene.step?, taskStep?, ht, hx, Execution.step?, hfresh] at h
        split at h <;> cases h
      simp [dispatches, ht, hnone]

/-- Whatever happens, the invariant is kept. -/
theorem next (h : s.Noted first told begun) (hs : s.Stable first told) (jitter : Jitter)
    (m : Move) : (s.next jitter m).Noted first told (begun ++ s.dispatches m) := by
  cases m with
  | cancel =>
    rw [show s.dispatches .cancel = [] from rfl, List.append_nil]
    exact h.ofRun rfl (fun _ hid => hid) rfl
  | other a =>
    rw [show s.dispatches (.other a) = [] from rfl, List.append_nil]
    exact h.ofRun rfl (fun _ hid => hid) rfl
  | step p =>
    show ((s.step? jitter p).getD s).Noted first told (begun ++ s.dispatches (.step p))
    cases hstep : s.step? jitter p with
    | none =>
      rw [dispatches_of_step?_eq_none hstep, List.append_nil]
      exact h
    | some s' =>
    rw [Option.getD_some]
    cases hs with
    | begins hbegins =>
      rw [hbegins.step?_eq] at hstep
      split at hstep
      · next hdequeue =>
        obtain rfl := Option.some.inj hstep
        subst hdequeue
        rw [show s.dispatches (.step .dequeue) = [] from rfl, List.append_nil]
        refine h.ofRun s.launched.queue_eq (fun id hid => absurd hid ?_) s.launched.tasks_eq
        exact s.launched.not_awaiting id
      · cases hstep
    | ended hover =>
      rw [hover.step?_eq_none] at hstep
      cases hstep
    | underway hs =>
      cases p with
      | dequeue =>
        rw [show s.dispatches (.step .dequeue) = [] from rfl, List.append_nil]
        exact h.dequeued hs (dequeued_of_step? hstep)
      | primary =>
        obtain ⟨hqueue, htasks, hdequeue, -⟩ := intake_keeps hstep (.inl rfl)
        rw [show s.dispatches (.step .primary) = [] from rfl, List.append_nil]
        exact h.ofRun hqueue (fun _ hid => hdequeue ▸ hid) htasks
      | delayed =>
        obtain ⟨hqueue, htasks, hdequeue, -⟩ := intake_keeps hstep (.inr rfl)
        rw [show s.dispatches (.step .delayed) = [] from rfl, List.append_nil]
        exact h.ofRun hqueue (fun _ hid => hdequeue ▸ hid) htasks
      | task index => exact h.worked hs (worked_of_step? hstep)

end Noted

variable [LogStore σ]

/-- The records that are dispatched, one after the other. -/
def dispatched (jitter : Jitter) : List Move → Scene σ → List Place
  | [], _ => []
  | m :: rest, s => s.dispatches m ++ dispatched jitter rest (s.next jitter m)

variable [GroupStore σ]

/-- Whatever happens, a run stays in its stages, and the invariant holds. -/
theorem Noted.after (h : s.Noted first told begun) (hs : s.Stable first told) {jitter : Jitter}
    {moves : List Move} (hspares : Undisturbed (s.queue.config.Spares σ) jitter moves s) :
    (s.after jitter moves).Stable first told ∧
      (s.after jitter moves).Noted first told (begun ++ s.dispatched jitter moves) := by
  induction moves generalizing s begun with
  | nil =>
    refine ⟨hs, ?_⟩
    rw [Scene.dispatched, List.append_nil]
    exact h
  | cons m rest ih =>
    obtain ⟨hkeeps, hrest⟩ := hspares
    rw [← (same_next s jitter m).config_eq] at hrest
    obtain ⟨hstable, hnoted⟩ := ih (h.next hs jitter m) (hs.next jitter hkeeps) hrest
    rw [List.append_assoc] at hnoted
    exact ⟨hstable, hnoted⟩

theorem Begins.noted (h : s.Begins) :
    s.Noted s.queue.ledger.entries.size s.queue.reports.size [] := by
  refine .fresh rfl rfl (fun id hid => ?_) ?_
  · rw [h.run] at hid
    cases hid
  · rw [h.run]

/-- Before a run and behind it nothing is delivered. -/
theorem Stable.append_eq_ok (h : s.Stable first told) {d : Delivery} {rest : List Delivery}
    (hbuffer : s.run.channel.buffer = d :: rest) :
    s.queue.ledger.append d.consumer d.record =
      .ok (s.queue.ledger.entries.size, s.queue.ledger.track d.consumer d.record) := by
  cases h with
  | begins h =>
    rw [h.run] at hbuffer
    cases hbuffer
  | underway h => exact h.append_eq_ok hbuffer
  | ended h =>
    rw [h.buffer] at hbuffer
    cases hbuffer

/-! ## Exactly once -/

/-- Exactly once in a stable group. Whatever happens to a run whose groups nobody else joins, the
ledger does not refuse what is delivered next, and has accepted no record of the run twice. None has
been dispatched twice or reported to be resolved twice, and the offsets that have been reported to be
committed ascend in every partition. -/
theorem exactlyOnce (h : s.Begins) {jitter : Jitter} {moves : List Move}
    (hspares : Undisturbed (s.queue.config.Spares σ) jitter moves s) :
    (∀ d rest, (s.after jitter moves).run.channel.buffer = d :: rest →
        ∃ id l, (s.after jitter moves).queue.ledger.append d.consumer d.record = .ok (id, l)) ∧
      (∀ id id' place, s.queue.ledger.entries.size ≤ id → s.queue.ledger.entries.size ≤ id' →
        (s.after jitter moves).queue.ledger.placeAt? id = some place →
        (s.after jitter moves).queue.ledger.placeAt? id' = some place → id = id') ∧
      (s.dispatched jitter moves).Nodup ∧
      ((s.after jitter moves).queue.resolved s.queue.reports.size).Nodup ∧
      ∀ topic p, ((s.after jitter moves).queue.committed s.queue.reports.size topic p).Pairwise
        (· < ·) := by
  obtain ⟨hstable, hnoted⟩ := h.noted.after (.begins h rfl rfl) hspares
  rw [List.nil_append] at hnoted
  refine ⟨fun d rest hbuffer => ⟨_, _, hstable.append_eq_ok hbuffer⟩, ?_, ?_, ?_, fun topic p => ?_⟩
  · exact fun id id' place hid hid' hplace hplace' =>
      Ledger.eq_of_placeAt?_eq hnoted.ascending hid hid' hplace hplace'
  · exact (List.nodup_append.mp hnoted.dispatched.nodup).1
  · exact (List.nodup_append.mp hnoted.reported.nodup).1
  · exact (hnoted.ascending topic p).sublist (hnoted.committed topic p)

/-- Two records arrive, the second one while the first one is worked on. Both are skipped, since
nobody can read them. -/
def twice : List Move :=
  let send : Move := .other (.outside (.send 0 "t" "k" ByteArray.empty))
  let primary : Move := .step .primary
  let dequeue : Move := .step .dequeue
  let task : Move := .step (.task 0)
  [send, dequeue, primary, primary, primary, primary, dequeue, dequeue, task, send, primary, primary,
    primary, primary, primary, task, task, dequeue, dequeue, task, task, task]

theorem exactlyOnce_twice :
    lone.dispatched Jitter.middle twice = [("t", 0, 0), ("t", 0, 1)] ∧
      (lone.after Jitter.middle twice).queue.resolved 0 = [("t", 0, 0), ("t", 0, 1)] ∧
      (lone.dispatched Jitter.middle twice).Nodup ∧
      ∀ topic p, ((lone.after Jitter.middle twice).queue.committed 0 topic p).Pairwise (· < ·) := by
  have hdispatched : lone.dispatched Jitter.middle twice = [("t", 0, 0), ("t", 0, 1)] := by
    decide +kernel
  have hresolved : (lone.after Jitter.middle twice).queue.resolved 0 =
      [("t", 0, 0), ("t", 0, 1)] := by decide +kernel
  have hspares : Undisturbed (lone.queue.config.Spares MemoryLog) Jitter.middle twice lone :=
    undisturbed_of_sends (fun _ => ⟨trivial, fun _ => id⟩) (fun _ _ => ⟨trivial, fun _ => id⟩)
      (fun _ _ _ _ => ⟨trivial, fun _ => id⟩) (by simp [twice]) lone
  obtain ⟨-, -, hnodup, -, hcommitted⟩ := exactlyOnce begins_lone hspares
  exact ⟨hdispatched, hresolved, hnodup, hcommitted⟩

end Scene

end WorkQueue
