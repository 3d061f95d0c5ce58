import Mathlib.Data.List.Perm.Basic
import WorkQueue.Proofs.Execution.States
import WorkQueue.Proofs.Queue.Acting
import WorkQueue.Proofs.Queue.Passes

/-!
# The account of a run

What a run has done to its queue is kept beside it: the entries that it has appended, those of them
that it has canceled while they waited for a permit, and the outcomes that it has reported. Every
entry that it has appended is in execution, waits for a permit, has been canceled in front of one, or
has been brought to an end by its execution; and what has been reported are the outcomes of the last
ones, apart from those that tasks have still to report.

## Main definitions

* `Account`, `Scene.account`: what a step adds
* `Run.Accounted`: the invariant

## Main statements

* `Run.Accounted.track`, `Run.Accounted.cancel`, `Run.Accounted.spawn`, `Run.Accounted.execute`,
  `Run.Accounted.tell`: what a run may do
* `Run.Accounted.executing_le`, `Run.Accounted.open_le`: how many entries are in flight
-/

namespace WorkQueue

/-! ## Outcomes -/

/-- Where the record of an entry stands, and the state of the entry. -/
abbrev Outcome := Option Place × EntryState

/-- What has become of an entry. -/
def Ledger.outcomeOf (l : Ledger) (id : Nat) : Outcome := (l.placeAt? id, l.stateOf id)

namespace Ledger

variable {l : Ledger} {id : Nat}

theorem outcomeOf_eq {e : Entry} (h : l.entry? id = some e) :
    l.outcomeOf id = (some e.record.place, e.state) := by
  simp [outcomeOf, placeAt?, stateOf, h]

theorem outcomeOf_transition_of_ne {j : Nat} (hne : j ≠ id) (next : EntryState) :
    (l.transition id next).2.outcomeOf j = l.outcomeOf j := by
  have hentry : Ledger.entry? (l.transition id next).2 j = l.entry? j := by
    rw [entry?_transition]
    simp [hne]
  simp only [outcomeOf, placeAt?, stateOf, hentry]

/-- An entry that is not in a terminal state moves. -/
theorem outcomeOf_transition (hlt : id < l.entries.size)
    (hopen : (l.stateOf id).isTerminal = false) (next : EntryState) :
    (l.transition id next).2.outcomeOf id = (l.placeAt? id, next) := by
  have he : l.entry? id = some l.entries[id] := Array.getElem?_eq_getElem hlt
  have hopen' : l.entries[id].state.isTerminal = false := by
    have hsame : l.stateOf id = l.entries[id].state := by rw [stateOf, he]
    rw [← hsame]
    exact hopen
  have hentry : Ledger.entry? (l.transition id next).2 id =
      some { l.entries[id] with state := next } := by
    rw [entry?_transition, he]
    simp [EntryState.moveTo, hopen']
  rw [outcomeOf_eq hentry, placeAt?, he]
  rfl

end Ledger

/-- What is said to have become of an entry. -/
def Resolution.outcome (r : Resolution) : Outcome := (some (r.topic, r.partition, r.offset), r.state)

/-- The outcome that is reported, if it is one. -/
def Report.resolution? : Report → Option Resolution
  | .resolved _ r => some r
  | .committed .. => none

/-- The outcomes reported behind the first `told` reports. -/
def Queue.outcomes (q : Queue) (told : Nat) : List Resolution :=
  (q.since told).filterMap Report.resolution?

/-- The entry that a task executes. -/
def Task.working? (t : Task) : Option Nat :=
  match t.stage with
  | .executing _ => some t.entry
  | _ => none

/-- The outcome that a task has still to report. -/
def Task.pending? (t : Task) : Option Resolution :=
  match t.stage with
  | .reporting r => some r
  | _ => none

namespace Run

/-- The entries in execution. -/
def working (r : Run) : List Nat := r.tasks.filterMap Task.working?

/-- The entry that waits for a permit. -/
def waiting (r : Run) : List Nat :=
  match r.dequeue with
  | .awaitingPermit entry => [entry]
  | _ => []

/-- The outcomes that tasks have still to report. -/
def pending (r : Run) : List Resolution := r.tasks.filterMap Task.pending?

end Run

/-! ## Accounts -/

/-- What a run has done. -/
@[ext]
structure Account where
  /-- The entries that it has appended. -/
  entered : List Nat := []
  /-- Those that it has canceled while they waited for a permit. -/
  dropped : List Nat := []
  /-- The outcomes that it has reported. -/
  reported : List Resolution := []
  deriving DecidableEq, Repr

namespace Account

instance : Append Account where
  append a b := ⟨a.entered ++ b.entered, a.dropped ++ b.dropped, a.reported ++ b.reported⟩

@[simp] theorem entered_append (a b : Account) : (a ++ b).entered = a.entered ++ b.entered := rfl

@[simp] theorem dropped_append (a b : Account) : (a ++ b).dropped = a.dropped ++ b.dropped := rfl

@[simp] theorem reported_append (a b : Account) : (a ++ b).reported = a.reported ++ b.reported := rfl

theorem append_empty (a : Account) : a ++ {} = a :=
  Account.ext (List.append_nil _) (List.append_nil _) (List.append_nil _)

theorem append_assoc (a b c : Account) : a ++ b ++ c = a ++ (b ++ c) :=
  Account.ext (List.append_assoc ..) (List.append_assoc ..) (List.append_assoc ..)

end Account

variable {σ : Type}

/-- What a step of a run adds to its account: the entries that are new, the entry that has waited for
a permit until the run stopped to take deliveries, and the outcomes reported. -/
def Scene.account (s s' : Scene σ) : Account where
  entered := List.range' s.queue.ledger.entries.size
    (s'.queue.ledger.entries.size - s.queue.ledger.entries.size)
  dropped :=
    match s.run.dequeue, s'.run.dequeue with
    | .awaitingPermit entry, .finishing => [entry]
    | _, _ => []
  reported := s'.queue.outcomes s.queue.reports.size

/-! ## What stays the same of a queue -/

/-- The queue keeps some entries, its limit and its recorder. -/
structure Queue.Keeps (ids : List Nat) (q q' : Queue) : Prop where
  size_le : q.ledger.entries.size ≤ q'.ledger.entries.size
  entry_eq : ∀ id ∈ ids, q'.ledger.entry? id = q.ledger.entry? id
  config_eq : q'.config = q.config
  recorder_eq : q'.recorder = q.recorder

/-- The queue has all its entries as they were, and no outcome has been reported. -/
structure Queue.Passed (q q' : Queue) : Prop where
  entries_eq : q'.ledger.entries = q.ledger.entries
  config_eq : q'.config = q.config
  recorder_eq : q'.recorder = q.recorder
  size_le : q.reports.size ≤ q'.reports.size
  outcomes_eq : ∀ told ≤ q.reports.size, q'.outcomes told = q.outcomes told

namespace Queue

variable {q q' q'' : Queue} {ids : List Nat} {told : Nat}

theorem Keeps.refl (ids : List Nat) (q : Queue) : q.Keeps ids q :=
  ⟨Nat.le_refl _, fun _ _ => rfl, rfl, rfl⟩

theorem Keeps.outcomeOf_eq (h : q.Keeps ids q') {id : Nat} (hid : id ∈ ids) :
    q'.ledger.outcomeOf id = q.ledger.outcomeOf id := by
  simp only [Ledger.outcomeOf, Ledger.placeAt?, Ledger.stateOf, h.entry_eq id hid]

theorem Keeps.stateOf_eq (h : q.Keeps ids q') {id : Nat} (hid : id ∈ ids) :
    q'.ledger.stateOf id = q.ledger.stateOf id := (Prod.mk.inj (h.outcomeOf_eq hid)).2

namespace Passed

theorem refl (q : Queue) : q.Passed q := ⟨rfl, rfl, rfl, Nat.le_refl _, fun _ _ => rfl⟩

theorem trans (h : q.Passed q') (h' : q'.Passed q'') : q.Passed q'' where
  entries_eq := h'.entries_eq.trans h.entries_eq
  config_eq := h'.config_eq.trans h.config_eq
  recorder_eq := h'.recorder_eq.trans h.recorder_eq
  size_le := Nat.le_trans h.size_le h'.size_le
  outcomes_eq told htold :=
    (h'.outcomes_eq told (Nat.le_trans htold h.size_le)).trans (h.outcomes_eq told htold)

theorem keeps (h : q.Passed q') (ids : List Nat) : q.Keeps ids q' where
  size_le := Nat.le_of_eq (congrArg Array.size h.entries_eq).symm
  entry_eq id _ := by rw [Ledger.entry?, Ledger.entry?, h.entries_eq]
  config_eq := h.config_eq
  recorder_eq := h.recorder_eq

/-- Only the queues of the ledger have changed. -/
theorem of_entries {l : Ledger} (h : l.entries = q.ledger.entries) :
    q.Passed { q with ledger := l } := ⟨h, rfl, rfl, Nat.le_refl _, fun _ _ => rfl⟩

/-- A commit is no outcome. -/
theorem report_committed (q : Queue) (time consumer : Nat) (topic : String)
    (offsets : List (Int × Int)) : q.Passed (q.report (.committed time consumer topic offsets)) := by
  have hreport := report_eq q (.committed time consumer topic offsets)
  refine ⟨by rw [hreport], by rw [hreport], by rw [hreport], size_reports_report q _, ?_⟩
  intro told htold
  unfold outcomes
  rcases since_report htold (.committed time consumer topic offsets) with hsince | hsince
  · rw [hsince]
  · rw [hsince, List.filterMap_append]
    exact List.append_nil _

end Passed

theorem keeps_report (ids : List Nat) (q : Queue) (r : Report) : q.Keeps ids (q.report r) := by
  rw [report_eq]
  exact ⟨Nat.le_refl _, fun _ _ => rfl, rfl, rfl⟩

theorem since_self (q : Queue) : q.since q.reports.size = [] := List.drop_length

theorem outcomes_self (q : Queue) : q.outcomes q.reports.size = [] := by
  rw [outcomes, since_self, List.filterMap_nil]

theorem outcomes_report_resolved (q : Queue) (time : Nat) (r : Resolution) :
    (q.report (.resolved time r)).outcomes q.reports.size =
      if q.recorder = .silent then [] else [r] := by
  unfold report
  split
  · exact outcomes_self q
  · show List.filterMap _ (List.drop _ (q.reports.push _).toList) = [r]
    rw [Array.toList_push, List.drop_left' Array.length_toList]
    rfl

end Queue

/-! ## What holds of a run -/

/-- Executions may be under way. -/
def Dequeue.executes : Dequeue → Bool
  | .receiving | .awaitingPermit _ | .finishing => true
  | .starting | .closing | .ended _ => false

/-- Deliveries may still be taken. -/
def Dequeue.accepts : Dequeue → Bool
  | .starting | .receiving | .awaitingPermit _ => true
  | .finishing | .closing | .ended _ => false

/-- The entry of a task in execution is in the state of the execution, which goes on. -/
def Task.Follows (l : Ledger) (t : Task) : Prop :=
  ∀ x, t.stage = .executing x → x.Regular ∧ x.resolution? = none ∧
    l.outcomeOf t.entry = (some x.record.place, x.state)

namespace Run

/-- The account of a run of a queue. The entries `settled` are those that have been brought to an end
by their executions. -/
structure Accounted (q : Queue) (a : Account) (settled : List Nat) (r : Run) : Prop where
  entered : (r.working ++ r.waiting ++ a.dropped ++ settled).Perm a.entered
  nodup : a.entered.Nodup
  inside : ∀ id ∈ a.entered, id < q.ledger.entries.size
  task : ∀ t ∈ r.tasks, t.Follows q.ledger
  waits : ∀ id ∈ r.waiting, q.ledger.stateOf id = .queued
  canceled : ∀ id ∈ a.dropped, q.ledger.stateOf id = .canceled
  ended : ∀ id ∈ settled, (q.ledger.stateOf id).isTerminal = true
  reported : q.recorder ≠ .silent →
    ((a.reported ++ r.pending).map Resolution.outcome).Perm (settled.map q.ledger.outcomeOf)
  /-- A permit is held by every execution, and the others are left. -/
  permits : r.dequeue.executes = true →
    r.working.length + r.permits = q.config.maxParallelTasks
  idle : r.dequeue.executes = false → r.tasks = []
  accepts : r.dequeue.accepts = true → a.dropped = []
  once : a.dropped.length ≤ 1

namespace Accounted

variable {q q' : Queue} {a : Account} {settled : List Nat} {r r' : Run}

theorem unused (q : Queue) : Accounted q {} [] {} where
  entered := .nil
  nodup := List.nodup_nil
  inside _ hid := absurd hid List.not_mem_nil
  task _ ht := absurd ht List.not_mem_nil
  waits _ hid := absurd hid List.not_mem_nil
  canceled _ hid := absurd hid List.not_mem_nil
  ended _ hid := absurd hid List.not_mem_nil
  reported _ := .nil
  permits h := by cases h
  idle _ := rfl
  accepts _ := rfl
  once := Nat.zero_le _

theorem mem_of_working (h : r.Accounted q a settled) {id : Nat} (hid : id ∈ r.working) :
    id ∈ a.entered := h.entered.subset (by simp [hid])

theorem mem_of_waiting (h : r.Accounted q a settled) {id : Nat} (hid : id ∈ r.waiting) :
    id ∈ a.entered := h.entered.subset (by simp [hid])

theorem mem_of_dropped (h : r.Accounted q a settled) {id : Nat} (hid : id ∈ a.dropped) :
    id ∈ a.entered := h.entered.subset (by simp [hid])

theorem mem_of_settled (h : r.Accounted q a settled) {id : Nat} (hid : id ∈ settled) :
    id ∈ a.entered := h.entered.subset (by simp [hid])

theorem mem_working {t : Task} (ht : t ∈ r.tasks) {x : Execution} (hx : t.stage = .executing x) :
    t.entry ∈ r.working :=
  List.mem_filterMap.mpr ⟨t, ht, by simp [Task.working?, hx]⟩

/-- The queue goes on without touching the entries of the run. -/
theorem queue (h : r.Accounted q a settled) (hq : q.Keeps a.entered q') :
    r.Accounted q' a settled where
  entered := h.entered
  nodup := h.nodup
  inside id hid := Nat.lt_of_lt_of_le (h.inside id hid) hq.size_le
  task t ht x hx := by
    rw [hq.outcomeOf_eq (h.mem_of_working (mem_working ht hx))]
    exact h.task t ht x hx
  waits id hid := (hq.stateOf_eq (h.mem_of_waiting hid)).trans (h.waits id hid)
  canceled id hid := (hq.stateOf_eq (h.mem_of_dropped hid)).trans (h.canceled id hid)
  ended id hid := by
    rw [hq.stateOf_eq (h.mem_of_settled hid)]
    exact h.ended id hid
  reported hrecorder := by
    rw [hq.recorder_eq] at hrecorder
    have hsame : settled.map q'.ledger.outcomeOf = settled.map q.ledger.outcomeOf :=
      List.map_congr_left fun id hid => hq.outcomeOf_eq (h.mem_of_settled hid)
    rw [hsame]
    exact h.reported hrecorder
  permits hexecutes := by
    rw [hq.config_eq]
    exact h.permits hexecutes
  idle := h.idle
  accepts := h.accepts
  once := h.once

/-- The loop that takes deliveries goes on, and no task or entry has to do with it. -/
theorem goOn (h : r.Accounted q a settled) (htasks : r'.tasks = r.tasks)
    (hwaiting : r'.waiting = r.waiting)
    (hpermits : r'.dequeue.executes = true →
      r.working.length + r'.permits = q.config.maxParallelTasks)
    (hidle : r'.dequeue.executes = false → r.tasks = [])
    (haccepts : r'.dequeue.accepts = true → r.dequeue.accepts = true) :
    r'.Accounted q a settled where
  entered := by
    rw [working, htasks, hwaiting]
    exact h.entered
  nodup := h.nodup
  inside := h.inside
  task t ht := h.task t (htasks ▸ ht)
  waits id hid := h.waits id (hwaiting ▸ hid)
  canceled := h.canceled
  ended := h.ended
  reported hrecorder := by
    rw [pending, htasks]
    exact h.reported hrecorder
  permits hexecutes := by
    rw [working, htasks]
    exact hpermits hexecutes
  idle hexecutes := htasks.trans (hidle hexecutes)
  accepts hopen := h.accepts (haccepts hopen)
  once := h.once

/-- Nothing has changed that an account speaks of. -/
theorem congr (h : r.Accounted q a settled) (htasks : r'.tasks = r.tasks)
    (hdequeue : r'.dequeue = r.dequeue) (hpermits : r'.permits = r.permits) :
    r'.Accounted q a settled := by
  refine h.goOn htasks (by rw [waiting, waiting, hdequeue]) ?_ ?_ ?_
  · rw [hdequeue, hpermits]
    exact h.permits
  · rw [hdequeue]
    exact h.idle
  · rw [hdequeue]
    exact id

/-! ### Single entries -/

/-- An entry is in one place only. -/
theorem single (h : r.Accounted q a settled) {id : Nat} {rest : List Nat}
    (hperm : (r.working ++ r.waiting ++ a.dropped ++ settled).Perm (id :: rest)) :
    id ∉ rest ∧ id < q.ledger.entries.size := by
  have hentered := h.entered.symm.trans hperm
  exact ⟨(List.nodup_cons.mp (hentered.nodup_iff.mp h.nodup)).1,
    h.inside id (hentered.symm.subset List.mem_cons_self)⟩

/-- A transition of one entry leaves the others alone. -/
theorem others (h : r.Accounted q a settled) {id : Nat} {rest : List Nat}
    (hperm : (r.working ++ r.waiting ++ a.dropped ++ settled).Perm (id :: rest))
    (next : EntryState) : ∀ j ∈ rest,
      (q.ledger.transition id next).2.outcomeOf j = q.ledger.outcomeOf j := by
  intro j hj
  refine Ledger.outcomeOf_transition_of_ne (fun heq => ?_) next
  rw [heq] at hj
  exact (h.single hperm).1 hj

/-- A delivery is accepted, and its entry waits for a permit. -/
theorem track (h : r.Accounted q a settled) (hdequeue : r.dequeue = .receiving) (consumer : Nat)
    (record : Record) (htasks : r'.tasks = r.tasks) (hpermits : r'.permits = r.permits)
    (hdequeue' : r'.dequeue = .awaitingPermit q.ledger.entries.size) :
    r'.Accounted { q with ledger := q.ledger.track consumer record }
      (a ++ ⟨[q.ledger.entries.size], [], []⟩) settled := by
  have hkeeps : q.Keeps a.entered { q with ledger := q.ledger.track consumer record } :=
    ⟨by simp, fun id hid => Ledger.entry?_track_of_lt (h.inside id hid), rfl, rfl⟩
  have hold := h.queue hkeeps
  have hwaiting : r.waiting = [] := by rw [waiting, hdequeue]
  have hwaiting' : r'.waiting = [q.ledger.entries.size] := by rw [waiting, hdequeue']
  have hworking : r'.working = r.working := by rw [working, working, htasks]
  constructor
  case entered =>
    have hentered := h.entered
    rw [hwaiting] at hentered
    rw [hworking, hwaiting', Account.entered_append, Account.dropped_append]
    grind
  case nodup =>
    refine List.nodup_append.mpr ⟨h.nodup, List.nodup_singleton _, fun id hid id' hid' heq => ?_⟩
    rw [List.mem_singleton.mp hid'] at heq
    exact Nat.ne_of_lt (h.inside id hid) heq
  case inside =>
    intro id hid
    rw [Ledger.size_entries_track]
    rcases List.mem_append.mp hid with hid | hid
    · exact Nat.lt_succ_of_lt (h.inside id hid)
    · rw [List.mem_singleton.mp hid]
      exact Nat.lt_succ_self _
  case task => exact fun t ht => hold.task t (htasks ▸ ht)
  case waits =>
    intro id hid
    rw [hwaiting'] at hid
    rw [List.mem_singleton.mp hid, Ledger.stateOf, Ledger.entry?_track, if_pos rfl]
  case canceled => simpa using hold.canceled
  case ended => exact hold.ended
  case reported =>
    rw [pending, htasks, Account.reported_append, List.append_nil]
    exact hold.reported
  case permits =>
    intro _
    rw [hworking, hpermits]
    exact h.permits (by rw [hdequeue]; rfl)
  case idle =>
    intro hidle
    rw [hdequeue'] at hidle
    cases hidle
  case accepts =>
    intro _
    rw [Account.dropped_append, List.append_nil]
    exact h.accepts (by rw [hdequeue]; rfl)
  case once => simpa using h.once

/-- The token has fired before there was a permit. -/
theorem cancel (h : r.Accounted q a settled) {entry : Nat}
    (hdequeue : r.dequeue = .awaitingPermit entry) (htasks : r'.tasks = r.tasks)
    (hpermits : r'.permits = r.permits) (hdequeue' : r'.dequeue = .finishing) :
    r'.Accounted { q with ledger := (q.ledger.transition entry .canceled).2 }
      (a ++ ⟨[], [entry], []⟩) settled := by
  have hwaiting : r.waiting = [entry] := by rw [waiting, hdequeue]
  have hwaiting' : r'.waiting = [] := by rw [waiting, hdequeue']
  have hworking : r'.working = r.working := by rw [working, working, htasks]
  have hnone : a.dropped = [] := h.accepts (by rw [hdequeue]; rfl)
  have hperm : (r.working ++ r.waiting ++ a.dropped ++ settled).Perm
      (entry :: (r.working ++ settled)) := by
    rw [hwaiting, hnone]
    grind
  have hlt := (h.single hperm).2
  have hother := h.others hperm .canceled
  constructor
  case entered =>
    have hentered := h.entered
    rw [hwaiting] at hentered
    rw [hworking, hwaiting', Account.entered_append, Account.dropped_append]
    grind
  case nodup => simpa using h.nodup
  case inside => simpa using h.inside
  case task =>
    intro t ht x hx
    rw [htasks] at ht
    rw [hother _ (List.mem_append_left _ (mem_working ht hx))]
    exact h.task t ht x hx
  case waits => simp [hwaiting']
  case canceled =>
    intro id hid
    rw [Account.dropped_append, hnone] at hid
    rw [List.mem_singleton.mp hid]
    have hqueued := h.waits entry (by rw [hwaiting]; exact List.mem_singleton.mpr rfl)
    exact congrArg Prod.snd (Ledger.outcomeOf_transition hlt (by rw [hqueued]; rfl) .canceled)
  case ended =>
    intro id hid
    have hsame := congrArg Prod.snd (hother id (List.mem_append_right _ hid))
    exact (congrArg EntryState.isTerminal hsame).trans (h.ended id hid)
  case reported =>
    intro hrecorder
    have hsame : settled.map (q.ledger.transition entry .canceled).2.outcomeOf =
        settled.map q.ledger.outcomeOf :=
      List.map_congr_left fun id hid => hother id (List.mem_append_right _ hid)
    rw [pending, htasks, Account.reported_append, List.append_nil]
    show List.Perm _ (settled.map (q.ledger.transition entry .canceled).2.outcomeOf)
    rw [hsame]
    exact h.reported hrecorder
  case permits =>
    intro _
    rw [hworking, hpermits]
    exact h.permits (by rw [hdequeue]; rfl)
  case idle =>
    intro hidle
    rw [hdequeue'] at hidle
    cases hidle
  case accepts =>
    intro haccepts
    rw [hdequeue'] at haccepts
    cases haccepts
  case once => simp [hnone]

/-- An entry gets its permit, and its execution is begun. -/
theorem spawn (h : r.Accounted q a settled) {entry : Nat} {e : Entry}
    (hdequeue : r.dequeue = .awaitingPermit entry) (he : q.ledger.entry? entry = some e)
    (hpermits : 0 < r.permits)
    (htasks : r'.tasks = r.tasks ++ [{ entry, stage := .executing (.start e.record e.state) }])
    (hpermits' : r'.permits = r.permits - 1) (hdequeue' : r'.dequeue = .receiving) :
    r'.Accounted q a settled := by
  have hwaiting : r.waiting = [entry] := by rw [waiting, hdequeue]
  have hwaiting' : r'.waiting = [] := by rw [waiting, hdequeue']
  have hworking : r'.working = r.working ++ [entry] := by
    rw [working, htasks, List.filterMap_append]
    rfl
  have hpending : r'.pending = r.pending := by
    rw [pending, htasks, List.filterMap_append]
    exact List.append_nil _
  have hqueued : e.state = .queued := by
    have hstate := h.waits entry (by rw [hwaiting]; exact List.mem_singleton.mpr rfl)
    rwa [Ledger.stateOf, he] at hstate
  refine { h with entered := ?_, task := ?_, waits := ?_, reported := ?_, permits := ?_, idle := ?_,
                  accepts := ?_ }
  · have hentered := h.entered
    rw [hwaiting] at hentered
    rw [hworking, hwaiting']
    grind
  · intro t ht x hx
    rw [htasks] at ht
    rcases List.mem_append.mp ht with hold | hnew
    · exact h.task t hold x hx
    · obtain rfl := List.mem_singleton.mp hnew
      obtain rfl := TaskStage.executing.inj hx
      refine ⟨?_, rfl, Ledger.outcomeOf_eq he⟩
      rw [hqueued]
      exact Execution.regular_start e.record
  · simp [hwaiting']
  · rw [hpending]
    exact h.reported
  · intro _
    have hlevel := h.permits (by rw [hdequeue]; rfl)
    rw [hworking, hpermits', List.length_append, List.length_singleton]
    omega
  · intro hidle
    rw [hdequeue'] at hidle
    cases hidle
  · exact fun _ => h.accepts (by rw [hdequeue]; rfl)

/-! ### Tasks -/

section Tasks

variable {index : Nat} {t : Task} {x x' : Execution}

/-- A task in execution and what is in other places. -/
theorem perm_executing (ht : r.tasks[index]? = some t) (hx : t.stage = .executing x)
    (rest : List Nat) : (r.working ++ rest).Perm
      (t.entry :: ((r.tasks.eraseIdx index).filterMap Task.working? ++ rest)) := by
  have hperm := Task.filterMap_perm Task.working? ht
  have hentry : t.working? = some t.entry := by simp [Task.working?, hx]
  rw [hentry] at hperm
  exact hperm.append_right rest

/-- The entry of a task in execution is open, at the place of its record. -/
theorem open_of_executing (h : r.Accounted q a settled) (ht : r.tasks[index]? = some t)
    (hx : t.stage = .executing x) : x.state.isTerminal = false ∧
      q.ledger.outcomeOf t.entry = (some x.record.place, x.state) := by
  obtain ⟨hregular, hnone, houtcome⟩ := h.task t (List.mem_of_getElem? ht) x hx
  refine ⟨?_, houtcome⟩
  rw [Bool.eq_false_iff]
  intro hterminal
  obtain ⟨o, ho⟩ := hregular.isTerminal_iff.mp hterminal
  rw [hnone] at ho
  cases ho

/-- Where the ledger follows one execution, it still follows the others. -/
theorem task_set (h : r.Accounted q a settled) (ht : r.tasks[index]? = some t)
    (hx : t.stage = .executing x) {t' : Task} {next : EntryState}
    (ht' : t'.Follows (q.ledger.transition t.entry next).2) :
    ∀ u ∈ r.tasks.set index t', u.Follows (q.ledger.transition t.entry next).2 := by
  intro u hu
  obtain ⟨hlt, -⟩ := List.getElem?_eq_some_iff.mp ht
  rcases List.mem_cons.mp ((Task.perm_set hlt t').subset hu) with rfl | hother
  · exact ht'
  · intro y hy
    have hrest := perm_executing ht hx (r.waiting ++ (a.dropped ++ settled))
    simp only [← List.append_assoc] at hrest
    have hmem : u.entry ∈ (r.tasks.eraseIdx index).filterMap Task.working? :=
      List.mem_filterMap.mpr ⟨u, hother, by simp [Task.working?, hy]⟩
    rw [h.others hrest next u.entry (by simp [hmem])]
    exact h.task u (List.mem_of_mem_eraseIdx hother) y hy

/-- What a task has still to execute and to report behind a step of its execution. -/
theorem set_perm (ht : r.tasks[index]? = some t) (hx : t.stage = .executing x) {stage : TaskStage}
    (hafter : x'.resolution? = none ∧ stage = .executing x' ∨
      ∃ o, x'.resolution? = some o ∧ stage = .reporting o)
    (htasks : r'.tasks = r.tasks.set index { t with stage }) :
    (r'.working ++ x'.resolution?.toList.map fun _ => t.entry).Perm r.working ∧
      r'.pending.Perm (x'.resolution?.toList ++ r.pending) := by
  obtain ⟨hlt, -⟩ := List.getElem?_eq_some_iff.mp ht
  have hworking := Task.filterMap_perm Task.working? ht
  have hpending := Task.filterMap_perm Task.pending? ht
  have hworking' := Task.filterMap_set_perm Task.working? hlt { t with stage }
  have hpending' := Task.filterMap_set_perm Task.pending? hlt { t with stage }
  unfold working pending
  rw [htasks]
  rcases hafter with ⟨hnone, rfl⟩ | ⟨o, ho, rfl⟩
  · simp only [Task.working?, Task.pending?, hx, hnone, Option.toList] at *
    grind
  · simp only [Task.working?, Task.pending?, hx, ho, Option.toList] at *
    grind

/-- A step of an execution. If the execution ends with it, its permit is given back. -/
theorem execute (h : r.Accounted q a settled) (ht : r.tasks[index]? = some t)
    (hx : t.stage = .executing x) (hregular : x'.Regular) (hrecord : x'.record = x.record)
    {stage : TaskStage}
    (hafter : x'.resolution? = none ∧ stage = .executing x' ∨
      ∃ o, x'.resolution? = some o ∧ stage = .reporting o)
    (hledger : q'.ledger = (q.ledger.transition t.entry x'.state).2) (hconfig : q'.config = q.config)
    (hrecorder : q'.recorder = q.recorder) (htasks : r'.tasks = r.tasks.set index { t with stage })
    (hdequeue : r'.dequeue = r.dequeue)
    (hpermits : r'.permits = r.permits + x'.resolution?.toList.length) :
    r'.Accounted q' a ((x'.resolution?.toList.map fun _ => t.entry) ++ settled) := by
  obtain ⟨hworking, hpending⟩ := set_perm ht hx hafter htasks
  obtain ⟨hopen, houtcome⟩ := h.open_of_executing ht hx
  have hrest := perm_executing ht hx (r.waiting ++ (a.dropped ++ settled))
  simp only [← List.append_assoc] at hrest
  have hother := h.others hrest x'.state
  rw [← hledger] at hother
  have houtcome' : q'.ledger.outcomeOf t.entry = (some x'.record.place, x'.state) := by
    obtain ⟨hplace, hstate⟩ := Prod.mk.inj houtcome
    rw [hledger, Ledger.outcomeOf_transition (h.single hrest).2 (by rw [hstate]; exact hopen),
      hplace, hrecord]
  have hwaiting : r'.waiting = r.waiting := by rw [waiting, waiting, hdequeue]
  constructor
  case entered =>
    have hentered := h.entered
    rw [hwaiting]
    grind
  case nodup => exact h.nodup
  case inside =>
    rw [hledger, Ledger.size_entries_transition]
    exact h.inside
  case task =>
    rw [htasks, hledger]
    refine h.task_set ht hx fun y hy => ?_
    rcases hafter with ⟨hnone, rfl⟩ | ⟨o, -, rfl⟩
    · obtain rfl := TaskStage.executing.inj hy
      exact ⟨hregular, hnone, hledger ▸ houtcome'⟩
    · cases hy
  case waits =>
    intro id hid
    rw [hwaiting] at hid
    exact (congrArg Prod.snd (hother id (by simp [hid]))).trans (h.waits id hid)
  case canceled =>
    intro id hid
    exact (congrArg Prod.snd (hother id (by simp [hid]))).trans (h.canceled id hid)
  case ended =>
    intro id hid
    rcases List.mem_append.mp hid with hnew | hold
    · obtain ⟨o, ho, rfl⟩ := List.mem_map.mp hnew
      have hstate : q'.ledger.stateOf t.entry = x'.state := congrArg Prod.snd houtcome'
      rw [hstate]
      exact hregular.isTerminal_iff.mpr ⟨o, Option.mem_toList.mp ho⟩
    · have hsame := congrArg Prod.snd (hother id (by simp [hold]))
      exact (congrArg EntryState.isTerminal hsame).trans (h.ended id hold)
  case reported =>
    intro hsilent
    rw [hrecorder] at hsilent
    have hsame : settled.map q'.ledger.outcomeOf = settled.map q.ledger.outcomeOf :=
      List.map_congr_left fun id hid => hother id (by simp [hid])
    have hnew : x'.resolution?.toList.map Resolution.outcome =
        (x'.resolution?.toList.map fun _ => t.entry).map q'.ledger.outcomeOf := by
      rw [List.map_map]
      refine List.map_congr_left fun o ho => ?_
      obtain ⟨htopic, hpartition, hoffset, hstate⟩ :=
        Execution.resolution?_eq_some (Option.mem_toList.mp ho)
      show _ = q'.ledger.outcomeOf t.entry
      rw [houtcome', Resolution.outcome, htopic, hpartition, hoffset, hstate]
      rfl
    have hreported := h.reported hsilent
    have hpending' := hpending.map Resolution.outcome
    rw [List.map_append] at hreported hpending' ⊢
    rw [List.map_append, hsame, ← hnew]
    grind
  case permits =>
    intro hexecutes
    rw [hdequeue] at hexecutes
    have hlevel := h.permits hexecutes
    have hlength := hworking.length_eq
    rw [List.length_append, List.length_map] at hlength
    rw [hpermits, hconfig]
    omega
  case idle =>
    rw [hdequeue]
    intro hidle
    rw [h.idle hidle] at ht
    cases ht
  case accepts =>
    rw [hdequeue]
    exact h.accepts
  case once => exact h.once

/-- A task that executes nothing goes on as another one or ends. What it has had to report, if
anything, it has reported. -/
theorem tell (h : r.Accounted q a settled) (ht : r.tasks[index]? = some t)
    (hidle : t.working? = none) {rest : Option Task}
    (hrest : ∀ u ∈ rest, u.working? = none ∧ u.pending? = none)
    (htasks : r'.tasks.Perm (rest.toList ++ r.tasks.eraseIdx index)) {told : List Resolution}
    (htold : q.recorder ≠ .silent → told = t.pending?.toList) (hdequeue : r'.dequeue = r.dequeue)
    (hpermits : r'.permits = r.permits) : r'.Accounted q (a ++ ⟨[], [], told⟩) settled := by
  have hwaiting : r'.waiting = r.waiting := by rw [waiting, waiting, hdequeue]
  -- only the tasks beside it are in execution or have something to report
  have hothers : r'.working.Perm ((r.tasks.eraseIdx index).filterMap Task.working?) ∧
      r'.pending.Perm ((r.tasks.eraseIdx index).filterMap Task.pending?) := by
    have hworking := htasks.filterMap Task.working?
    have hpending := htasks.filterMap Task.pending?
    cases rest with
    | none => exact ⟨hworking, hpending⟩
    | some u =>
      obtain ⟨hu, hu'⟩ := hrest u rfl
      exact ⟨by simpa [working, hu] using hworking, by simpa [pending, hu'] using hpending⟩
  have hworking : r'.working.Perm r.working := by
    have hperm := Task.filterMap_perm Task.working? ht
    rw [hidle] at hperm
    exact hothers.1.trans hperm.symm
  constructor
  case entered =>
    have hentered := h.entered
    rw [hwaiting, Account.entered_append, Account.dropped_append]
    grind
  case nodup => simpa using h.nodup
  case inside => simpa using h.inside
  case task =>
    intro u hu x hx
    have hmem := htasks.subset hu
    rcases List.mem_append.mp hmem with hnew | hold
    · have hnone := (hrest u (Option.mem_toList.mp hnew)).1
      simp [Task.working?, hx] at hnone
    · exact h.task u (List.mem_of_mem_eraseIdx hold) x hx
  case waits =>
    rw [hwaiting]
    exact h.waits
  case canceled => simpa using h.canceled
  case ended => exact h.ended
  case reported =>
    intro hsilent
    have hpending : (told ++ r'.pending).Perm r.pending := by
      rw [htold hsilent]
      exact (hothers.2.append_left _).trans (Task.filterMap_perm Task.pending? ht).symm
    rw [Account.reported_append, List.append_assoc]
    exact ((hpending.append_left _).map _).trans (h.reported hsilent)
  case permits =>
    rw [hdequeue, hpermits, hworking.length_eq]
    exact h.permits
  case idle =>
    rw [hdequeue]
    intro hidle
    rw [h.idle hidle] at ht
    cases ht
  case accepts =>
    rw [hdequeue, Account.dropped_append, List.append_nil]
    exact h.accepts
  case once => simpa using h.once

end Tasks

/-! ### How many entries are in flight -/

/-- The permits are an upper bound of what is in execution. -/
theorem length_working_le (h : r.Accounted q a settled) :
    r.working.length ≤ q.config.maxParallelTasks := by
  cases hexecutes : r.dequeue.executes with
  | true =>
    have hlevel := h.permits hexecutes
    omega
  | false => simp [working, h.idle hexecutes]

theorem length_waiting_le (r : Run) : r.waiting.length ≤ 1 := by
  unfold waiting
  split <;> simp

/-- Of the entries of a run, no more are in execution than there are permits. -/
theorem executing_le (h : r.Accounted q a settled) :
    a.entered.countP (fun id => q.ledger.stateOf id = .executing) ≤ q.config.maxParallelTasks := by
  rw [← h.entered.countP_eq, List.countP_append, List.countP_append, List.countP_append]
  have hwaiting : r.waiting.countP (fun id => q.ledger.stateOf id = .executing) = 0 :=
    List.countP_eq_zero.mpr fun id hid => by simp [h.waits id hid]
  have hdropped : a.dropped.countP (fun id => q.ledger.stateOf id = .executing) = 0 :=
    List.countP_eq_zero.mpr fun id hid => by simp [h.canceled id hid]
  have hsettled : settled.countP (fun id => q.ledger.stateOf id = .executing) = 0 :=
    List.countP_eq_zero.mpr fun id hid => by
      have hended := h.ended id hid
      cases hstate : q.ledger.stateOf id <;> simp [hstate, EntryState.isTerminal] at hended ⊢
  rw [hwaiting, hdropped, hsettled]
  exact Nat.le_trans List.countP_le_length h.length_working_le

/-- One more may be open, which waits for a permit. -/
theorem open_le (h : r.Accounted q a settled) :
    a.entered.countP (fun id => !(q.ledger.stateOf id).isTerminal) ≤
      q.config.maxParallelTasks + 1 := by
  rw [← h.entered.countP_eq, List.countP_append, List.countP_append, List.countP_append]
  have hdropped : a.dropped.countP (fun id => !(q.ledger.stateOf id).isTerminal) = 0 :=
    List.countP_eq_zero.mpr fun id hid => by simp [h.canceled id hid, EntryState.isTerminal]
  have hsettled : settled.countP (fun id => !(q.ledger.stateOf id).isTerminal) = 0 :=
    List.countP_eq_zero.mpr fun id hid => by simp [h.ended id hid]
  rw [hdropped, hsettled, Nat.add_zero, Nat.add_zero]
  exact Nat.add_le_add (Nat.le_trans List.countP_le_length h.length_working_le)
    (Nat.le_trans List.countP_le_length (length_waiting_le r))

end Accounted

end Run

end WorkQueue
