import WorkQueue.Proofs.Queue.Account

/-!
# Accounts are kept

Every step of a run is in its account, and none of them touches the entries of other runs. A run that
is torn down leaves its entries as they stand; only its loops go on, which append nothing.

## Main definitions

* `Run.Torn`: what holds of a run that has been torn down
* `Run.Kept`: what holds of any run
* `Run.Returned`: a run is over

## Main statements

* `Run.Accounted.step`: every step of a run is in its account
* `Scene.keeps_of_step?`: the entries of others stay as they are
* `Run.Kept.step`, `Run.Kept.abort`: so the account is kept whatever happens
* `Run.Accounted.perm_of_returned`, `Run.Accounted.reported_of_returned`: what is left when it is over
-/

namespace WorkQueue

variable {σ : Type} [LogStore σ] {s s' : Scene σ} {a : Account} {settled : List Nat}

/-! ## Passes -/

namespace Scene

theorem passed_commitFor (s : Scene σ) (group : Nat × List (Int × Int)) :
    s.queue.Passed (s.commitFor group).queue := by
  unfold commitFor
  split
  · exact .refl _
  · dsimp only
    split
    · exact .refl _
    · exact .report_committed ..

theorem passed_commitPass (s : Scene σ) : s.queue.Passed s.commitPass.queue :=
  commitPass_invariant (I := fun s' => s.queue.Passed s'.queue) (.refl _) (.of_entries rfl)
    fun s' group hs' => hs'.trans (passed_commitFor s' group)

theorem passed_conclude (s : Scene σ) : s.queue.Passed s.conclude.queue :=
  (passed_commitPass s).trans (.of_entries rfl)

/-! ## What a step adds -/

omit [LogStore σ] in
theorem account_of_passed (h : s.queue.Passed s'.queue)
    (hdequeue : ∀ entry, s.run.dequeue = .awaitingPermit entry → s'.run.dequeue ≠ .finishing) :
    s.account s' = {} := by
  refine Account.ext ?_ ?_ ?_
  · simp [account, h.entries_eq]
  -- the hypothesis excludes the first case
  · simp only [account]
  · exact (h.outcomes_eq _ (Nat.le_refl _)).trans (Queue.outcomes_self s.queue)

omit [LogStore σ] in
/-- Loops add nothing. -/
theorem account_of_intake (hqueue : s'.queue = s.queue)
    (hdequeue : s'.run.dequeue = s.run.dequeue) : s.account s' = {} := by
  have hpassed : s.queue.Passed s'.queue := by
    rw [hqueue]
    exact .refl _
  refine account_of_passed hpassed fun entry hawaiting => ?_
  rw [hdequeue, hawaiting]
  exact Dequeue.noConfusion

omit [LogStore σ] in
/-- A transition of an entry. -/
theorem account_transition {id : Nat} {state : EntryState} {counters : Counters} {c : Cluster σ}
    {r : Run} (hdequeue : r.dequeue = s.run.dequeue) :
    s.account ⟨c, { s.queue with ledger := (s.queue.ledger.transition id state).2, counters }, r⟩ =
      {} := by
  refine Account.ext ?_ ?_ ?_
  · simp [account]
  · simp only [account, hdequeue]
    split <;> simp_all
  · exact Queue.outcomes_self s.queue

omit [LogStore σ] in
theorem account_report {time : Nat} {o : Resolution}
    (hqueue : s'.queue = s.queue.report (.resolved time o))
    (hdequeue : s'.run.dequeue = s.run.dequeue) :
    s.account s' = ⟨[], [], if s.queue.recorder = .silent then [] else [o]⟩ := by
  refine Account.ext ?_ ?_ ?_
  · rw [account, hqueue, Queue.report_eq]
    simp
  · simp only [account, hdequeue]
    split <;> simp_all
  · rw [account, hqueue]
    exact Queue.outcomes_report_resolved ..

omit [LogStore σ] in
/-- One more entry, which waits for a permit. -/
theorem account_track {consumer : Nat} {record : Record} {r : Run}
    (hdequeue : s.run.dequeue = .receiving) :
    s.account { s with queue := { s.queue with ledger := s.queue.ledger.track consumer record }
                       run := r } = ⟨[s.queue.ledger.entries.size], [], []⟩ := by
  refine Account.ext ?_ ?_ ?_
  · simp [account]
  · simp [account, hdequeue]
  · exact Queue.outcomes_self s.queue

omit [LogStore σ] in
theorem account_cancel {entry : Nat} (hdequeue : s.run.dequeue = .awaitingPermit entry) :
    s.account (stopReceiving { s with queue :=
      { s.queue with ledger := (s.queue.ledger.transition entry .canceled).2 } }) =
      ⟨[], [entry], []⟩ := by
  refine Account.ext ?_ ?_ ?_
  · simp [account, stopReceiving]
  · simp [account, stopReceiving, hdequeue]
  · exact Queue.outcomes_self s.queue

end Scene

/-! ## Steps -/

namespace Run.Accounted

omit [LogStore σ] in
/-- Where nothing is added, the account stays. -/
theorem keep (h : s'.run.Accounted s'.queue a settled) (haccount : s.account s' = {}) :
    s'.run.Accounted s'.queue (a ++ s.account s') settled := by
  rwa [haccount, Account.append_empty]

/-- A launch that has not failed begins with all permits. -/
theorem launched (h : s.run.Accounted s.queue a settled) (hdequeue : s.run.dequeue = .starting)
    (hstep : s.Launched s') : s'.run.Accounted s'.queue (a ++ s.account s') settled := by
  have hpassed : s.queue.Passed s'.queue := by
    rw [hstep.queue_eq]
    exact .refl _
  refine keep ?_ (Scene.account_of_passed hpassed
    fun entry hawaiting => by simp [hdequeue] at hawaiting)
  have htasks : s.run.tasks = [] := h.idle (by rw [hdequeue]; rfl)
  have hwaiting : s.run.waiting = [] := by rw [waiting, hdequeue]
  cases hstep with
  | fail c e =>
    exact h.goOn rfl hwaiting.symm (fun hexecutes => by cases hexecutes) (fun _ => htasks)
      fun haccepts => by cases haccepts
  | @join _ _ _ _ r _ _ _ _ _ _ hreceiving htasks' hpermits =>
    have hwaiting' : r.waiting = [] := by rw [waiting, hreceiving]
    refine h.goOn htasks' (hwaiting'.trans hwaiting.symm) (fun _ => ?_) (fun _ => htasks) fun _ => ?_
    · rw [hpermits, working, htasks]
      exact Nat.zero_add _
    · rw [hdequeue]
      rfl

/-- A step of the loop that takes deliveries. -/
theorem dequeued (h : s.run.Accounted s.queue a settled) (hstep : s.Dequeued s') :
    s'.run.Accounted s'.queue (a ++ s.account s') settled := by
  cases hstep with
  | launch hdequeue => exact h.launched hdequeue s.launched
  | @accept d rest hdequeue =>
    unfold Scene.accept
    split
    -- a record that the ledger refuses is ignored
    · refine keep ?_ (Scene.account_of_passed (.refl _)
        fun entry hawaiting => by simp [hdequeue] at hawaiting)
      exact h.congr rfl rfl rfl
    · next entry ledger happend =>
      obtain ⟨-, rfl, rfl⟩ := Ledger.append_eq_ok_iff.mp happend
      rw [Scene.account_track hdequeue]
      exact h.track hdequeue d.consumer d.record rfl rfl rfl
  | stop hdequeue =>
    refine keep ?_ (Scene.account_of_passed (.refl _)
      fun entry hawaiting => by simp [hdequeue] at hawaiting)
    have hexecutes : s.run.dequeue.executes = true := by rw [hdequeue]; rfl
    refine h.goOn rfl (by rw [waiting, waiting, hdequeue]; rfl) (fun _ => h.permits hexecutes)
      (fun hidle => by cases hidle) fun haccepts => by cases haccepts
  | @cancel entry hdequeue =>
    rw [Scene.account_cancel hdequeue]
    exact h.cancel hdequeue rfl rfl rfl
  | @spawn entry e hdequeue he hpermits =>
    refine keep ?_ (Scene.account_of_passed (.refl _) fun _ _ => Dequeue.noConfusion)
    exact h.spawn hdequeue he hpermits rfl rfl rfl
  | @skip entry hdequeue hnone =>
    -- the entry that waits is there
    have hwaiting : entry ∈ s.run.waiting := by
      rw [waiting, hdequeue]
      exact List.mem_singleton.mpr rfl
    have hlt := h.inside entry (h.mem_of_waiting hwaiting)
    rw [Ledger.entry?, Array.getElem?_eq_getElem hlt] at hnone
    cases hnone
  | close hdequeue htasks =>
    refine keep ?_ (Scene.account_of_passed (.refl _)
      fun entry hawaiting => by simp [hdequeue] at hawaiting)
    exact h.goOn rfl (by rw [waiting, waiting, hdequeue]) (fun hexecutes => by cases hexecutes)
      (fun _ => htasks) fun haccepts => by cases haccepts
  | conclude hdequeue =>
    have hpassed := Scene.passed_conclude s
    refine keep ?_ (Scene.account_of_passed hpassed
      fun entry hawaiting => by simp [hdequeue] at hawaiting)
    have htasks : s.run.tasks = [] := h.idle (by rw [hdequeue]; rfl)
    refine (h.queue (hpassed.keeps a.entered)).goOn ?_ ?_ (fun hexecutes => by cases hexecutes)
      (fun _ => htasks) fun haccepts => by cases haccepts
    · show s.commitPass.run.tasks = s.run.tasks
      rw [Scene.run_commitPass]
    · rw [waiting, waiting, hdequeue]
      rfl

omit [LogStore σ] in
/-- A task reports what it has to report, and goes on or ends. -/
theorem report (h : s.run.Accounted s.queue a settled) {index : Nat} {t : Task} {o : Resolution}
    (ht : s.run.tasks[index]? = some t) (hstage : t.stage = .reporting o) {rest : Option Task}
    (hrest : ∀ u ∈ rest, u.working? = none ∧ u.pending? = none) {time : Nat}
    (hqueue : s'.queue = s.queue.report (.resolved time o))
    (htasks : s'.run.tasks.Perm (rest.toList ++ s.run.tasks.eraseIdx index))
    (hdequeue : s'.run.dequeue = s.run.dequeue) (hpermits : s'.run.permits = s.run.permits) :
    s'.run.Accounted s'.queue (a ++ s.account s') settled := by
  rw [Scene.account_report hqueue hdequeue, hqueue]
  refine .queue (h.tell ht ?_ hrest htasks ?_ hdequeue hpermits) (Queue.keeps_report ..)
  · simp [Task.working?, hstage]
  · intro hsilent
    simp [Task.pending?, hstage, hsilent]

/-- A step of a task. -/
theorem worked (h : s.run.Accounted s.queue a settled) {jitter : Jitter} {index : Nat}
    (hstep : s.Worked jitter index s') :
    ∃ settled', s'.run.Accounted s'.queue (a ++ s.account s') settled' := by
  cases hstep with
  | @execute t x next stage permits ht hstage hnext hafter hpermits =>
    obtain ⟨hregular, -⟩ := h.task t (List.mem_of_getElem? ht) x hstage
    refine ⟨_, keep (h.execute ht hstage (Execution.regular_step? hregular hnext)
      (Execution.record_step? hnext) hafter rfl rfl rfl rfl rfl hpermits) ?_⟩
    exact Scene.account_transition rfl
  | @report t o ht hstage =>
    have hlt := (List.getElem?_eq_some_iff.mp ht).1
    have hrest : ∀ u ∈ some { t with stage := .committing },
        u.working? = none ∧ u.pending? = none := by simp [Task.working?, Task.pending?]
    exact ⟨settled, h.report ht hstage hrest rfl (Task.perm_set hlt _) rfl rfl⟩
  | @lose t o ht hstage =>
    have hrest : ∀ u ∈ (none : Option Task), u.working? = none ∧ u.pending? = none := by simp
    exact ⟨settled, h.report ht hstage hrest rfl (.refl _) rfl rfl⟩
  | @commit t ht hstage =>
    have hpassed := Scene.passed_commitPass s
    have hrun : s.commitPass.run = s.run := Scene.run_commitPass s
    have hrest : ∀ u ∈ (none : Option Task), u.working? = none ∧ u.pending? = none := by simp
    have haccount : s.account (s.commitPass.endTask index) = {} := by
      refine Scene.account_of_passed hpassed fun entry hawaiting => ?_
      show s.commitPass.run.dequeue ≠ .finishing
      rw [hrun, hawaiting]
      exact Dequeue.noConfusion
    rw [haccount]
    refine ⟨settled, (h.queue (hpassed.keeps a.entered)).tell ht ?_ hrest ?_ ?_ ?_ ?_⟩
    · simp [Task.working?, hstage]
    · show (s.commitPass.run.tasks.eraseIdx index).Perm (s.run.tasks.eraseIdx index)
      rw [hrun]
    · simp [Task.pending?, hstage]
    · show s.commitPass.run.dequeue = s.run.dequeue
      rw [hrun]
    · show s.commitPass.run.permits = s.run.permits
      rw [hrun]

/-- Every step of a run is in its account. -/
theorem step (h : s.run.Accounted s.queue a settled) {jitter : Jitter} {p : Scene.Process}
    (hstep : s.step? jitter p = some s') :
    ∃ settled', s'.run.Accounted s'.queue (a ++ s.account s') settled' := by
  have intake (hp : p = .primary ∨ p = .delayed) :
      s'.run.Accounted s'.queue (a ++ s.account s') settled := by
    obtain ⟨hqueue, htasks, hdequeue, hpermits⟩ := Scene.intake_keeps hstep hp
    refine keep ?_ (Scene.account_of_intake hqueue hdequeue)
    rw [hqueue]
    exact h.congr htasks hdequeue hpermits
  cases p with
  | dequeue => exact ⟨settled, h.dequeued (Scene.dequeued_of_step? hstep)⟩
  | primary => exact ⟨settled, intake (.inl rfl)⟩
  | delayed => exact ⟨settled, intake (.inr rfl)⟩
  | task index => exact h.worked (Scene.worked_of_step? hstep)

end Run.Accounted

/-! ## Entries of others -/

namespace Scene

variable {ids : List Nat}

omit [LogStore σ] in
/-- A transition of an entry leaves the others as they are. -/
theorem keeps_transition {q : Queue} {id : Nat} (hid : id ∉ ids) (state : EntryState)
    (counters : Counters) :
    q.Keeps ids { q with ledger := (q.ledger.transition id state).2, counters } where
  size_le := by simp
  entry_eq j hj := by
    have hne : j ≠ id := fun heq => hid (heq ▸ hj)
    rw [Ledger.entry?_transition]
    simp [hne]
  config_eq := rfl
  recorder_eq := rfl

theorem Dequeued.keeps (h : s.Dequeued s') (hinside : ∀ id ∈ ids, id < s.queue.ledger.entries.size)
    (hwaiting : ∀ id ∈ s.run.waiting, id ∉ ids) : s.queue.Keeps ids s'.queue := by
  cases h with
  | launch =>
    rw [s.launched.queue_eq]
    exact .refl _ _
  | @accept d rest =>
    unfold Scene.accept
    split
    · exact .refl _ _
    · next happend =>
      obtain ⟨-, rfl, rfl⟩ := Ledger.append_eq_ok_iff.mp happend
      exact ⟨by simp, fun id hid => Ledger.entry?_track_of_lt (hinside id hid), rfl, rfl⟩
  | @cancel entry hdequeue =>
    have hentry : entry ∈ s.run.waiting := by
      rw [Run.waiting, hdequeue]
      exact List.mem_singleton.mpr rfl
    exact keeps_transition (hwaiting entry hentry) .canceled s.queue.counters
  | conclude => exact (passed_conclude s).keeps ids
  | _ => exact .refl _ _

theorem Worked.keeps {jitter : Jitter} {index : Nat} (h : s.Worked jitter index s')
    (hworking : ∀ id ∈ s.run.working, id ∉ ids) : s.queue.Keeps ids s'.queue := by
  cases h with
  | execute ht hstage =>
    have hentry := Run.Accounted.mem_working (List.mem_of_getElem? ht) hstage
    exact keeps_transition (hworking _ hentry) _ _
  | report => exact Queue.keeps_report ..
  | lose => exact Queue.keeps_report ..
  | commit => exact (passed_commitPass s).keeps ids

/-- A step of a run leaves all entries alone that neither wait for a permit nor are in execution. -/
theorem keeps_of_step? {jitter : Jitter} {p : Process} (h : s.step? jitter p = some s')
    (hinside : ∀ id ∈ ids, id < s.queue.ledger.entries.size)
    (hothers : ∀ id ∈ s.run.working ++ s.run.waiting, id ∉ ids) : s.queue.Keeps ids s'.queue := by
  cases p with
  | dequeue =>
    exact (dequeued_of_step? h).keeps hinside fun id hid => hothers id (List.mem_append_right _ hid)
  | primary =>
    rw [(intake_keeps h (.inl rfl)).1]
    exact .refl _ _
  | delayed =>
    rw [(intake_keeps h (.inr rfl)).1]
    exact .refl _ _
  | task index =>
    exact (worked_of_step? h).keeps fun id hid => hothers id (List.mem_append_left _ hid)

end Scene

/-! ## Runs that have been torn down -/

/-- The account of a run that has been torn down. What has been in execution then stays open. -/
structure Run.Torn (q : Queue) (a : Account) (r : Run) : Prop where
  aborted : r.dequeue = .ended .aborted
  tasks : r.tasks = []
  nodup : a.entered.Nodup
  inside : ∀ id ∈ a.entered, id < q.ledger.entries.size
  executing_le :
    a.entered.countP (fun id => q.ledger.stateOf id = .executing) ≤ q.config.maxParallelTasks
  open_le :
    a.entered.countP (fun id => !(q.ledger.stateOf id).isTerminal) ≤ q.config.maxParallelTasks + 1

namespace Run.Torn

variable {q q' : Queue} {r r' : Run}

/-- The queue goes on without touching the entries of the run. -/
theorem queue (h : r.Torn q a) (hq : q.Keeps a.entered q') : r.Torn q' a where
  aborted := h.aborted
  tasks := h.tasks
  nodup := h.nodup
  inside id hid := Nat.lt_of_lt_of_le (h.inside id hid) hq.size_le
  executing_le := by
    rw [hq.config_eq, List.countP_congr fun id hid => by rw [hq.stateOf_eq hid]]
    exact h.executing_le
  open_le := by
    rw [hq.config_eq, List.countP_congr fun id hid => by rw [hq.stateOf_eq hid]]
    exact h.open_le

theorem congr (h : r.Torn q a) (htasks : r'.tasks = r.tasks) (hdequeue : r'.dequeue = r.dequeue) :
    r'.Torn q a :=
  { h with aborted := hdequeue.trans h.aborted, tasks := htasks.trans h.tasks }

/-- Only the loops go on, which add nothing to the account. -/
theorem step (h : s.run.Torn s.queue a) {jitter : Jitter} {p : Scene.Process}
    (hstep : s.step? jitter p = some s') : s'.run.Torn s'.queue (a ++ s.account s') := by
  have intake (hp : p = .primary ∨ p = .delayed) : s'.run.Torn s'.queue (a ++ s.account s') := by
    obtain ⟨hqueue, htasks, hdequeue, -⟩ := Scene.intake_keeps hstep hp
    rw [Scene.account_of_intake hqueue hdequeue, Account.append_empty, hqueue]
    exact h.congr htasks hdequeue
  cases p with
  | dequeue => simp [Scene.step?, Scene.dequeueStep?, h.aborted] at hstep
  | primary => exact intake (.inl rfl)
  | delayed => exact intake (.inr rfl)
  | task index => simp [Scene.step?, Scene.taskStep?, h.tasks] at hstep

end Run.Torn

/-- A run is torn down. -/
theorem Run.Accounted.tear {q : Queue} {r r' : Run} (h : r.Accounted q a settled)
    (haborted : r'.dequeue = .ended .aborted) (htasks : r'.tasks = []) : r'.Torn q a where
  aborted := haborted
  tasks := htasks
  nodup := h.nodup
  inside := h.inside
  executing_le := h.executing_le
  open_le := h.open_le

/-! ## Runs in any condition -/

/-- A run is over, and has not been torn down. -/
def Run.Returned (r : Run) : Prop := ∃ outcome ∈ r.ended?, outcome ≠ .aborted

namespace Run.Returned

instance decidable (r : Run) : Decidable r.Returned :=
  inferInstanceAs (Decidable (∃ outcome ∈ r.ended?, outcome ≠ .aborted))

variable {r : Run}

theorem ended (h : r.Returned) : ∃ outcome, r.dequeue = .ended outcome ∧ outcome ≠ .aborted := by
  obtain ⟨outcome, hended, hne⟩ := h
  unfold ended? at hended
  split at hended
  · next o hdequeue => exact ⟨o, hdequeue, Option.some.inj hended ▸ hne⟩
  · cases hended

/-- Nothing is left in flight. -/
theorem idle {q : Queue} (h : r.Returned) (hr : r.Accounted q a settled) :
    r.tasks = [] ∧ r.waiting = [] := by
  obtain ⟨outcome, hdequeue, -⟩ := h.ended
  refine ⟨hr.idle (by rw [hdequeue]; rfl), ?_⟩
  rw [waiting, hdequeue]

end Run.Returned

/-- What a run that is over has appended was canceled in front of a permit or has been brought to an
end. -/
theorem Run.Accounted.perm_of_returned {q : Queue} {r : Run} (h : r.Accounted q a settled)
    (hreturned : r.Returned) : (a.dropped ++ settled).Perm a.entered := by
  obtain ⟨htasks, hwaiting⟩ := hreturned.idle h
  have hentered := h.entered
  rw [working, htasks, hwaiting] at hentered
  exact hentered

/-- All outcomes of a run that is over have been reported. -/
theorem Run.Accounted.reported_of_returned {q : Queue} {r : Run} (h : r.Accounted q a settled)
    (hreturned : r.Returned) (hrecorder : q.recorder ≠ .silent) :
    (a.reported.map Resolution.outcome).Perm (settled.map q.ledger.outcomeOf) := by
  have hreported := h.reported hrecorder
  rw [pending, (hreturned.idle h).1] at hreported
  simpa using hreported

theorem Run.Accounted.isTerminal_of_returned {q : Queue} {r : Run} (h : r.Accounted q a settled)
    (hreturned : r.Returned) : ∀ id ∈ a.entered, (q.ledger.stateOf id).isTerminal = true := by
  intro id hid
  rcases List.mem_append.mp ((h.perm_of_returned hreturned).symm.subset hid) with hdropped | hsettled
  · rw [h.canceled id hdropped]
    rfl
  · exact h.ended id hsettled

/-- The account of a run is kept, whether it is under way, has ended, or has been torn down. -/
def Run.Kept (q : Queue) (a : Account) (r : Run) : Prop :=
  (∃ settled, r.Accounted q a settled) ∨ r.Torn q a

namespace Run.Kept

variable {q q' : Queue} {r r' : Run}

theorem unused (q : Queue) : Kept q {} {} := .inl ⟨[], .unused q⟩

theorem inside (h : r.Kept q a) : ∀ id ∈ a.entered, id < q.ledger.entries.size := by
  rcases h with ⟨settled, h⟩ | h
  · exact h.inside
  · exact h.inside

theorem executing_le (h : r.Kept q a) :
    a.entered.countP (fun id => q.ledger.stateOf id = .executing) ≤ q.config.maxParallelTasks := by
  rcases h with ⟨settled, h⟩ | h
  · exact h.executing_le
  · exact h.executing_le

theorem open_le (h : r.Kept q a) :
    a.entered.countP (fun id => !(q.ledger.stateOf id).isTerminal) ≤
      q.config.maxParallelTasks + 1 := by
  rcases h with ⟨settled, h⟩ | h
  · exact h.open_le
  · exact h.open_le

/-- A run that has been torn down has not returned. -/
theorem accounted (h : r.Kept q a) (hreturned : r.Returned) :
    ∃ settled, r.Accounted q a settled := by
  rcases h with h | h
  · exact h
  · obtain ⟨outcome, hdequeue, hne⟩ := hreturned.ended
    rw [h.aborted] at hdequeue
    exact absurd (Dequeue.ended.inj hdequeue).symm hne

/-- What waits for a permit or is in execution has been appended by the run. -/
theorem mem_of_open (h : r.Kept q a) {id : Nat} (hid : id ∈ r.working ++ r.waiting) :
    id ∈ a.entered := by
  rcases h with ⟨settled, h⟩ | h
  · exact (List.mem_append.mp hid).elim h.mem_of_working h.mem_of_waiting
  · simp [working, waiting, h.tasks, h.aborted] at hid

theorem queue (h : r.Kept q a) (hq : q.Keeps a.entered q') : r.Kept q' a :=
  h.imp (fun ⟨settled, h⟩ => ⟨settled, h.queue hq⟩) fun h => h.queue hq

theorem congr (h : r.Kept q a) (htasks : r'.tasks = r.tasks) (hdequeue : r'.dequeue = r.dequeue)
    (hpermits : r'.permits = r.permits) : r'.Kept q a :=
  h.imp (fun ⟨settled, h⟩ => ⟨settled, h.congr htasks hdequeue hpermits⟩)
    fun h => h.congr htasks hdequeue

theorem step (h : s.run.Kept s.queue a) {jitter : Jitter} {p : Scene.Process}
    (hstep : s.step? jitter p = some s') : s'.run.Kept s'.queue (a ++ s.account s') :=
  h.imp (fun ⟨_, h⟩ => h.step hstep) fun h => h.step hstep

theorem abort (h : s.run.Kept s.queue a) : s.abort.run.Kept s.abort.queue a := by
  rw [Scene.queue_abort]
  unfold Scene.abort
  split
  · exact h
  · next hdequeue =>
    rcases h with ⟨settled, h⟩ | h
    · exact .inr (h.tear rfl (h.idle (by rw [hdequeue]; rfl)))
    · exact .inr (h.congr rfl h.aborted.symm)
  · next hended _ =>
    rw [Scene.run_leaveIfAborted, Scene.run_leaveIfAborted]
    rcases h with ⟨settled, h⟩ | h
    · exact .inr (h.tear rfl rfl)
    · exact absurd h.aborted (hended _)

end Run.Kept

end WorkQueue
