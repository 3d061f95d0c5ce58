import WorkQueue.Proofs.Queue.Accounting
import WorkQueue.Proofs.Queue.Membership
import WorkQueue.Proofs.Store.Noting

/-!
# What recorders are told of commits

A commit pass asks the store, for one consumer after the other, to commit the offsets of those
partitions that the consumer is still assigned. The recorder is told of a consumer's offsets if all of
them were committed. So it is told of nothing that was not committed; but where a consumer has lost
some of the partitions and kept others, the store is asked for commits that nobody is told of.

## Main definitions

* `Scene.asked`: the commits that a pass asks the store for
* `Scene.told`: the commits that the recorder is told of in a pass
* `Scene.Whole`, `Scene.AllWhole`: consumers have all partitions of their offsets, or none of them

## Main statements

* `Scene.noted_commitPass`: what a pass asks for is all that the store has noted
* `Scene.told_sublist_asked`: the recorder is told of nothing else, and when it is told of everything
* `System.told_ne_asked_divided`: not if a consumer has lost one of two partitions
-/

namespace WorkQueue

/-- A commit of a consumer: everything in a partition is processed up to an offset. -/
structure Commit where
  consumer : Nat
  topic : String
  partition : Int
  offset : Int
  deriving DecidableEq, Repr

/-- The commit of a consumer that a call asks for. -/
def CommitCall.by (consumer : Nat) (call : CommitCall) : Commit :=
  ⟨consumer, call.topic, call.partition, call.next - 1⟩

/-- The commits that are reported. -/
def Report.commits : Report → List Commit
  | .committed _ consumer topic offsets => offsets.map fun (p, o) => ⟨consumer, topic, p, o⟩
  | .resolved .. => []

namespace Queue

/-- The commits reported behind the first `told` reports. -/
def commits (q : Queue) (told : Nat) : List Commit := (q.since told).flatMap Report.commits

theorem commits_self (q : Queue) : q.commits q.reports.size = [] := by
  rw [commits, since_self, List.flatMap_nil]

theorem commits_report {q : Queue} {told : Nat} (hloud : q.recorder ≠ .silent)
    (htold : told ≤ q.reports.size) (r : Report) :
    (q.report r).commits told = q.commits told ++ r.commits := by
  have hsince : (q.report r).since told = q.since told ++ [r] := by
    rw [report, if_neg hloud]
    show (q.reports.push r).toList.drop told = _
    rw [Array.toList_push, List.drop_append_of_le_length (by simpa using htold)]
    rfl
  rw [commits, hsince, List.flatMap_append, List.flatMap_singleton]
  rfl

end Queue

variable {σ : Type} [LogStore σ]

namespace Cluster

variable {c : Cluster σ} {i : Nat}

theorem on_commit_of_none (h : c.consumer? i = none) (offsets : List (Int × Int)) :
    (commit i offsets).on c = (.error .closed, c) := by
  have hensures : Ensures (commit i offsets) c fun result c' =>
      (result, c') = (.error .closed, c) := by
    unfold commit
    rw [ensures_bind, ClusterM.ensures_get]
    dsimp only
    rw [h]
    rfl
  exact hensures

/-- A consumer's commit is one of the store alone. -/
theorem on_commit {k : Consumer} (hk : c.consumer? i = some k) (offsets : List (Int × Int))
    {result : Except BrokerError Unit} {store : σ}
    (h : (k.commit c.wall (c.broker k.broker).sessionTimeout offsets).on c.store =
      (result, store)) : (commit i offsets).on c = (result, { c with store }) := by
  have hensures : Ensures (commit i offsets) c fun result' c' =>
      (result', c') = (result, { c with store }) := by
    unfold commit
    rw [ensures_bind, ClusterM.ensures_get]
    dsimp only
    rw [hk, ClusterM.ensures_store, ensures_on, h]
  exact hensures

end Cluster

namespace Scene

/-! ## Commits of a pass -/

/-- The plan of a pass: the offsets to commit for every consumer. -/
def plan (s : Scene σ) : List (Nat × List (Int × Int)) := s.queue.ledger.collect.1.offsets

/-- The scene once the ledger has released what it may release. -/
def collected (s : Scene σ) : Scene σ :=
  { s with queue := { s.queue with ledger := s.queue.ledger.collect.2 } }

/-- The commits that the store is asked for on behalf of one consumer. -/
def askedFor (s : Scene (Noting σ)) (group : Nat × List (Int × Int)) : List Commit :=
  ((s.commitFor group).cluster.store.commits.drop s.cluster.store.commits.length).map
    (CommitCall.by group.1)

/-- The commits that the store is asked for on behalf of one consumer after the other. -/
def askedForAll : List (Nat × List (Int × Int)) → Scene (Noting σ) → List Commit
  | [], _ => []
  | group :: rest, s => s.askedFor group ++ askedForAll rest (s.commitFor group)

/-- The commits that a pass asks the store for. -/
def asked (s : Scene (Noting σ)) : List Commit := askedForAll s.plan s.collected

/-- The commits that the recorder is told of in a pass. -/
def told (s : Scene σ) : List Commit := s.commitPass.queue.commits s.queue.reports.size

/-- A consumer of the run, and the partitions that it is told to be its own. -/
def share? (s : Scene σ) (consumer : Nat) : Option (Consumer × List Int) :=
  (s.run.consumer? consumer).bind fun settings =>
    (s.cluster.consumer? settings.place).bind fun k =>
      (k.assigned? s.cluster.wall (s.cluster.broker k.broker).sessionTimeout s.cluster.store).map
        (k, ·)

/-- The consumer of some offsets is assigned all of their partitions or none of them. -/
def Whole (s : Scene σ) (group : Nat × List (Int × Int)) : Prop :=
  ∀ share ∈ s.share? group.1,
    (∀ o ∈ group.2, o.1 ∈ share.2) ∨ ∀ o ∈ group.2, o.1 ∉ share.2

/-- One consumer after the other is assigned all of the partitions or none of them. -/
def AllWhole : List (Nat × List (Int × Int)) → Scene σ → Prop
  | [], _ => True
  | group :: rest, s => s.Whole group ∧ AllWhole rest (s.commitFor group)

/-! ## One consumer -/

section

variable {s : Scene (Noting σ)} {group : Nat × List (Int × Int)}

/-- The commit that an offset stands for. -/
def commitAt (consumer : Nat) (topic : String) (o : Int × Int) : Commit :=
  ⟨consumer, topic, o.1, o.2⟩

theorem by_commitCall (consumer : Nat) (k : Consumer) (o : Int × Int) :
    (k.commitCall o).by consumer = commitAt consumer k.topic o := by
  simp [CommitCall.by, Consumer.commitCall, commitAt]

variable [DependableStore σ]

/-- What committing the offsets of one consumer does: the store is asked for those of the partitions
assigned, and they are reported if these are all. -/
theorem commitFor_spec (s : Scene (Noting σ)) (group : Nat × List (Int × Int)) :
    match s.share? group.1 with
    | none => (s.commitFor group).queue = s.queue ∧
        (s.commitFor group).cluster.store.commits = s.cluster.store.commits
    | some (k, assigned) =>
      (s.commitFor group).cluster.store.commits =
          s.cluster.store.commits ++ (group.2.filter (·.1 ∈ assigned)).map k.commitCall ∧
        (s.commitFor group).queue =
          if ∀ o ∈ group.2, o.1 ∈ assigned then
            s.queue.report (.committed s.cluster.now group.1 k.topic group.2)
          else s.queue := by
  unfold share? commitFor
  cases hsettings : s.run.consumer? group.1 with
  | none => exact ⟨rfl, rfl⟩
  | some settings =>
  simp only [Option.bind_some]
  cases hk : s.cluster.consumer? settings.place with
  | none =>
    rw [Cluster.on_commit_of_none hk]
    exact ⟨rfl, rfl⟩
  | some k =>
  have hnoted := k.ensures_noted (s := s.cluster.store) s.cluster.wall
    (s.cluster.broker k.broker).sessionTimeout group.2
  rw [ensures_on] at hnoted
  rcases hon : (k.commit s.cluster.wall (s.cluster.broker k.broker).sessionTimeout group.2).on
    s.cluster.store with ⟨result, store⟩
  rw [hon] at hnoted
  rw [Cluster.on_commit hk group.2 hon]
  simp only [Option.bind_some]
  cases hassigned : k.assigned? s.cluster.wall (s.cluster.broker k.broker).sessionTimeout
    s.cluster.store with
  | none =>
    rw [hassigned] at hnoted
    obtain ⟨hcommits, hfailed⟩ := hnoted
    cases result with
    | error e => exact ⟨rfl, hcommits⟩
    | ok u => exact absurd rfl hfailed
  | some assigned =>
    rw [hassigned] at hnoted
    obtain ⟨hcommits, hdone⟩ := hnoted
    cases result with
    | error e =>
      have hnot : ¬ ∀ o ∈ group.2, o.1 ∈ assigned := fun hall => by cases hdone.mpr hall
      refine ⟨hcommits, ?_⟩
      rw [if_neg hnot]
    | ok u =>
      refine ⟨hcommits, ?_⟩
      rw [if_pos (hdone.mp rfl)]
      have hk' : Cluster.consumer? { s.cluster with store } settings.place = some k := hk
      simp only [hk']

/-- What is asked for on behalf of one consumer. -/
theorem askedFor_eq : s.askedFor group =
    match s.share? group.1 with
    | none => []
    | some (k, assigned) =>
      (group.2.filter (·.1 ∈ assigned)).map (commitAt group.1 k.topic) := by
  have hspec := s.commitFor_spec group
  unfold askedFor
  cases hshare : s.share? group.1 with
  | none =>
    rw [hshare] at hspec
    rw [hspec.2, List.drop_length]
    rfl
  | some share =>
    obtain ⟨k, assigned⟩ := share
    rw [hshare] at hspec
    rw [hspec.1, List.drop_left, List.map_map]
    exact List.map_congr_left fun o _ => by_commitCall group.1 k o

/-- What is reported for one consumer is asked for, and it is all of that if and only if the consumer
is assigned all partitions of its offsets or none of them. -/
theorem commits_commitFor (hloud : s.queue.recorder ≠ .silent) {told : Nat}
    (htold : told ≤ s.queue.reports.size) (group : Nat × List (Int × Int)) : ∃ reported,
      (s.commitFor group).queue.commits told = s.queue.commits told ++ reported ∧
        reported.Sublist (s.askedFor group) ∧ (reported = s.askedFor group ↔ s.Whole group) := by
  have hspec := s.commitFor_spec group
  rw [askedFor_eq]
  unfold Whole
  cases hshare : s.share? group.1 with
  | none =>
    rw [hshare] at hspec
    refine ⟨[], ?_, .refl _, ⟨fun _ share hnone => ?_, fun _ => rfl⟩⟩
    · rw [hspec.1, List.append_nil]
    · cases hnone
  | some share =>
    obtain ⟨k, assigned⟩ := share
    rw [hshare] at hspec
    obtain ⟨-, hqueue⟩ := hspec
    by_cases hall : ∀ o ∈ group.2, o.1 ∈ assigned
    · have hfilter : group.2.filter (·.1 ∈ assigned) = group.2 :=
        List.filter_eq_self.mpr fun o ho => decide_eq_true (hall o ho)
      refine ⟨group.2.map (commitAt group.1 k.topic), ?_, ?_⟩
      · rw [hqueue, if_pos hall, Queue.commits_report hloud htold]
        rfl
      · dsimp only
        rw [hfilter]
        refine ⟨.refl _, fun _ share hsome => ?_, fun _ => rfl⟩
        obtain rfl := Option.some.inj hsome
        exact .inl hall
    · refine ⟨[], ?_, List.nil_sublist _, fun hnothing share hsome => ?_, fun hwhole => ?_⟩
      · rw [hqueue, if_neg hall, List.append_nil]
      · obtain rfl := Option.some.inj hsome
        have hnone := List.map_eq_nil_iff.mp hnothing.symm
        exact .inr fun o ho hin => List.filter_eq_nil_iff.mp hnone o ho (decide_eq_true hin)
      · rcases hwhole _ rfl with habsurd | hnone
        · exact absurd habsurd hall
        · have hfilter : group.2.filter (·.1 ∈ assigned) = [] :=
            List.filter_eq_nil_iff.mpr fun o ho hin => hnone o ho (of_decide_eq_true hin)
          dsimp only
          rw [hfilter, List.map_nil]

/-- What is asked for is what the store has noted. -/
theorem noted_commitFor (s : Scene (Noting σ)) (group : Nat × List (Int × Int)) : ∃ calls,
    (s.commitFor group).cluster.store.commits = s.cluster.store.commits ++ calls ∧
      s.askedFor group = calls.map (CommitCall.by group.1) := by
  have hspec := s.commitFor_spec group
  have hnoted : ∃ calls,
      (s.commitFor group).cluster.store.commits = s.cluster.store.commits ++ calls := by
    cases hshare : s.share? group.1 with
    | none =>
      rw [hshare] at hspec
      exact ⟨[], hspec.2.trans (List.append_nil _).symm⟩
    | some share =>
      rw [hshare] at hspec
      exact ⟨_, hspec.1⟩
  obtain ⟨calls, hcalls⟩ := hnoted
  refine ⟨calls, hcalls, ?_⟩
  rw [askedFor, hcalls, List.drop_left]

/-! ## Passes -/

omit [LogStore σ] [DependableStore σ] in
/-- Two lists that are parts of two others make up the same only if they are the same. -/
theorem append_eq_append_iff_of_sublist {α : Type} {l l' m m' : List α} (h : l.Sublist m)
    (h' : l'.Sublist m') : l ++ l' = m ++ m' ↔ l = m ∧ l' = m' := by
  refine ⟨fun heq => ?_, fun ⟨heq, heq'⟩ => by rw [heq, heq']⟩
  have hle := h.length_le
  have hle' := h'.length_le
  have hlength := congrArg List.length heq
  simp only [List.length_append] at hlength
  exact ⟨h.eq_of_length (by omega), h'.eq_of_length (by omega)⟩

/-- What is reported for some consumers is asked for, and it is all of that if and only if this is so
for each of them. -/
theorem commits_commitAll (groups : List (Nat × List (Int × Int)))
    (hloud : s.queue.recorder ≠ .silent) {told : Nat} (htold : told ≤ s.queue.reports.size) :
    ∃ reported, (groups.foldl commitFor s).queue.commits told = s.queue.commits told ++ reported ∧
      reported.Sublist (askedForAll groups s) ∧
      (reported = askedForAll groups s ↔ AllWhole groups s) := by
  induction groups generalizing s with
  | nil => exact ⟨[], (List.append_nil _).symm, .refl _, fun _ => trivial, fun _ => rfl⟩
  | cons group rest ih =>
    obtain ⟨first, hfirst, hsub, hwhole⟩ := commits_commitFor hloud htold group
    have hpassed := passed_commitFor s group
    have hloud' : (s.commitFor group).queue.recorder ≠ .silent := by rwa [hpassed.recorder_eq]
    obtain ⟨others, hothers, hsub', hwhole'⟩ := ih hloud' (htold.trans hpassed.size_le)
    refine ⟨first ++ others, ?_, hsub.append hsub', ?_⟩
    · rw [List.foldl_cons, hothers, hfirst, List.append_assoc]
    · exact (append_eq_append_iff_of_sublist hsub hsub').trans (and_congr hwhole hwhole')

omit [DependableStore σ] in
/-- A pass goes through its plan. One that releases nothing has nothing to go through. -/
theorem commitPass_cases (s : Scene (Noting σ)) :
    s.plan = [] ∧ s.commitPass = s ∨ s.commitPass = s.plan.foldl commitFor s.collected := by
  unfold commitPass
  dsimp only
  split
  · next hempty =>
    have hstalled := Ledger.stalled_of_released (beq_iff_eq.mp hempty)
    exact .inl ⟨hstalled.collect_idle.2, rfl⟩
  · exact .inr rfl

/-- What a pass asks for is all that the store has noted. -/
theorem noted_commitPass (s : Scene (Noting σ)) : ∃ calls,
    s.commitPass.cluster.store.commits = s.cluster.store.commits ++ calls ∧
      s.asked.map (fun c => (c.topic, c.partition, c.offset + 1)) =
        calls.map fun call => (call.topic, call.partition, call.next) := by
  have hall : ∀ (groups : List (Nat × List (Int × Int))) (s : Scene (Noting σ)), ∃ calls,
      (groups.foldl commitFor s).cluster.store.commits = s.cluster.store.commits ++ calls ∧
        (askedForAll groups s).map (fun c => (c.topic, c.partition, c.offset + 1)) =
          calls.map fun call => (call.topic, call.partition, call.next) := by
    intro groups
    induction groups with
    | nil => exact fun s => ⟨[], (List.append_nil _).symm, rfl⟩
    | cons group rest ih =>
      intro s
      obtain ⟨first, hfirst, hasked⟩ := s.noted_commitFor group
      obtain ⟨others, hothers, hasked'⟩ := ih (s.commitFor group)
      refine ⟨first ++ others, ?_, ?_⟩
      · rw [List.foldl_cons, hothers, hfirst, List.append_assoc]
      · rw [askedForAll, hasked, List.map_append, hasked', List.map_append, List.map_map]
        simp [CommitCall.by]
  obtain ⟨calls, hcalls, hasked⟩ := hall s.plan s.collected
  rcases s.commitPass_cases with ⟨hplan, hpass⟩ | hpass
  · refine ⟨[], ?_, ?_⟩
    · rw [hpass, List.append_nil]
    · rw [asked, hplan]
      rfl
  · exact ⟨calls, by rw [hpass]; exact hcalls, hasked⟩

/-- The recorder is told of no commit that the store was not asked for, and it is told of all of them
if and only if every consumer in turn is assigned all partitions of its offsets or none of them. -/
theorem told_sublist_asked (hloud : s.queue.recorder ≠ .silent) :
    s.told.Sublist s.asked ∧ (s.told = s.asked ↔ AllWhole s.plan s.collected) := by
  have hloud' : s.collected.queue.recorder ≠ .silent := hloud
  obtain ⟨reported, hreported, hsub, hwhole⟩ :=
    commits_commitAll s.plan hloud' (Nat.le_refl s.collected.queue.reports.size)
  rw [Queue.commits_self, List.nil_append] at hreported
  have htold : s.told = reported := by
    rw [told, ← hreported]
    rcases s.commitPass_cases with ⟨hplan, hpass⟩ | hpass
    · rw [hpass, hplan]
      rfl
    · rw [hpass]
      rfl
  rw [htold]
  exact ⟨hsub, hwhole⟩

end

end Scene

/-! ## A consumer that has lost a partition -/

namespace System

/-- A queue of two partitions, and a store that takes notes. -/
def divided : System (Noting MemoryLog) where
  cluster := { store := { inner := {} }, brokers := #[{ defaultPartitions := 2 }] }
  slots := #[{ queue := {
    broker := 0
    config := {
      groupId := "g", primaryTopic := "t", delayedTopic := "d", maxParallelTasks := 2 } } }]

/-- Both partitions have a record, and both executions have come to an end when somebody else joins
the group. The first task has reported its outcome, and commits next. -/
def joining : List (Move (Noting MemoryLog)) :=
  let append (p : Int) : Move (Noting MemoryLog) :=
    .outside (Use.operation (.append "t" p "k" ByteArray.empty))
  let step (process : Scene.Process) : Move (Noting MemoryLog) := .step ⟨0, 0, process⟩
  let primary := step .primary
  let dequeue := step .dequeue
  [.start 0, dequeue, append 0, append 1, primary, primary, primary, primary, primary, dequeue,
    dequeue, primary, primary, primary, dequeue, dequeue, step (.task 0), step (.task 1),
    .outside (do let _ ← Cluster.subscribe 0 "g" "t"), step (.task 0)]

/-- The second partition is not committed, and not all of the plan's partitions are the consumer's. -/
theorem told_sublist_asked_divided :
    ∃ s ∈ (divided.after joining).scene? 0 0,
      s.queue.recorder = .working ∧ s.plan = [(1, [(0, 0), (1, 0)])] ∧ s.told.Sublist s.asked ∧
        s.asked = [⟨1, "t", 0, 0⟩] ∧ ¬ Scene.AllWhole s.plan s.collected := by
  have hs : ∃ s ∈ (divided.after joining).scene? 0 0,
      s.queue.recorder = .working ∧ s.plan = [(1, [(0, 0), (1, 0)])] ∧
        s.asked = [⟨1, "t", 0, 0⟩] ∧ s.told = [] := by decide +kernel
  obtain ⟨s, hs, hrecorder, hplan, hasked, htold⟩ := hs
  have hloud : s.queue.recorder ≠ .silent := by simp [hrecorder]
  obtain ⟨hsub, hwhole⟩ := Scene.told_sublist_asked hloud
  refine ⟨s, hs, hrecorder, hplan, hsub, hasked, fun hall => ?_⟩
  have heq := hwhole.mpr hall
  rw [htold, hasked] at heq
  cases heq

/-- The store is asked for a commit of the first partition, and carries it out. Nobody is told. -/
theorem told_ne_asked_divided :
    (∃ s ∈ (divided.after joining).scene? 0 0,
      s.queue.recorder = .working ∧ s.asked = [⟨1, "t", 0, 0⟩] ∧ s.told = []) ∧
    ∃ s ∈ (divided.after (joining ++ [.step ⟨0, 0, .task 0⟩])).scene? 0 0,
      s.cluster.store.commits = [⟨"g", "t", 0, 1⟩] ∧
        StoreView.position s.cluster.store.inner "g" "t" 0 = some 1 ∧ s.queue.commits 0 = [] := by
  constructor <;> decide +kernel

end System

end WorkQueue
