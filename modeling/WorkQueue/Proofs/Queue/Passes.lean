import WorkQueue.Proofs.Ledger.SafePrefix
import WorkQueue.Proofs.Queue.Staff
import WorkQueue.Queue.Step

/-!
# What a run commits and reports

A pass releases entries from the front of each queue and commits the last one of them. So the entries
of a partition are, at any time, those that have been released and behind them those that are still
tracked, and whatever was reported belongs to the former.

## Main definitions

* `Queue.since`, `Queue.committed`, `Queue.resolved`: what has been reported from some moment on
* `Scene.Commits`: what committing does to a scene
* `Scene.Parted`: the entries of a partition, released and tracked

## Main statements

* `Scene.Staffed.commits`: a pass commits what the ledger's plan says
* `Scene.Parted.commits`: it releases what it commits
-/

namespace WorkQueue

open StoreView GroupStore

/-! ## Reports -/

/-- The offsets of a partition that a report says are committed. -/
def Report.committedIn (topic : String) (p : Int) : Report → List Int
  | .committed _ _ t offsets => if t = topic then Ledger.offsetsAt p offsets else []
  | .resolved .. => []

/-- The record that a report says is resolved. -/
def Report.resolvedAt? : Report → Option Place
  | .resolved _ r => some (r.topic, r.partition, r.offset)
  | .committed .. => none

namespace Queue

variable {q : Queue} {told : Nat}

/-- What has been reported behind the first `told` reports. -/
def since (q : Queue) (told : Nat) : List Report := q.reports.toList.drop told

/-- The offsets of a partition that have been reported to be committed. -/
def committed (q : Queue) (told : Nat) (topic : String) (p : Int) : List Int :=
  (q.since told).flatMap (Report.committedIn topic p)

/-- The records that have been reported to be resolved. -/
def resolved (q : Queue) (told : Nat) : List Place := (q.since told).filterMap Report.resolvedAt?

theorem report_eq (q : Queue) (r : Report) :
    q.report r = { q with reports := (q.report r).reports } := by
  unfold report
  split <;> rfl

theorem size_reports_report (q : Queue) (r : Report) :
    q.reports.size ≤ (q.report r).reports.size := by
  unfold report
  split
  · exact Nat.le_refl _
  · rw [Array.size_push]
    exact Nat.le_succ _

/-- A report comes behind the others, unless the recorder is silent. -/
theorem since_report (htold : told ≤ q.reports.size) (r : Report) :
    (q.report r).since told = q.since told ∨ (q.report r).since told = q.since told ++ [r] := by
  unfold report since
  split
  · exact .inl rfl
  · refine .inr ?_
    rw [Array.toList_push, List.drop_append_of_le_length htold]

/-- An outcome is not a commit. -/
theorem committed_report_resolved (htold : told ≤ q.reports.size) (time : Nat) (r : Resolution)
    (topic : String) (p : Int) :
    (q.report (.resolved time r)).committed told topic p = q.committed told topic p := by
  unfold committed
  rcases since_report htold (.resolved time r) with hsince | hsince
  · rw [hsince]
  · rw [hsince, List.flatMap_append]
    exact List.append_nil _

theorem resolved_report_resolved (htold : told ≤ q.reports.size) (time : Nat) (r : Resolution) :
    (q.report (.resolved time r)).resolved told = q.resolved told ∨
      (q.report (.resolved time r)).resolved told =
        q.resolved told ++ [(r.topic, r.partition, r.offset)] := by
  unfold resolved
  rcases since_report htold (.resolved time r) with hsince | hsince
  · exact .inl (by rw [hsince])
  · refine .inr ?_
    rw [hsince, List.filterMap_append]
    rfl

end Queue

/-! ## Released entries -/

namespace Scene

variable {σ : Type} {first told : Nat} {s s' : Scene σ} {source : Source} {p : Int}
  {released : List Nat}

/-- The entries of a partition: those that have been released, which may all be committed, and
behind them those that are tracked. Whatever was reported belongs to the former. -/
structure Parted (first told : Nat) (s : Scene σ) (source : Source) (p : Int)
    (released : List Nat) : Prop where
  entries : s.queue.ledger.appended first (s.queue.config.topicOf source) p =
    released ++ s.queue.ledger.queue ⟨(s.run.lane source).consumer, p⟩
  committable : ∀ id ∈ released, s.queue.ledger.committable id = true
  reported : (s.queue.committed told (s.queue.config.topicOf source) p).Sublist
    (released.map s.queue.ledger.offsetOf)

namespace Parted

theorem sublist_taken (h : s.Parted first told source p released) :
    (s.queue.committed told (s.queue.config.topicOf source) p).Sublist
      (s.queue.ledger.taken first (s.queue.config.topicOf source) p) := by
  refine h.reported.trans ?_
  unfold Ledger.taken
  rw [h.entries, List.map_append]
  exact List.sublist_append_left _ _

/-- Whatever leaves the ledger, its commits and the consumers as they are. -/
theorem update (h : s.Parted first told source p released)
    (hconfig : s'.queue.config = s.queue.config)
    (hconsumer : (s'.run.lane source).consumer = (s.run.lane source).consumer)
    (hledger : s'.queue.ledger = s.queue.ledger)
    (hcommitted : ∀ topic, s'.queue.committed told topic p = s.queue.committed told topic p) :
    s'.Parted first told source p released := by
  constructor
  · rw [hconfig, hconsumer, hledger]
    exact h.entries
  · rw [hledger]
    exact h.committable
  · rw [hconfig, hledger, hcommitted]
    exact h.reported

/-- An entry goes on to another state. -/
theorem transition (h : s.Parted first told source p released) (id : Nat) (next : EntryState) :
    Parted first told
      { s with queue := { s.queue with ledger := (s.queue.ledger.transition id next).2 } }
      source p released := by
  constructor
  · show Ledger.appended _ _ _ _ = _
    rw [Ledger.appended_transition, Ledger.queue_transition]
    exact h.entries
  · exact fun j hj => Ledger.committable_transition (h.committable j hj) id next
  · have hoffsets : (s.queue.ledger.transition id next).2.offsetOf = s.queue.ledger.offsetOf :=
      funext (Ledger.offsetOf_transition id next)
    show List.Sublist _ (released.map (s.queue.ledger.transition id next).2.offsetOf)
    rw [hoffsets]
    exact h.reported

/-- A delivery of one of the two consumers is tracked. -/
theorem track (h : s.Parted first told source p released) (htidy : s.queue.ledger.Tidy)
    (hfirst : first ≤ s.queue.ledger.entries.size) {d : Delivery}
    (hreader : (s.run.lane source).consumer = d.consumer ↔
      d.record.topic = s.queue.config.topicOf source) :
    Parted first told
      { s with queue := { s.queue with ledger := s.queue.ledger.track d.consumer d.record } }
      source p released := by
  have hold : ∀ id ∈ released, id < s.queue.ledger.entries.size := fun id hid => by
    apply Ledger.lt_of_mem_appended
    rw [h.entries]
    exact List.mem_append_left _ hid
  constructor
  · show Ledger.appended _ _ _ _ = _
    rw [Ledger.appended_track hfirst, Ledger.queue_append htidy, h.entries, List.append_assoc]
    congr 1
    -- the entry is one of the partition exactly if it stands in the queue of the consumer
    have hplace : (⟨(s.run.lane source).consumer, p⟩ : LedgerKey) =
        ⟨d.consumer, d.record.partition⟩ ↔
        d.record.topic = s.queue.config.topicOf source ∧ d.record.partition = p := by
      rw [LedgerKey.mk.injEq, hreader, eq_comm (a := p)]
    by_cases hkey : (⟨(s.run.lane source).consumer, p⟩ : LedgerKey) =
        ⟨d.consumer, d.record.partition⟩
    · rw [if_pos hkey, if_pos (hplace.mp hkey)]
    · rw [if_neg hkey, if_neg fun heq => hkey (hplace.mpr heq), List.append_nil]
  · intro id hid
    have hstate : (s.queue.ledger.track d.consumer d.record).stateOf id =
        s.queue.ledger.stateOf id := Ledger.stateOf_track_of_lt (hold id hid)
    show EntryState.isCommittable _ = true
    rw [hstate]
    exact h.committable id hid
  · have hoffsets : released.map (s.queue.ledger.track d.consumer d.record).offsetOf =
        released.map s.queue.ledger.offsetOf :=
      List.map_congr_left fun id hid => Ledger.offsetOf_track_of_lt (hold id hid)
    show List.Sublist _ (released.map (s.queue.ledger.track d.consumer d.record).offsetOf)
    rw [hoffsets]
    exact h.reported

end Parted

end Scene

/-! ## Commits -/

variable {σ : Type} [LogStore σ]

/-- A pass commits what its plan says; one that releases nothing has nothing to commit. -/
theorem Scene.commitPass_eq {s : Scene σ} (h : s.queue.ledger.Tidy) :
    s.commitPass = s.queue.ledger.collect.1.offsets.foldl Scene.commitFor
      { s with queue := { s.queue with ledger := s.queue.ledger.collect.2 } } := by
  unfold Scene.commitPass
  dsimp only
  split
  · next hempty =>
    have hstalled := Ledger.stalled_of_released (beq_iff_eq.mp hempty)
    rw [hstalled.collect_idle.2, hstalled.collect_eq h]
    rfl
  · rfl

variable [GroupStore σ]

namespace Scene

variable {first told : Nat} {k : Source → Consumer} {s s' s'' : Scene σ}
  {groups more : List (Nat × List (Int × Int))}

/-- What committing the offsets of some consumers does to a scene: it reports some of them, each for
the topic of its consumer. -/
structure Commits (told : Nat) (k : Source → Consumer) (groups : List (Nat × List (Int × Int)))
    (s s' : Scene σ) : Prop where
  run : s'.run = s.run
  queue : s'.queue = { s.queue with reports := s'.queue.reports }
  size : s.queue.reports.size ≤ s'.queue.reports.size
  sole : ∀ source, s'.cluster.Sole (s.run.lane source).place (k source)
  resolved : s'.queue.resolved told = s.queue.resolved told
  committed : ∀ topic p, ∃ added,
    s'.queue.committed told topic p = s.queue.committed told topic p ++ added ∧
      (added = [] ∨ ∃ source, s.queue.config.topicOf source = topic ∧
        added.Sublist (Ledger.offsetsFor groups ⟨(s.run.lane source).consumer, p⟩))

namespace Commits

theorem refl (h : s.Staffed first k) : s.Commits told k [] s where
  run := rfl
  queue := rfl
  size := Nat.le_refl _
  sole source := (h.member source).sole
  resolved := rfl
  committed _ _ := ⟨[], (List.append_nil _).symm, .inl rfl⟩

/-- Both consumers remain as they are. -/
theorem staffed (h : s.Commits told k groups s') (hs : s.Staffed first k) : s'.Staffed first k := by
  have hconfig : s'.queue.config = s.queue.config := by rw [h.queue]
  have hledger : s'.queue.ledger = s.queue.ledger := by rw [h.queue]
  refine hs.update hconfig (fun _ => ?_) ?_ (fun _ _ => ?_) h.sole
  · rw [h.run]
  · rw [h.run]
  · rw [hledger]

theorem trans (h : s.Commits told k groups s') (h' : s'.Commits told k more s'')
    (htopics : Function.Injective s.queue.config.topicOf) :
    s.Commits told k (groups ++ more) s'' := by
  have hconfig : s'.queue.config = s.queue.config := by rw [h.queue]
  refine ⟨h'.run.trans h.run, ?_, h.size.trans h'.size, fun source => ?_,
    h'.resolved.trans h.resolved, fun topic p => ?_⟩
  · rw [h'.queue, h.queue]
  · have hsole := h'.sole source
    rw [h.run] at hsole
    exact hsole
  · obtain ⟨added, hadded, hfrom⟩ := h.committed topic p
    obtain ⟨added', hadded', hfrom'⟩ := h'.committed topic p
    rw [h.run, hconfig] at hfrom'
    refine ⟨added ++ added', by rw [hadded', hadded, List.append_assoc], ?_⟩
    have hflat : ∀ key, Ledger.offsetsFor (groups ++ more) key =
        Ledger.offsetsFor groups key ++ Ledger.offsetsFor more key := fun _ => List.flatMap_append
    simp only [hflat]
    -- both are for one topic, and that is the topic of one source
    rcases hfrom with rfl | ⟨source, hsource, hsub⟩ <;>
      rcases hfrom' with rfl | ⟨source', hsource', hsub'⟩
    · exact .inl rfl
    · exact .inr ⟨source', hsource', (List.nil_sublist _).append hsub'⟩
    · exact .inr ⟨source, hsource, hsub.append (List.nil_sublist _)⟩
    · obtain rfl := htopics (hsource'.trans hsource.symm)
      exact .inr ⟨source', hsource', hsub.append hsub'⟩

end Commits

namespace Staffed

/-- The offsets of one consumer. -/
theorem commitFor (h : s.Staffed first k) (htold : told ≤ s.queue.reports.size)
    (group : Nat × List (Int × Int)) : s.Commits told k [group] (s.commitFor group) := by
  unfold Scene.commitFor
  cases hsettings : s.run.consumer? group.1 with
  -- a consumer of another run
  | none => exact ⟨rfl, rfl, Nat.le_refl _, fun source => (h.member source).sole, rfl,
      fun _ _ => ⟨[], (List.append_nil _).symm, .inl rfl⟩⟩
  | some settings =>
    obtain ⟨source, hplace, hconsumer⟩ := Run.lane_of_consumer? hsettings
    have hsole := h.commit source group.2
    rw [hplace] at hsole
    rcases hon : (Cluster.commit settings.place group.2).on s.cluster with ⟨result, cluster⟩
    rw [hon] at hsole
    simp only [hon]
    cases result with
    | error e => exact ⟨rfl, rfl, Nat.le_refl _, hsole, rfl,
        fun _ _ => ⟨[], (List.append_nil _).symm, .inl rfl⟩⟩
    | ok _ =>
      have hk : cluster.consumer? settings.place = some (k source) := hplace ▸ (hsole source).consumer
      simp only [hk, (h.member source).topic_eq]
      have hsince := Queue.since_report htold
        (.committed cluster.now group.1 (s.queue.config.topicOf source) group.2)
      refine ⟨rfl, Queue.report_eq _ _, Queue.size_reports_report _ _, hsole, ?_, fun topic p => ?_⟩
      · unfold Queue.resolved
        rcases hsince with heq | heq
        · rw [heq]
        · rw [heq, List.filterMap_append]
          exact List.append_nil _
      · unfold Queue.committed
        rcases hsince with heq | heq
        · rw [heq]
          exact ⟨[], (List.append_nil _).symm, .inl rfl⟩
        · rw [heq, List.flatMap_append, List.flatMap_singleton]
          refine ⟨_, rfl, ?_⟩
          simp only [Report.committedIn]
          split
          · next htopic =>
            refine .inr ⟨source, htopic, ?_⟩
            simp [Ledger.offsetsFor, hconsumer]
          · exact .inl rfl

/-- The offsets of one consumer after the other. -/
theorem commitAll (groups : List (Nat × List (Int × Int))) (h : s.Staffed first k)
    (htold : told ≤ s.queue.reports.size) :
    s.Commits told k groups (groups.foldl Scene.commitFor s) := by
  induction groups generalizing s with
  | nil => exact .refl h
  | cons group rest ih =>
    have hgroup := h.commitFor htold group
    exact hgroup.trans (ih (hgroup.staffed h) (htold.trans hgroup.size)) h.topics

end Staffed

theorem Staffed.commits (h : s.Staffed first k) (htidy : s.queue.ledger.Tidy)
    (htold : told ≤ s.queue.reports.size) :
    Commits told k s.queue.ledger.collect.1.offsets
      { s with queue := { s.queue with ledger := s.queue.ledger.collect.2 } } s.commitPass := by
  rw [commitPass_eq htidy]
  have hcollected : Staffed first
      { s with queue := { s.queue with ledger := s.queue.ledger.collect.2 } } k :=
    h.update rfl (fun _ => rfl) rfl (fun _ _ => rfl) fun source => (h.member source).sole
  exact hcollected.commitAll _ htold

/-- A pass releases what it commits. -/
theorem Parted.commits {source : Source} {p : Int} {released : List Nat}
    (h : s.Parted first told source p released) (htidy : s.queue.ledger.Tidy)
    (htopics : Function.Injective s.queue.config.topicOf)
    (hcommits : Commits told k s.queue.ledger.collect.1.offsets
      { s with queue := { s.queue with ledger := s.queue.ledger.collect.2 } } s') :
    s'.Parted first told source p (released ++
      (s.queue.ledger.queue ⟨(s.run.lane source).consumer, p⟩).takeWhile
        s.queue.ledger.committable) := by
  have hconfig : s'.queue.config = s.queue.config := by rw [hcommits.queue]
  have hledger : s'.queue.ledger = s.queue.ledger.collect.2 := by rw [hcommits.queue]
  have hrun : s'.run = s.run := hcommits.run
  constructor
  · rw [hconfig, hledger, hrun, Ledger.queue_collect htidy, List.append_assoc,
      List.takeWhile_append_dropWhile]
    exact h.entries
  · rw [hledger]
    intro id hid
    rcases List.mem_append.mp hid with hold | hnew
    · exact h.committable id hold
    · exact List.mem_takeWhile_imp hnew
  · obtain ⟨added, hadded, hfrom⟩ := hcommits.committed (s.queue.config.topicOf source) p
    rw [hconfig, hledger, hadded, List.map_append]
    refine h.reported.append ?_
    rcases hfrom with rfl | ⟨source', hsource', hsub⟩
    · exact List.nil_sublist _
    · obtain rfl := htopics hsource'
      exact hsub.trans (Ledger.offsetsFor_collect_sublist htidy _)

end Scene

end WorkQueue
