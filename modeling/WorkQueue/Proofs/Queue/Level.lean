import WorkQueue.Proofs.Cluster.Enrolment
import WorkQueue.Proofs.Queue.Stable

/-!
# Positions level with what has been released

While a run is alone in its groups and in time, its commits succeed. So at any moment the position of
a partition has been raised past the last entry that the ledger has released, and not further: the
entries behind it are the ones that are still tracked.

## Main definitions

* `Ledger.cleared`: the offsets of the entries that are not tracked any more
* `Scene.Level`: the positions are level with what has been released

## Main statements

* `Scene.Begins.level`: nothing has been released of a run that has just been launched
* `Scene.Level.commitPass`: a pass raises the positions as far as it releases
* `Scene.Level.dequeued`, `Scene.Level.intake`, `Scene.Level.worked`, `Scene.Level.other`: whatever else
  happens keeps them level
-/

namespace WorkQueue

open StoreView GroupStore DependableStore

/-! ## Entries that are not tracked any more -/

namespace Ledger

variable {l : Ledger} {first : Nat} {topic : String} {key : LedgerKey}

/-- The offsets of the entries of a partition in front of those that are tracked. -/
def cleared (l : Ledger) (first : Nat) (topic : String) (key : LedgerKey) : List Int :=
  (l.taken first topic key.partition).take
    ((l.taken first topic key.partition).length - (l.queue key).length)

theorem cleared_transition (id : Nat) (next : EntryState) :
    (l.transition id next).2.cleared first topic key = l.cleared first topic key := by
  unfold cleared
  rw [taken_transition, queue_transition]

theorem cleared_of_size (h : l.entries.size = first) : l.cleared first topic key = [] := by
  rw [cleared, taken_of_size h, List.take_nil]

/-- A new entry is tracked. -/
theorem cleared_track (h : Tidy l) (hfirst : first ≤ l.entries.size) {consumer : Nat}
    {record : Record} (hle : (l.queue key).length ≤ (l.taken first topic key.partition).length)
    (hreader : key.consumer = consumer ↔ record.topic = topic) :
    (l.track consumer record).cleared first topic key = l.cleared first topic key := by
  unfold cleared
  rw [taken_track hfirst, queue_append h]
  by_cases hplace : record.topic = topic ∧ record.partition = key.partition
  · have hkey : key = ⟨consumer, record.partition⟩ := by
      obtain ⟨c, p⟩ := key
      exact congrArg₂ LedgerKey.mk (hreader.mpr hplace.1) hplace.2.symm
    rw [if_pos hplace, if_pos hkey, List.length_append, List.length_append,
      List.length_singleton, List.length_singleton, Nat.add_sub_add_right,
      List.take_append_of_le_length (Nat.sub_le _ _)]
  · have hkey : key ≠ ⟨consumer, record.partition⟩ := by
      rintro rfl
      exact hplace ⟨hreader.mp rfl, rfl⟩
    simp only [if_neg hplace, if_neg hkey, List.append_nil]

end Ledger

variable {σ : Type}

/-- The offsets of a partition that the run has released. -/
def Scene.cleared (first : Nat) (s : Scene σ) (source : Source) (p : Int) : List Int :=
  s.queue.ledger.cleared first (s.queue.config.topicOf source) ⟨(s.run.lane source).consumer, p⟩

namespace Scene

variable {first told : Nat} {s s' : Scene σ} {source : Source} {p : Int} {released : List Nat}

theorem Parted.taken_eq (h : s.Parted first told source p released) :
    s.queue.ledger.taken first (s.queue.config.topicOf source) p =
      released.map s.queue.ledger.offsetOf ++
        (s.queue.ledger.queue ⟨(s.run.lane source).consumer, p⟩).map s.queue.ledger.offsetOf := by
  unfold Ledger.taken
  rw [h.entries, List.map_append]

theorem Parted.cleared_eq (h : s.Parted first told source p released) :
    s.cleared first source p = released.map s.queue.ledger.offsetOf := by
  unfold Scene.cleared Ledger.cleared
  dsimp only
  rw [h.taken_eq, List.length_append, List.length_map, List.length_map, Nat.add_sub_cancel]
  exact List.take_left' (List.length_map _)

end Scene

/-! ## Level positions -/

variable [LogStore σ]

/-- A step of a loop reaches the store by a poll of its consumer. -/
theorem IntakeMove.reached {settings : IntakeSettings} {held held' : List Record} {stopped : Bool}
    {f f' : Feed σ} (h : IntakeMove settings held f held' stopped f') {i : Nat}
    (hplace : settings.place = i) :
    Reached (fun call => ∃ p, (Act.poll i p).MayCall f.cluster call) f.cluster.store
      f'.cluster.store := by
  subst hplace
  cases h with
  | stay => exact .refl _
  | push => exact .refl _
  | @poll p step cluster _ _ hpoll =>
    have hreached := Cluster.reached_on (.poll settings.place p) f.cluster fun _ hcall => hcall
    simp only [Act.on, hpoll] at hreached
    exact hreached.mono fun _ hcall => ⟨p, hcall⟩

variable [DependableStore σ]

/-- A call of somebody who keeps out of a queue's groups, and leaves their positions alone. -/
def Config.Excludes (σ : Type) [LogStore σ] [DependableStore σ] (c : Config) (call : StoreCall) :
    Prop :=
  c.Spares σ call ∧ ∀ source, ¬ call.Commits c.groupId (c.topicOf source)

namespace Scene

variable {first told : Nat} {start : Source → Int → Option Int} {s s' : Scene σ}
  {k : Source → Consumer}

/-- Both consumers are members of their groups, whose positions have been raised from `start` past
what the run has released. -/
structure Level (first : Nat) (start : Source → Int → Option Int) (s : Scene σ)
    (k : Source → Consumer) : Prop where
  opened : ∀ source, (k source).closed = false
  broker : ∀ source, (k source).broker = s.queue.broker
  /-- The run reads nothing but partitions of its topics. -/
  among : ∀ source p, s.queue.ledger.appended first (s.queue.config.topicOf source) p ≠ [] →
    p ∈ (k source).whole
  enrolled : ∀ source, (k source).Enrolled
    (fun p => raisedTo (start source p) (s.cleared first source p)) s.cluster.store

namespace Level

/-- Calls that leave members and positions alone, while the ledger releases nothing. -/
theorem update (h : s.Level first start k) (hs : s.Underway first told k)
    {allowed : StoreCall → Prop} (hreached : Reached allowed s.cluster.store s'.cluster.store)
    (hminds : ∀ source call, allowed call → (k source).Minds σ call)
    (hbroker : s'.queue.broker = s.queue.broker)
    (hamong : ∀ source p,
      s'.queue.ledger.appended first (s'.queue.config.topicOf source) p ≠ [] → p ∈ (k source).whole)
    (hcleared : ∀ source p, s'.cleared first source p = s.cleared first source p) :
    s'.Level first start k := by
  refine ⟨h.opened, fun source => ?_, hamong, fun source => ?_⟩
  · rw [hbroker]
    exact h.broker source
  · simp only [hcleared]
    exact hreached.enrolled (hs.staffed.member source).sole.orderly (hminds source)
      (h.enrolled source)

/-- Whatever leaves the ledger as it is. -/
theorem ofLedger (h : s.Level first start k) (hs : s.Underway first told k)
    {allowed : StoreCall → Prop} (hreached : Reached allowed s.cluster.store s'.cluster.store)
    (hminds : ∀ source call, allowed call → (k source).Minds σ call)
    (hbroker : s'.queue.broker = s.queue.broker) (hconfig : s'.queue.config = s.queue.config)
    (hledger : s'.queue.ledger = s.queue.ledger)
    (hconsumer : ∀ source, (s'.run.lane source).consumer = (s.run.lane source).consumer) :
    s'.Level first start k := by
  refine h.update hs hreached hminds hbroker (fun source p => ?_) fun source p => ?_
  · rw [hconfig, hledger]
    exact h.among source p
  · unfold Scene.cleared
    rw [hconfig, hledger, hconsumer]

/-- Whatever leaves the cluster and the ledger as they are. -/
theorem ofRun (h : s.Level first start k) (hs : s.Underway first told k)
    (hcluster : s'.cluster = s.cluster) (hbroker : s'.queue.broker = s.queue.broker)
    (hconfig : s'.queue.config = s.queue.config) (hledger : s'.queue.ledger = s.queue.ledger)
    (hlane : ∀ source, s'.run.lane source = s.run.lane source) : s'.Level first start k := by
  have hreached : Reached (fun _ => False) s.cluster.store s'.cluster.store := by
    rw [hcluster]
    exact .refl _
  exact h.ofLedger hs hreached (fun _ _ => False.elim) hbroker hconfig hledger fun source => by
    rw [hlane]

/-- An entry goes on to another state. -/
theorem transition (h : s.Level first start k) (hs : s.Underway first told k) (id : Nat)
    (next : EntryState) : Level first start
      { s with queue := { s.queue with ledger := (s.queue.ledger.transition id next).2 } } k := by
  refine h.update hs (.refl _ : Reached (fun _ => False) _ _) (fun _ _ => False.elim) rfl
    (fun source p => ?_) fun source p => Ledger.cleared_transition id next
  show Ledger.appended _ _ _ _ ≠ [] → _
  rw [Ledger.appended_transition]
  exact h.among source p

/-- A delivery is accepted. -/
theorem accept (h : s.Level first start k) (hs : s.Underway first told k) {d : Delivery}
    {rest : List Delivery} (hbuffer : s.run.channel.buffer = d :: rest) :
    Level first start { s with
      queue := { s.queue with ledger := s.queue.ledger.track d.consumer d.record }
      run := { s.run with
        dequeue := .awaitingPermit s.queue.ledger.entries.size
        channel := { s.run.channel with buffer := rest } } } k := by
  obtain ⟨reader, hreader, hreads, -⟩ := hs.staffed.reader_of_buffer hbuffer
  have htopic : d.record.topic = s.queue.config.topicOf reader :=
    hreads.1.trans (hs.staffed.member reader).topic_eq
  refine h.update hs (.refl _ : Reached (fun _ => False) _ _) (fun _ _ => False.elim) rfl
    (fun source p => ?_) fun source p => ?_
  · show Ledger.appended (s.queue.ledger.track d.consumer d.record) _ _ _ ≠ [] → _
    rw [Ledger.appended_track hs.first_le]
    intro hne
    by_cases hplace : d.record.topic = s.queue.config.topicOf source ∧ d.record.partition = p
    · obtain rfl := hs.staffed.topics (htopic.symm.trans hplace.1)
      exact hplace.2 ▸ hreads.2
    · rw [if_neg hplace, List.append_nil] at hne
      exact h.among source p hne
  · obtain ⟨released, hparted⟩ := hs.parted source p
    refine Ledger.cleared_track hs.tidy hs.first_le ?_ ?_
    · dsimp only
      rw [hparted.taken_eq, List.length_append, List.length_map, List.length_map]
      exact Nat.le_add_left _ _
    · exact hs.staffed.reader_iff hreader htopic source

/-- What a consumer has fetched is no matter. -/
theorem refetch (h : s.Level first start k) (source : Source) (fetch : Fetch) :
    s.Level first start (Function.update k source { k source with fetch }) := by
  have hsame : ∀ other, ∃ fetch', Function.update k source { k source with fetch } other =
      { k other with fetch := fetch' } := by
    intro other
    by_cases heq : other = source
    · subst heq
      exact ⟨fetch, Function.update_self ..⟩
    · exact ⟨(k other).fetch, Function.update_of_ne heq ..⟩
  refine ⟨fun other => ?_, fun other => ?_, fun other => ?_, fun other => ?_⟩ <;>
    obtain ⟨fetch', heq⟩ := hsame other <;> rw [heq]
  · exact h.opened other
  · exact h.broker other
  · exact h.among other
  · exact ⟨(h.enrolled other).member, (h.enrolled other).position⟩

/-- A step of the loop of one source: its polls are heartbeats and reads. -/
theorem moved (h : s.Level first start k) (hs : s.Underway first told k)
    (htimely : s.cluster.Timely s.queue.broker) {source : Source} (hstep : s.Moved source s') :
    s'.Level first start k := by
  cases hstep with
  | @intro settings held stopped f r hrunning hplace hconsumer hmove hself hother hrest =>
  refine h.ofLedger hs (hmove.reached hplace) ?_ rfl rfl rfl fun other => ?_
  · rintro other call ⟨p, hcall⟩
    by_cases heq : other = source
    · subst heq
      exact (hs.staffed.member other).sole.minds_poll ((h.broker other).symm ▸ htimely) hcall
    · exact (hs.staffed.member source).sole.minds_other (hs.staffed.topic_ne (Ne.symm heq))
        (.inl ⟨p, rfl⟩) hcall
  · show (r.lane other).consumer = _
    by_cases heq : other = source
    · rw [heq, hself]
    · rw [hother other heq]

/-- A step of an intake loop. -/
theorem intake (h : s.Level first start k) (hs : s.Underway first told k)
    (htimely : s.cluster.Timely s.queue.broker) {jitter : Jitter} {p : Process}
    (hstep : s.step? jitter p = some s') (hp : p = .primary ∨ p = .delayed) :
    ∃ k', s'.Underway first told k' ∧ s'.Level first start k' := by
  obtain ⟨source, next, stopped, place, hmoved, rfl⟩ := moved_of_step? hstep hp
  obtain ⟨fetch, hs'⟩ := hs.moved hmoved
  rw [leaveIfAborted_eq hs'.not_aborted]
  exact ⟨_, hs', (h.moved hs htimely hmoved).refetch source fetch⟩

/-- Others act, and keep out of the groups. -/
theorem other (h : s.Level first start k) (hs : s.Underway first told k) {a : Act}
    (hexcludes : ∀ call, a.MayCall s.cluster call → s.queue.config.Excludes σ call) :
    Level first start { s with cluster := a.on s.cluster } k := by
  refine h.ofLedger hs (Cluster.reached_on a s.cluster fun _ hcall => hcall) (fun source call hcall => ?_)
    rfl rfl rfl fun _ => rfl
  obtain ⟨⟨hby, hconcerns⟩, hcommits⟩ := hexcludes call hcall
  have hmember := hs.staffed.member source
  unfold Consumer.Minds
  rw [hmember.group_eq, hmember.topic_eq]
  exact ⟨hby, hcommits source, fun hgroup => absurd hgroup (hconcerns source)⟩

end Level

/-! ## Passes -/

/-- Committing for one consumer changes nothing of the cluster but the store. -/
theorem cluster_commitFor (h : s.Staffed first k) (group : Nat × List (Int × Int)) :
    ∃ store, (s.commitFor group).cluster = { s.cluster with store } := by
  unfold Scene.commitFor
  cases s.run.consumer? group.1 with
  | none => exact ⟨_, rfl⟩
  | some settings =>
    have hstore := sound_of_orderly s.cluster.store (h.member .primary).sole.orderly
    obtain ⟨store, hcluster, -⟩ := Cluster.commit_steps hstore settings.place group.2
    rcases hon : (Cluster.commit settings.place group.2).on s.cluster with ⟨result, cluster⟩
    rw [hon] at hcluster
    simp only [hon]
    cases result with
    | error e => exact ⟨store, hcluster⟩
    | ok _ => exact ⟨store, hcluster⟩

/-- Committing for one consumer raises the positions of its group. -/
theorem Staffed.enrolled_commitFor (h : s.Staffed first k)
    (hopened : ∀ source, (k source).closed = false)
    (htimely : ∀ source, s.cluster.Timely (k source).broker) {level : Source → Int → Option Int}
    (henrolled : ∀ source, (k source).Enrolled (level source) s.cluster.store)
    {group : Nat × List (Int × Int)} (hamong : ∀ po ∈ group.2, ∀ source,
      (s.run.lane source).consumer = group.1 → po.1 ∈ (k source).whole) (source : Source) :
    (k source).Enrolled (fun p => (Ledger.offsetsFor [group] ⟨(s.run.lane source).consumer, p⟩).foldl
      raisedPast (level source p)) (s.commitFor group).cluster.store := by
  have hother : (s.run.lane source).consumer ≠ group.1 → ∀ p,
      (Ledger.offsetsFor [group] ⟨(s.run.lane source).consumer, p⟩).foldl raisedPast
        (level source p) = level source p := by
    intro hne p
    simp [Ledger.offsetsFor, hne.symm]
  unfold Scene.commitFor
  cases hsettings : s.run.consumer? group.1 with
  | none =>
    have hne : (s.run.lane source).consumer ≠ group.1 := fun heq =>
      s.run.consumer?_lane_ne_none source (heq ▸ hsettings)
    simp only [hother hne]
    exact henrolled source
  | some settings =>
    obtain ⟨reader, hplace, hreader⟩ := Run.lane_of_consumer? hsettings
    have hreads := h.member reader
    rcases hon : (Cluster.commit settings.place group.2).on s.cluster with ⟨result, cluster⟩
    have hcluster : ((Cluster.commit (s.run.lane reader).place group.2).on s.cluster).2 = cluster := by
      rw [hplace, hon]
    have hraised : (k source).Enrolled (fun p =>
        (Ledger.offsetsFor [group] ⟨(s.run.lane source).consumer, p⟩).foldl raisedPast
          (level source p)) cluster.store := by
      by_cases heq : source = reader
      · subst heq
        have hcommit := hreads.sole.enrolled_commit (hopened source) (htimely source)
          (henrolled source) fun po hpo => hamong po hpo source hreader
        rw [hcluster] at hcommit
        simpa [Ledger.offsetsFor, hreader] using hcommit
      -- the other consumer does not notice
      · have hne : (s.run.lane source).consumer ≠ group.1 := hreader ▸ h.apart.ne heq
        have hreached := Cluster.reached_on (.commit (s.run.lane reader).place group.2) s.cluster
          fun _ hcall => hcall
        simp only [Act.on, hcluster] at hreached
        simp only [hother hne]
        exact hreached.enrolled hreads.sole.orderly
          (fun call hcall => hreads.sole.minds_other (h.topic_ne (Ne.symm heq)) (.inr ⟨_, rfl⟩) hcall)
          (henrolled source)
    simp only [hon]
    cases result with
    | error e => exact hraised
    | ok _ => exact hraised

/-- Committing for one consumer after the other. -/
theorem Staffed.enrolled_commitAll (groups : List (Nat × List (Int × Int))) (h : s.Staffed first k)
    (hopened : ∀ source, (k source).closed = false)
    (htimely : ∀ source, s.cluster.Timely (k source).broker) {level : Source → Int → Option Int}
    (henrolled : ∀ source, (k source).Enrolled (level source) s.cluster.store)
    (hamong : ∀ group ∈ groups, ∀ po ∈ group.2, ∀ source,
      (s.run.lane source).consumer = group.1 → po.1 ∈ (k source).whole) (source : Source) :
    (k source).Enrolled (fun p => (Ledger.offsetsFor groups ⟨(s.run.lane source).consumer, p⟩).foldl
      raisedPast (level source p)) (groups.foldl Scene.commitFor s).cluster.store := by
  induction groups generalizing s level with
  | nil => exact henrolled source
  | cons group rest ih =>
    have hcommits := h.commitFor (Nat.zero_le _) group
    obtain ⟨store, hcluster⟩ := cluster_commitFor h group
    have hgroup := h.enrolled_commitFor hopened htimely henrolled (hamong group List.mem_cons_self)
    have hrest := ih (hcommits.staffed h)
      (fun source => by rw [hcluster]; exact htimely source) hgroup
      (by rw [hcommits.run]; exact fun group' hmem => hamong group' (List.mem_cons_of_mem _ hmem))
    rw [hcommits.run] at hrest
    have hcons : ∀ key, Ledger.offsetsFor (group :: rest) key =
        Ledger.offsetsFor [group] key ++ Ledger.offsetsFor rest key := fun _ => by
      simp [Ledger.offsetsFor]
    simp only [hcons, List.foldl_append]
    exact hrest

/-- What a pass releases comes behind what has been released before. -/
theorem Underway.cleared_commitPass (h : s.Underway first told k) (source : Source) (p : Int) :
    s.commitPass.cleared first source p = s.cleared first source p ++
        ((s.queue.ledger.queue ⟨(s.run.lane source).consumer, p⟩).takeWhile
          s.queue.ledger.committable).map s.queue.ledger.offsetOf ∧
      (s.commitPass.cleared first source p).Pairwise (· < ·) := by
  have hledger : s.commitPass.queue.ledger = s.queue.ledger.collect.2 := by rw [h.commits.queue]
  obtain ⟨released, hparted⟩ := h.parted source p
  have hpass := hparted.commits h.tidy h.staffed.topics h.commits
  have hascending := h.commitPass.ascending (s.commitPass.queue.config.topicOf source) p
  rw [hpass.taken_eq] at hascending
  rw [hpass.cleared_eq, hparted.cleared_eq]
  refine ⟨?_, (List.pairwise_append.mp hascending).1⟩
  rw [hledger, List.map_append]
  rfl

theorem Level.commitPass (h : s.Level first start k) (hs : s.Underway first told k)
    (htimely : s.cluster.Timely s.queue.broker) : s.commitPass.Level first start k := by
  have hcommits := hs.commits
  have hqueue := hcommits.queue
  refine ⟨h.opened, fun source => ?_, fun source p => ?_, fun source => ?_⟩
  · rw [hqueue]
    exact h.broker source
  · rw [hqueue]
    exact h.among source p
  · have hamong : ∀ group ∈ s.queue.ledger.collect.1.offsets, ∀ po ∈ group.2, ∀ source,
        (s.run.lane source).consumer = group.1 → po.1 ∈ (k source).whole := by
      intro group hgroup po hpo source hconsumer
      have hreport : ((⟨group.1, po.1⟩ : LedgerKey), po.2) ∈ s.queue.ledger.collect.1.reports :=
        List.mem_flatMap.mpr ⟨group, hgroup, List.mem_map.mpr ⟨po, hpo, rfl⟩⟩
      obtain ⟨id, hid, -⟩ := (Ledger.mem_reports_collect hs.tidy).mp hreport
      have hmem : id ∈ s.queue.ledger.queue ⟨group.1, po.1⟩ :=
        List.takeWhile_sublist _ |>.subset (List.mem_of_getLast? hid)
      rw [← hconsumer] at hmem
      exact h.among source po.1 (List.ne_nil_of_mem (hs.mem_appended source po.1 id hmem))
    have hraised := hs.collected.enrolled_commitAll s.queue.ledger.collect.1.offsets h.opened
      (fun source => (h.broker source).symm ▸ htimely) h.enrolled hamong source
    rw [← commitPass_eq hs.tidy] at hraised
    refine ⟨hraised.member, fun p => ?_⟩
    obtain ⟨hcleared, hascending⟩ := hs.cleared_commitPass source p
    rw [hcleared] at hascending
    rw [hraised.position p, hcleared, ← raisedTo_append hascending,
      Ledger.offsetsFor_collect hs.tidy, List.getLast?_map]

/-! ## Steps -/

namespace Level

/-- An outcome is reported. -/
theorem report (h : s.Level first start k) (hs : s.Underway first told k) (time : Nat)
    (r : Resolution) (tasks : List Task) : Level first start
      { s with queue := s.queue.report (.resolved time r), run := { s.run with tasks } } k := by
  have heq := Queue.report_eq s.queue (.resolved time r)
  exact h.ofRun hs rfl (by rw [heq]) (by rw [heq]) (by rw [heq]) fun _ => rfl

/-- A step of a task. -/
theorem worked (h : s.Level first start k) (hs : s.Underway first told k)
    (htimely : s.cluster.Timely s.queue.broker) {jitter : Jitter} {index : Nat}
    (hstep : s.Worked jitter index s') : s'.Level first start k := by
  cases hstep with
  | @execute t x next stage permits ht hstage hnext hafter =>
    have hreached : Reached (fun call => ∀ source, (k source).Minds σ call) s.cluster.store
        next.2.producer.store := by
      rcases Execution.producer_step? hnext with heq | ⟨topic, key, value, heq⟩
      · rw [heq]
        exact .refl _
      · rw [heq]
        exact Cluster.reached_send s.queue.broker (fun _ => ⟨trivial, id, False.elim⟩)
          (fun _ _ => ⟨trivial, id, False.elim⟩) (fun _ _ => ⟨trivial, id, False.elim⟩) s.cluster
    exact (h.transition hs t.entry next.1.state).ofLedger (hs.transition t.entry next.1.state)
      hreached (fun source call hcall => hcall source) rfl rfl rfl fun _ => rfl
  | @report t r ht => exact h.report hs s.cluster.now r _
  | @lose t r ht => exact h.report hs s.cluster.now r _
  | commit => exact (h.commitPass hs htimely).ofRun hs.commitPass rfl rfl rfl rfl fun _ => rfl

/-- A step of the loop that takes deliveries, unless the run comes to its end. -/
theorem dequeued (h : s.Level first start k) (hs : s.Underway first told k) (hstep : s.Dequeued s') :
    s'.Level first start k ∨ s' = s.conclude := by
  cases hstep with
  | launch hdequeue =>
    have hgoing := hs.going
    rw [hdequeue] at hgoing
    exact hgoing.elim
  | accept hdequeue hbuffer =>
    rw [hs.accept_eq hbuffer]
    exact .inl (h.accept hs hbuffer)
  | stop => exact .inl (h.ofRun hs rfl rfl rfl rfl fun _ => rfl)
  | @cancel entry =>
    exact .inl ((h.transition hs entry .canceled).ofRun (hs.transition entry .canceled) rfl rfl rfl
      rfl fun _ => rfl)
  | spawn => exact .inl (h.ofRun hs rfl rfl rfl rfl fun _ => rfl)
  | skip => exact .inl (h.ofRun hs rfl rfl rfl rfl fun _ => rfl)
  | close => exact .inl (h.ofRun hs rfl rfl rfl rfl fun _ => rfl)
  | conclude => exact .inr rfl

end Level

/-! ## The beginning -/

/-- A subscription commits nothing. -/
theorem position_subscribe {c : Cluster σ} (ho : Orderly c.store) (broker : Nat)
    (group topic : String) :
    position ((Cluster.subscribe broker group topic).on c).2.store = position c.store := by
  have hreached : Reached (fun call => ∀ g t, ¬ call.Commits g t) c.store
      ((Cluster.subscribe broker group topic).on c).2.store :=
    Cluster.reached_subscribe broker c (fun _ _ => id) (fun _ _ _ => id) fun _ _ => id
  funext g t p
  exact hreached.position_eq (sound_of_orderly c.store ho) (fun _ hcall => hcall g t) p

/-- Behind the launch both consumers are members, and nothing has been released. -/
theorem Begins.level (h : s.Begins)
    (hs : s.launch.Underway s.queue.ledger.entries.size told k) :
    s.launch.Level s.queue.ledger.entries.size
      (fun source p => position s.cluster.store s.queue.config.groupId
        (s.queue.config.topicOf source) p) k := by
  have hlaunched := s.launched
  generalize s.launch = s' at hs hlaunched ⊢
  cases hlaunched with
  | fail => exact hs.going.elim
  | @join primary delayed c c' r hvalid hon hon' hlane hlane' =>
    have htopics := Config.topicOf_injective hvalid
    have hne : s.queue.config.primaryTopic ≠ s.queue.config.delayedTopic :=
      htopics.ne (Source.noConfusion : Source.primary ≠ Source.delayed)
    have hfirst : c'.consumer? (r.lane .primary).place = some (k .primary) :=
      (hs.staffed.member .primary).sole.consumer
    have hsecond : c'.consumer? (r.lane .delayed).place = some (k .delayed) :=
      (hs.staffed.member .delayed).sole.consumer
    rw [hlane] at hfirst
    rw [hlane'] at hsecond
    -- the first consumer, and what becomes of it behind the second subscription
    obtain ⟨k₀, hk₀, hgroup, htopic, -⟩ := Cluster.Sole.of_subscribe h.orderly (h.empty .primary) hon
    obtain ⟨hbroker, hopened, henrolled⟩ :=
      Cluster.enrolled_of_subscribe h.orderly hon hk₀.consumer
    have hafter : (Act.subscribe s.queue.broker s.queue.config.groupId
        s.queue.config.delayedTopic).on c = c' := congrArg Prod.snd hon'
    have hposition : position c.store = position s.cluster.store :=
      (congrArg (fun next => position next.2.store) hon).symm.trans
        (position_subscribe h.orderly _ _ _)
    have hfound : c'.consumer? primary = some k₀ := by
      rw [← hafter]
      exact Cluster.consumer?_on hk₀.consumer (fun _ heq => Act.noConfusion heq) Act.noConfusion
    obtain rfl : k .primary = k₀ :=
      Option.some.inj (hfirst.symm.trans hfound)
    have hother : s.queue.config.delayedTopic ≠ (k .primary).topic := by
      rw [htopic]
      exact hne.symm
    have hkept :=
      hk₀.enrolled_subscribe s.queue.broker s.queue.config.groupId hother henrolled
    rw [hon'] at hkept
    obtain ⟨hbroker', hopened', henrolled'⟩ :=
      Cluster.enrolled_of_subscribe hk₀.orderly hon' hsecond
    rw [hposition] at henrolled'
    refine ⟨fun source => ?_, fun source => ?_,
      fun source p hsome => absurd (Ledger.appended_of_size rfl) hsome, fun source => ?_⟩
    · cases source with
      | primary => exact hopened
      | delayed => exact hopened'
    · cases source with
      | primary => exact hbroker
      | delayed => exact hbroker'
    · simp only [Scene.cleared, Ledger.cleared_of_size]
      cases source with
      | primary => exact hkept
      | delayed => exact henrolled'

end Scene

end WorkQueue
