import WorkQueue.Proofs.Queue.Level

/-!
# What a run leaves behind

A run that is alone in its groups comes to its end by a last pass, and then both of its consumers
leave. So wherever it was when its token fired, nothing that may be committed is left uncommitted:
the position of a partition has been raised past the longest run of entries that have ended well, and
neither the ledger nor the groups know of the run's consumers any more.

## Main definitions

* `Ledger.finished`: the offsets of the entries of a partition up to the first one that has not ended
  well
* `Scene.Rested`: what a run leaves behind
* `Scene.Secured`: a run of which nothing is left uncommitted, at any moment

## Main statements

* `Scene.Level.conclude`: what the end of a run leads to
* `Scene.Secured.next`: whatever happens, a run is secured
* `Scene.nothing_uncommitted`: what a run that was stopped has left behind
-/

namespace WorkQueue

open StoreView GroupStore DependableStore

/-- The offsets of the entries of a partition from number `first` on, up to the first one that may
not be committed. -/
def Ledger.finished (l : Ledger) (first : Nat) (topic : String) (p : Int) : List Int :=
  ((l.appended first topic p).takeWhile l.committable).map l.offsetOf

theorem Ledger.finished_forget (l : Ledger) (consumer first : Nat) (topic : String) (p : Int) :
    (l.forget consumer).2.finished first topic p = l.finished first topic p := rfl

/-- With nothing left to release, what has been released is what has ended well. -/
theorem Scene.Parted.finished_eq {σ : Type} {first told : Nat} {s : Scene σ} {source : Source} {p : Int}
    {released : List Nat} (h : s.Parted first told source p released)
    (htidy : s.queue.ledger.Tidy) (hstalled : s.queue.ledger.Stalled) :
    s.queue.ledger.finished first (s.queue.config.topicOf source) p = s.cleared first source p := by
  unfold Ledger.finished
  rw [h.cleared_eq, h.entries, List.takeWhile_append_of_pos h.committable,
    hstalled.takeWhile_queue htidy, List.append_nil]

variable {σ : Type} [LogStore σ] [DependableStore σ]

namespace Scene

variable {first told : Nat} {start : Source → Int → Option Int} {s s' : Scene σ}
  {k : Source → Consumer}

/-- What a run that was stopped leaves behind: positions that have been raised from `start` past all
that has ended well, and no trace of its consumers. -/
structure Rested (first : Nat) (start : Source → Int → Option Int) (s : Scene σ) : Prop where
  orderly : Orderly s.cluster.store
  position : ∀ source p,
    position s.cluster.store s.queue.config.groupId (s.queue.config.topicOf source) p =
      raisedTo (start source p) (s.queue.ledger.finished first (s.queue.config.topicOf source) p)
  forgotten : ∀ source, ∀ q ∈ s.queue.ledger.queues, q.1.consumer ≠ (s.run.lane source).consumer
  left : ∀ source, (s.run.lane source).consumer ∉
    (roster s.cluster.store s.queue.config.groupId (s.queue.config.topicOf source)).members

/-- Others act, and keep out of the groups. -/
theorem Rested.other (h : s.Rested first start) {a : Act}
    (hexcludes : ∀ call, a.MayCall s.cluster call → s.queue.config.Excludes σ call) :
    Rested first start { s with cluster := a.on s.cluster } := by
  have hreached := Cluster.reached_on a s.cluster fun _ hcall => hcall
  have hfair : ∀ call, a.MayCall s.cluster call → Fair σ call := fun call hcall =>
    (hexcludes call hcall).1.1
  refine ⟨(hreached.roster_later h.orderly hfair "" "").1, fun source p => ?_, h.forgotten,
    fun source => ?_⟩
  · rw [hreached.position_eq (sound_of_orderly _ h.orderly)
      (fun call hcall => (hexcludes call hcall).2 source) p]
    exact h.position source p
  · rw [hreached.roster_eq h.orderly hfair fun call hcall => (hexcludes call hcall).1.2 source]
    exact h.left source

/-! ## The end of a run -/

/-- Leaving sets no position. -/
theorem position_leave {c : Cluster σ} (ho : Orderly c.store) (group topic : String) (member : Nat) :
    position (StoreCall.on (.leave group topic member) c.store) = position c.store := by
  funext g t p
  exact (StoreCall.kept_on (.leave group topic member)
    (sound_of_orderly c.store ho)).position_eq g t id p

/-- Both consumers leave their groups, and the positions stay. -/
theorem Underway.close_both (h : s.Underway first told k) (hopened : ∀ source, (k source).closed = false)
    {c : Cluster σ} (hc : (s.cluster.close (s.run.lane .primary).place).close
      (s.run.lane .delayed).place = c) :
    Orderly c.store ∧ position c.store = position s.cluster.store ∧
      ∀ source, (k source).id ∉ (roster c.store (k source).group (k source).topic).members := by
  subst hc
  have hprimary := (h.staffed.member .primary).sole
  have hne : (k .primary).topic ≠ (k .delayed).topic :=
    h.staffed.topic_ne (Source.noConfusion : Source.primary ≠ Source.delayed)
  obtain ⟨hstore, hleft⟩ := hprimary.close (hopened .primary)
  -- the second consumer does not notice that the first one leaves
  have hdelayed : Cluster.Sole (s.cluster.close (s.run.lane .primary).place)
      (s.run.lane .delayed).place (k .delayed) := by
    have hspares : ∀ call, (Act.close (s.run.lane .primary).place).MayCall s.cluster call →
        call.By (Valid σ) ∧ ¬ call.Concerns (k .delayed).group (k .delayed).topic := by
      rintro call ⟨k', hk', rfl⟩
      obtain rfl := Option.some.inj (hk'.symm.trans hprimary.consumer)
      exact ⟨hprimary.valid, fun hgroup => hne hgroup.2⟩
    exact (h.staffed.member .delayed).sole.aside hspares
  obtain ⟨hstore', hleft'⟩ := hdelayed.close (hopened .delayed)
  refine ⟨?_, ?_, fun source => ?_⟩
  · rw [hstore']
    exact orderly_on _ _ hdelayed.orderly hdelayed.valid
  · rw [hstore', position_leave hdelayed.orderly, hstore, position_leave hprimary.orderly]
  · cases source with
    | delayed => exact hleft'
    | primary =>
      rw [hstore', (roster_on (.leave _ _ _) _ hdelayed.orderly hdelayed.valid _ _).2
        fun hgroup => hne hgroup.2.symm]
      exact hleft

/-- The end of a run: a last pass, and both consumers leave. -/
theorem Level.conclude (h : s.Level first start k) (hs : s.Underway first told k)
    (htimely : s.cluster.Timely s.queue.broker) : s.conclude.Rested first start := by
  have hs₁ := hs.commitPass
  have h₁ := h.commitPass hs htimely
  have hstalled : s.commitPass.queue.ledger.Stalled := by
    rw [hs.commits.queue]
    exact Ledger.stalled_collect
  obtain ⟨horderly, hposition, hleft⟩ := hs₁.close_both h₁.opened rfl
  unfold Scene.conclude
  refine ⟨horderly, fun source p => ?_, fun source q hq => ?_, fun source => ?_⟩
  · obtain ⟨released, hparted⟩ := hs₁.parted source p
    have hlevel := (h₁.enrolled source).position p
    rw [(hs₁.staffed.member source).group_eq, (hs₁.staffed.member source).topic_eq,
      ← hparted.finished_eq hs₁.tidy hstalled] at hlevel
    dsimp only
    rw [Ledger.finished_forget, Ledger.finished_forget]
    exact (congrFun (congrFun (congrFun hposition _) _) p).trans hlevel
  · dsimp only at hq
    rw [Ledger.queues_forget, Ledger.queues_forget] at hq
    obtain ⟨hmem, hdelayed⟩ := List.mem_filter.mp hq
    obtain ⟨-, hprimary⟩ := List.mem_filter.mp hmem
    cases source with
    | primary => simpa [Run.lane] using hprimary
    | delayed => simpa [Run.lane] using hdelayed
  · have hmember := hs₁.staffed.member source
    have hgone := hleft source
    rw [hmember.id_eq, hmember.group_eq, hmember.topic_eq] at hgone
    exact hgone

/-! ## Whatever happens -/

/-- A run in a stable group and in time, at any moment, of which nothing is left uncommitted. -/
inductive Secured (first told : Nat) (start : Source → Int → Option Int) (s : Scene σ) : Prop where
  | begins (h : s.Begins) (hfirst : s.queue.ledger.entries.size = first)
    (htold : s.queue.reports.size = told) (hstart : ∀ source p, position s.cluster.store
      s.queue.config.groupId (s.queue.config.topicOf source) p = start source p)
  | underway {k : Source → Consumer} (h : s.Underway first told k) (hlevel : s.Level first start k)
  | stopped (h : s.Over) (hrested : s.Rested first start)
  | failed (h : s.Over) (hfailed : s.run.dequeue ≠ .ended .stopped)

namespace Secured

/-- A step of any process. -/
theorem step (h : s.Secured first told start) (htimely : s.cluster.Timely s.queue.broker)
    {jitter : Jitter} {p : Process} (hstep : s.step? jitter p = some s') :
    s'.Secured first told start := by
  cases h with
  | begins h hfirst htold hstart =>
    rw [h.step?_eq] at hstep
    split at hstep
    · obtain rfl := Option.some.inj hstep
      rcases h.launch with hover | ⟨k, hunderway⟩
      · exact .failed hover s.launched.not_stopped
      · have hlevel := h.level hunderway
        rw [funext fun source => funext (hstart source)] at hlevel
        rw [hfirst] at hlevel hunderway
        rw [htold] at hunderway
        exact .underway hunderway hlevel
    · cases hstep
  | @underway k hs hlevel =>
    cases p with
    | dequeue =>
      have hdequeued := dequeued_of_step? hstep
      rcases hs.dequeued hdequeued with hs' | ⟨rfl, hover⟩
      · rcases hlevel.dequeued hs hdequeued with hlevel' | rfl
        · exact .underway hs' hlevel'
        · exact hs'.going.elim
      · exact .stopped hover (hlevel.conclude hs htimely)
    | primary =>
      obtain ⟨k', hs', hlevel'⟩ := hlevel.intake hs htimely hstep (.inl rfl)
      exact .underway hs' hlevel'
    | delayed =>
      obtain ⟨k', hs', hlevel'⟩ := hlevel.intake hs htimely hstep (.inr rfl)
      exact .underway hs' hlevel'
    | task index =>
      have hworked := worked_of_step? hstep
      exact .underway (hs.worked hworked) (hlevel.worked hs htimely hworked)
  | stopped h hrested =>
    rw [h.step?_eq_none] at hstep
    cases hstep
  | failed h hfailed =>
    rw [h.step?_eq_none] at hstep
    cases hstep

theorem next (h : s.Secured first told start) (htimely : s.cluster.Timely s.queue.broker)
    (jitter : Jitter) {m : Move} (hexcludes : m.Keeps (s.queue.config.Excludes σ) s.cluster) :
    (s.next jitter m).Secured first told start := by
  cases m with
  | step p =>
    show ((s.step? jitter p).getD s).Secured first told start
    cases hstep : s.step? jitter p with
    | none => exact h
    | some s' => exact h.step htimely hstep
  | cancel =>
    cases h with
    | begins h hfirst htold hstart => exact .begins h.cancel hfirst htold hstart
    | underway hs hlevel =>
      exact .underway (hs.ofRun hs.going hs.closed hs.through)
        (hlevel.ofRun hs rfl rfl rfl rfl fun _ => rfl)
    | stopped h hrested =>
      exact .stopped ⟨h.ended, h.stopped, h.tasks, h.buffer⟩
        ⟨hrested.orderly, hrested.position, hrested.forgotten, hrested.left⟩
    | failed h hfailed => exact .failed ⟨h.ended, h.stopped, h.tasks, h.buffer⟩ hfailed
  | other a =>
    cases h with
    | begins h hfirst htold hstart =>
      refine .begins (h.other fun call hcall => (hexcludes call hcall).1) hfirst htold
        fun source p => ?_
      rw [← hstart source p]
      exact (Cluster.reached_on a s.cluster fun _ hcall => hcall).position_eq
        (sound_of_orderly _ h.orderly) (fun call hcall => (hexcludes call hcall).2 source) p
    | underway hs hlevel =>
      exact .underway (hs.other fun call hcall => (hexcludes call hcall).1)
        (hlevel.other hs hexcludes)
    | stopped h hrested =>
      exact .stopped ⟨h.ended, h.stopped, h.tasks, h.buffer⟩ (hrested.other hexcludes)
    | failed h hfailed => exact .failed ⟨h.ended, h.stopped, h.tasks, h.buffer⟩ hfailed

theorem after (h : s.Secured first told start) {jitter : Jitter} {moves : List Move}
    (hexcludes : Undisturbed (s.queue.config.Excludes σ) jitter moves s)
    (htimely : ∀ n, (s.after jitter (moves.take n)).cluster.Timely s.queue.broker) :
    (s.after jitter moves).Secured first told start := by
  induction moves generalizing s with
  | nil => exact h
  | cons m rest ih =>
    obtain ⟨hkeeps, hrest⟩ := hexcludes
    have hsame := same_next s jitter m
    rw [← hsame.config_eq] at hrest
    refine ih (h.next (htimely 0) jitter hkeeps) hrest fun n => ?_
    rw [hsame.broker_eq]
    exact htimely (n + 1)

end Secured

/-! ## Nothing left uncommitted -/

/-- Nothing that has ended well is left uncommitted. A run that nobody joins and that is in time may
be stopped at any moment: once it has come to its end, the position of each partition has been raised
past the longest run of entries, from the first one of the run on, that have ended as a success, as
skipped or as a failure. The ledger has no queue of the run's consumers, and neither of them is a
member any more. -/
theorem nothing_uncommitted (h : s.Begins) {jitter : Jitter} {moves : List Move}
    (hexcludes : Undisturbed (s.queue.config.Excludes σ) jitter moves s)
    (htimely : ∀ n, (s.after jitter (moves.take n)).cluster.Timely s.queue.broker)
    (hended : (s.after jitter moves).run.dequeue = .ended .stopped) :
    (∀ source p,
      position (s.after jitter moves).cluster.store s.queue.config.groupId
          (s.queue.config.topicOf source) p =
        raisedTo (position s.cluster.store s.queue.config.groupId (s.queue.config.topicOf source) p)
          ((s.after jitter moves).queue.ledger.finished s.queue.ledger.entries.size
            (s.queue.config.topicOf source) p)) ∧
      ∀ source,
        (∀ q ∈ (s.after jitter moves).queue.ledger.queues,
          q.1.consumer ≠ ((s.after jitter moves).run.lane source).consumer) ∧
        ((s.after jitter moves).run.lane source).consumer ∉
          (roster (s.after jitter moves).cluster.store s.queue.config.groupId
            (s.queue.config.topicOf source)).members := by
  have hsecured : (s.after jitter moves).Secured s.queue.ledger.entries.size s.queue.reports.size
      fun source p => position s.cluster.store s.queue.config.groupId
        (s.queue.config.topicOf source) p :=
    Secured.after (.begins h rfl rfl fun _ _ => rfl) hexcludes htimely
  have hconfig := (same_after s jitter moves).config_eq
  cases hsecured with
  | begins h' =>
    rw [h'.run] at hended
    cases hended
  | underway hs =>
    have hgoing := hs.going
    rw [hended] at hgoing
    exact hgoing.elim
  | stopped _ hrested =>
    have hposition := hrested.position
    have hleft := hrested.left
    rw [hconfig] at hposition hleft
    exact ⟨hposition, fun source => ⟨hrested.forgotten source, hleft source⟩⟩
  | failed _ hfailed => exact absurd hended hfailed

/-- The token fires while the second of two records waits for a permit and the first one is being
worked on. -/
def interrupted : List Move :=
  let send : Move := .other (.outside (.send 0 "t" "k" ByteArray.empty))
  let primary : Move := .step .primary
  let dequeue : Move := .step .dequeue
  let task : Move := .step (.task 0)
  [send, send, dequeue, primary, primary, primary, primary, dequeue, dequeue, primary, primary,
    primary, dequeue, .cancel, task, dequeue, primary, primary, .step .delayed, task, task, dequeue,
    dequeue]

theorem nothing_uncommitted_interrupted :
    (lone.after Jitter.middle interrupted).run.dequeue = .ended .stopped ∧
      (lone.after Jitter.middle interrupted).queue.ledger.taken 0 "t" 0 = [0, 1] ∧
      position (lone.after Jitter.middle interrupted).cluster.store "g" "t" 0 = some 1 ∧
      ((lone.after Jitter.middle interrupted).run.lane .primary).consumer ∉
        (roster (lone.after Jitter.middle interrupted).cluster.store "g" "t").members := by
  have hended : (lone.after Jitter.middle interrupted).run.dequeue = .ended .stopped := by
    decide +kernel
  have htaken : (lone.after Jitter.middle interrupted).queue.ledger.taken 0 "t" 0 = [0, 1] := by
    decide +kernel
  have hfinished : (lone.after Jitter.middle interrupted).queue.ledger.finished 0 "t" 0 = [0] := by
    decide +kernel
  have hexcludes : Undisturbed (lone.queue.config.Excludes MemoryLog) Jitter.middle interrupted
      lone :=
    undisturbed_of_sends (fun _ => ⟨⟨trivial, fun _ => id⟩, fun _ => id⟩)
      (fun _ _ => ⟨⟨trivial, fun _ => id⟩, fun _ => id⟩)
      (fun _ _ _ _ => ⟨⟨trivial, fun _ => id⟩, fun _ => id⟩) (by simp [interrupted]) lone
  obtain ⟨hposition, hgone⟩ :=
    nothing_uncommitted begins_lone hexcludes (fun _ => trivial) hended
  have hraised := hposition .primary 0
  have hfirst : lone.queue.ledger.entries.size = 0 := rfl
  rw [hfirst, show lone.queue.config.topicOf .primary = "t" from rfl, hfinished] at hraised
  exact ⟨hended, htaken, hraised, (hgone .primary).2⟩

end Scene

end WorkQueue
