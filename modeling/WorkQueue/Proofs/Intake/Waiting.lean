import WorkQueue.Proofs.Cluster.Pace
import WorkQueue.Proofs.Cluster.Tenure
import WorkQueue.Proofs.Intake.Annals

/-!
# How long a record waits to be tried again

The delayed loop is there to let a failed task rest for a while. What it guarantees is less than one
period for each record: nothing is released before one period from the start of the loop, and a record
that is released in a batch with others has been read at least one period before. But a record that
is alone in its batch is released at once, and if it has been appended just in front of the tick, it
has not waited at all.

## Main definitions

* `Annals.batch`: the records that have been read since the last tick, and when
* `Occurrence.Lawful`: others act on the cluster as they can
* `Paced`: the invariant of the delayed loop on a clock that does not go back

## Main statements

* `Paced.next`: what every occurrence keeps
* `Delayed.waits_unless_alone`: how long a record has waited when it is pushed
* `Delayed.pushed_at_once`: a record that has not waited
-/

namespace WorkQueue

open StoreView RecordStore

/-! ## Batches -/

namespace Annals

/-- The records that polls have handed out, and when. -/
def reads (h : Annals) : List (Nat × Record) :=
  h.filterMap fun deed => deed.2.record?.map (deed.1, ·)

/-- The records that have been read since the last tick, and when. -/
def batch (h : Annals) : List (Nat × Record) :=
  h.foldl (fun batch deed =>
    match deed.2 with
    | .ticked => []
    | .polled (.ok (some r)) => batch ++ [(deed.1, r)]
    | _ => batch) []

theorem reads_append (h h' : Annals) : reads (h ++ h') = h.reads ++ reads h' :=
  List.filterMap_append

theorem batch_concat (h : Annals) (deed : Nat × Deed) : batch (h ++ [deed]) =
    match deed.2 with
    | .ticked => []
    | .polled (.ok (some r)) => h.batch ++ [(deed.1, r)]
    | _ => h.batch := List.foldl_concat ..

theorem time_of_mem_reads {time : Nat} {deeds : List Deed} {x : Nat × Record}
    (hx : x ∈ (moment time deeds).reads) : x.1 = time := by
  obtain ⟨deed, hdeed, hx⟩ := List.mem_filterMap.mp hx
  obtain ⟨_, -, rfl⟩ := List.mem_map.mp hdeed
  obtain ⟨r, -, rfl⟩ := Option.map_eq_some_iff.mp hx
  rfl

/-- What is in a batch has been read. -/
theorem batch_subset_reads (h : Annals) : ∀ x ∈ h.batch, x ∈ h.reads := by
  induction h using List.reverseRecOn with
  | nil => nofun
  | append_singleton h deed ih =>
    intro x hx
    rw [batch_concat] at hx
    have hgrows : ∀ x ∈ reads h, x ∈ reads (h ++ [deed]) := by
      intro x hx
      rw [reads_append]
      exact List.mem_append_left _ hx
    obtain ⟨time, deed⟩ := deed
    cases deed with
    | ticked => cases hx
    | rested | pushed => exact hgrows x (ih x hx)
    | polled result =>
      rcases result with e | _ | r
      · exact hgrows x (ih x hx)
      · exact hgrows x (ih x hx)
      · rcases List.mem_append.mp hx with hold | hnew
        · exact hgrows x (ih x hold)
        · rw [reads_append]
          exact List.mem_append_right _ hnew

/-- Something that has been done is the last thing that has been done, or was done before. -/
theorem split_concat {h before after : Annals} {deed deed' : Nat × Deed}
    (heq : h ++ [deed] = before ++ deed' :: after) :
    (h = before ∧ deed = deed') ∨ ∃ rest, h = before ++ deed' :: rest := by
  rcases List.eq_nil_or_concat after with rfl | ⟨rest, last, rfl⟩
  · obtain ⟨hsame, hlast⟩ := List.append_inj' heq rfl
    exact .inl ⟨hsame, (List.cons.inj hlast).1⟩
  · rw [List.concat_eq_append, ← List.cons_append, ← List.append_assoc] at heq
    exact .inr ⟨rest, (List.append_inj' heq rfl).1⟩

end Annals

variable {σ : Type} {s : IntakeSettings} {m : Shift σ Delayed}

/-! ## The clock of the loop -/

/-- What a loop that has begun at time `start` is doing with the batch at time `now`. -/
def Spaced (period start now : Nat) (batch : List (Nat × Record)) : DelayedPhase → Prop
  | .draining read _ => start + period ≤ now ∧
    read = batch.map (·.2) ∧ (2 ≤ batch.length → ∀ x ∈ batch, x.1 + period ≤ now)
  -- the last record has been read when the rest has begun
  | .spacing read r wake => ∃ earlier time, batch = earlier ++ [(time, r)] ∧
    read = earlier.map (·.2) ∧ wake = time + period ∧ ∀ x ∈ earlier, x.1 ≤ time
  | .releasing rest _ =>
    (∀ r ∈ rest, r ∈ batch.map (·.2)) ∧ (2 ≤ batch.length → ∀ x ∈ batch, x.1 + period ≤ now)
  | _ => True

/-- When `d` is pushed at time `time`, it has been read one period after the start, and one period
ago unless it is alone in its batch. -/
def Rested (period start : Nat) (before : Annals) (time : Nat) (d : Delivery) : Prop :=
  ∃ read, (read, d.record) ∈ before.batch ∧ start + period ≤ read ∧ read ≤ time ∧
    (2 ≤ before.batch.length → read + period ≤ time)

/-- A delayed loop that has begun at time `start`. -/
structure Paced (s : IntakeSettings) (start : Nat) (m : Shift σ Delayed) : Prop where
  due : start + s.period ≤ m.loop.due
  read : ∀ x ∈ m.annals.batch, start + s.period ≤ x.1 ∧ x.1 ≤ m.feed.cluster.now
  spaced : Spaced s.period start m.feed.cluster.now m.annals.batch m.loop.phase
  rested : ∀ before time d after, m.annals = before ++ (time, .pushed d) :: after →
    Rested s.period start before time d

variable {start : Nat}

theorem Spaced.mono {period now now' : Nat} {batch : List (Nat × Record)} {phase : DelayedPhase}
    (h : Spaced period start now batch phase) (hle : now ≤ now') :
    Spaced period start now' batch phase := by
  cases phase with
  | ticking | pausing | stopped => trivial
  | spacing => exact h
  | releasing => exact ⟨h.1, fun hmany x hx => Nat.le_trans (h.2 hmany x hx) hle⟩
  | draining =>
    obtain ⟨hlate, hread, hall⟩ := h
    exact ⟨Nat.le_trans hlate hle, hread, fun hmany x hx => Nat.le_trans (hall hmany x hx) hle⟩

/-- One more record has been read. -/
theorem Spaced.read {period now : Nat} {p : Polling} {batch : List (Nat × Record)} {read : List Record}
    (h : Spaced period start now batch (.draining read p)) (hpast : ∀ x ∈ batch, x.1 ≤ now)
    (r : Record) :
    Spaced period start now (batch ++ [(now, r)])
      (Delayed.afterPoll now period read (.ok (some r))) := by
  obtain ⟨hlate, hsame, -⟩ := h
  cases read with
  | nil =>
    -- the first record of a batch needs no rest
    have hempty : batch = [] := List.map_eq_nil_iff.mp hsame.symm
    rw [hempty]
    exact ⟨hlate, rfl, fun htwo => absurd htwo (by simp)⟩
  | cons r₀ read => exact ⟨batch, now, rfl, hsame, rfl, hpast⟩

/-- The rest after a record is over. -/
theorem Spaced.rest {period now wake : Nat} {batch : List (Nat × Record)} {read : List Record}
    {r : Record} (h : Spaced period start now batch (.spacing read r wake)) (hwake : wake ≤ now)
    (hlate : ∀ x ∈ batch, start + period ≤ x.1) :
    Spaced period start now batch (Delayed.drain now (read ++ [r])) := by
  obtain ⟨earlier, time, rfl, rfl, rfl, hbefore⟩ := h
  have hlast := hlate (time, r) (List.mem_append_right _ (List.mem_singleton_self _))
  have hread : earlier.map (·.2) ++ [r] = (earlier ++ [(time, r)]).map (·.2) := by
    rw [List.map_append, List.map_singleton]
  refine ⟨by omega, hread, fun _ x hx => ?_⟩
  -- all of them have been read when the rest has begun, or before
  have hle : x.1 ≤ time := by
    rcases List.mem_append.mp hx with hold | hnew
    · exact hbefore x hold
    · rw [List.mem_singleton.mp hnew]
  omega

/-- What is released is as old as the batch. -/
theorem Spaced.rested {period now : Nat} {annals : Annals} {r : Record} {rest : List Record}
    {failure : Option BrokerError}
    (h : Spaced period start now annals.batch (.releasing (r :: rest) failure))
    (hread : ∀ x ∈ annals.batch, start + period ≤ x.1 ∧ x.1 ≤ now) (consumer : Nat) :
    Rested period start annals now ⟨consumer, r⟩ := by
  obtain ⟨hheld, hmany⟩ := h
  obtain ⟨⟨time, _⟩, hmem, rfl⟩ := List.mem_map.mp (hheld r List.mem_cons_self)
  obtain ⟨hlate, hle⟩ := hread _ hmem
  exact ⟨time, hmem, hlate, hle, fun htwo => hmany htwo _ hmem⟩

/-- A tick is followed by one that is due later. -/
theorem le_nextTick (period due now : Nat) : due ≤ nextTick period due now := by
  unfold nextTick
  split <;> omega

/-- Time may pass while nothing is done. -/
theorem Paced.idle (h : Paced s start m) {m' : Shift σ Delayed} (hannals : m'.annals = m.annals)
    (hnow : m.feed.cluster.now ≤ m'.feed.cluster.now) (hdue : m.loop.due ≤ m'.loop.due)
    (hspaced : Spaced s.period start m.feed.cluster.now m.annals.batch m'.loop.phase) :
    Paced s start m' := by
  refine ⟨Nat.le_trans h.due hdue, ?_, ?_, ?_⟩
  · rw [hannals]
    exact fun x hx => (h.read x hx).imp_right (Nat.le_trans · hnow)
  · rw [hannals]
    exact hspaced.mono hnow
  · rw [hannals]
    exact h.rested

/-- One more thing is done. -/
theorem Paced.deed (h : Paced s start m) {m' : Shift σ Delayed} {deed : Deed}
    {batch : List (Nat × Record)} (hannals : m'.annals = m.annals ++ [(m.feed.cluster.now, deed)])
    (hbatch : Annals.batch (m.annals ++ [(m.feed.cluster.now, deed)]) = batch)
    (hnow : m.feed.cluster.now ≤ m'.feed.cluster.now) (hdue : m.loop.due ≤ m'.loop.due)
    (hread : ∀ x ∈ batch, x ∈ m.annals.batch ∨
      start + s.period ≤ m.feed.cluster.now ∧ x.1 = m.feed.cluster.now)
    (hspaced : Spaced s.period start m.feed.cluster.now batch m'.loop.phase)
    (hrested : ∀ d, deed = .pushed d → Rested s.period start m.annals m.feed.cluster.now d) :
    Paced s start m' := by
  have hbatch' : m'.annals.batch = batch := by rw [hannals, hbatch]
  rw [← hbatch'] at hread hspaced
  refine ⟨Nat.le_trans h.due hdue, fun x hx => ?_, hspaced.mono hnow, ?_⟩
  · rcases hread x hx with hold | ⟨hlate, hx⟩
    · exact (h.read x hold).imp_right (Nat.le_trans · hnow)
    · rw [hx]
      exact ⟨hlate, hnow⟩
  · intro before time d after hsplit
    rw [hannals] at hsplit
    rcases Annals.split_concat hsplit with ⟨rfl, heq⟩ | ⟨rest, hbefore⟩
    · obtain ⟨rfl, hdeed⟩ := Prod.mk.inj heq
      exact hrested d hdeed
    · exact h.rested before time d rest hbefore

/-- One more thing is done, by which nothing is read or pushed. -/
theorem Paced.note (h : Paced s start m) {m' : Shift σ Delayed} {deed : Deed}
    (hannals : m'.annals = m.annals ++ [(m.feed.cluster.now, deed)])
    (hbatch : Annals.batch (m.annals ++ [(m.feed.cluster.now, deed)]) = m.annals.batch)
    (hnone : deed.delivery? = none) (hnow : m.feed.cluster.now ≤ m'.feed.cluster.now)
    (hdue : m.loop.due ≤ m'.loop.due)
    (hspaced : Spaced s.period start m.feed.cluster.now m.annals.batch m'.loop.phase) :
    Paced s start m' := by
  refine h.deed hannals hbatch hnow hdue (fun x hx => .inl hx) hspaced fun d hd => ?_
  rw [hd] at hnone
  cases hnone

variable [LogStore σ]

/-! ## A lawful course -/

/-- What others do to the cluster is something that can happen to it. -/
def Occurrence.Lawful : Occurrence σ → Prop
  | .cluster change => ∃ a : Act, change = a.on
  | _ => True

namespace Cluster

variable {c : Cluster σ}

theorem on_poll {i : Nat} {p : Polling} {step : PollStep} {c' : Cluster σ}
    (hpoll : c.poll? i p = some (step, c')) : (Act.poll i p).on c = c' := by
  simp only [Act.on, hpoll]

/-- The clock does not go back. -/
theorem now_le_on [LawfulStore σ] (a : Act) (c : Cluster σ) : c.now ≤ (a.on c).now := by
  have hstands : ∀ a : Act, a.Of (fun _ => True) → c.now ≤ (a.on c).now :=
    fun a ha => Nat.le_of_eq (samePace_on ha c).now_eq.symm
  cases a with
  | pass timers memberships => exact Nat.le_add_right ..
  | outside use => exact Nat.le_of_eq (samePace_use use c).now_eq.symm
  | subscribe broker group topic => exact hstands (.subscribe broker group topic) trivial
  | poll i p => exact hstands (.poll i p) trivial
  | commit i offsets => exact hstands (.commit i offsets) trivial
  | close i => exact hstands (.close i) trivial

/-- A record that a poll hands out is in the store. -/
theorem Stocked.mem_records_of_poll? [RecordStore σ] (h : c.Stocked) (hc : StoreView.Sound c.store)
    {i : Nat} {p : Polling} {step : PollStep} {c' : Cluster σ} (hpoll : c.poll? i p = some (step, c'))
    {r : Record} (hr : r ∈ step.handed) : r ∈ records c'.store r.topic r.partition := by
  rcases poll?_cases hpoll with ⟨-, hnothing⟩ | ⟨rfl, hhanded, -⟩
  · rw [hnothing] at hr
    cases hr
  · have hmem : r ∈ Consumer.handed ((Cluster.turn i).on c).1 := by rwa [← hhanded]
    cases hk : c.consumer? i with
    | none =>
      rw [on_turn_none i hk] at hmem
      cases hmem
    | some k =>
      have hfound := (h.turn hc i).2 k hk r hmem
      have hsound := (steady_turn hc i).store.sound
      have htopic := (records_consecutive _ hsound k.topic r.partition).topic_of_mem hfound
      rw [htopic]
      exact hfound

end Cluster

/-- A step of the delayed loop does nothing to the cluster, or is a step of a poll. -/
theorem Delayed.Does.cluster {fired : Bool} {f f' : Feed σ} {due : Nat} {phase : DelayedPhase}
    {deeds : List Deed} {d' : Delayed} (h : Does s fired f due phase deeds d' f') :
    (f'.cluster = f.cluster ∧ ∀ time, (Annals.moment time deeds).reads = []) ∨
      ∃ p step, f.cluster.poll? s.place p = some (step, f'.cluster) ∧
        ∀ time, (Annals.moment time deeds).reads = step.handed.map (time, ·) := by
  cases h with
  | stop | tick | rest | push | lineUp | released | resume => exact .inl ⟨rfl, fun _ => rfl⟩
  | pollOn hpoll => exact .inr ⟨_, _, hpoll, fun _ => rfl⟩
  | @poll _ _ result _ hpoll =>
    refine .inr ⟨_, _, hpoll, fun _ => ?_⟩
    rcases result with e | _ | r <;> rfl

/-- No step of the delayed loop turns the clock back. -/
theorem Delayed.Does.now_le [LawfulStore σ] {fired : Bool} {f f' : Feed σ} {due : Nat}
    {phase : DelayedPhase} {deeds : List Deed} {d' : Delayed}
    (h : Does s fired f due phase deeds d' f') : f.cluster.now ≤ f'.cluster.now := by
  rcases h.cluster with ⟨hsame, -⟩ | ⟨p, step, hpoll, -⟩
  · rw [hsame]
  · rw [← Cluster.on_poll hpoll]
    exact Cluster.now_le_on ..

/-! ## What is read is in the store -/

section Supplied

variable [RecordStore σ]

/-- All that the loop has read is in the store. -/
structure Supplied (m : Shift σ Delayed) : Prop where
  store : Sound m.feed.cluster.store
  stocked : m.feed.cluster.Stocked
  reads : ∀ x ∈ m.annals.reads, x.2 ∈ records m.feed.cluster.store x.2.topic x.2.partition

/-- Whatever happens to the cluster, what has been read stays in the store. -/
theorem Supplied.act (h : Supplied m) (a : Act) {m' : Shift σ Delayed}
    (hcluster : m'.feed.cluster = a.on m.feed.cluster)
    (hreads : ∀ x ∈ m'.annals.reads,
      x ∈ m.annals.reads ∨ x.2 ∈ records m'.feed.cluster.store x.2.topic x.2.partition) :
    Supplied m' := by
  constructor
  · rw [hcluster]
    exact Cluster.sound_on h.store a
  · rw [hcluster]
    exact (h.stocked.on (i := 0) (p := 0) h.store a).1
  · intro x hx
    rcases hreads x hx with hold | hnew
    · rw [hcluster]
      exact Cluster.mem_records_on h.store a (h.reads x hold)
    · exact hnew

theorem Supplied.next (h : Supplied m) {o : Occurrence σ} (ho : o.Lawful) :
    Supplied (m.next (Delayed.watched s) o) := by
  cases o with
  | channel | fire => exact ⟨h.store, h.stocked, h.reads⟩
  | cluster change =>
    obtain ⟨a, rfl⟩ := ho
    exact h.act a rfl fun x hx => .inl hx
  | step =>
    rcases m.next_step_cases (Delayed.watched s) with hnext | ⟨d', f', hstep, hnext⟩ <;> rw [hnext]
    · exact h
    rcases (Delayed.does_of_step? hstep).cluster with ⟨hsame, hnone⟩ | ⟨p, step, hpoll, hhanded⟩
    · refine ⟨?_, ?_, fun x hx => ?_⟩
      · rw [hsame]
        exact h.store
      · rw [hsame]
        exact h.stocked
      · have hreads := hnone m.feed.cluster.now
        rw [Annals.reads_append] at hx
        rw [hsame]
        rcases List.mem_append.mp hx with hold | hnew
        · exact h.reads x hold
        · exact absurd (hreads ▸ hnew) List.not_mem_nil
    -- a step of a poll is what anyone could do to the cluster, and it hands out what is there
    · refine h.act (.poll s.place p) (Cluster.on_poll hpoll).symm fun x hx => ?_
      rw [Annals.reads_append] at hx
      refine (List.mem_append.mp hx).imp_right fun hnew => ?_
      have hreads := hhanded m.feed.cluster.now
      obtain ⟨r, hr, rfl⟩ := List.mem_map.mp (hreads ▸ hnew)
      exact h.stocked.mem_records_of_poll? h.store hpoll hr

end Supplied

/-! ## What every occurrence keeps -/

/-- A step of the loop keeps the pace. -/
theorem Paced.does [LawfulStore σ] (h : Paced s start m) {deeds : List Deed} {d' : Delayed}
    {f' : Feed σ} (hdoes : Delayed.Does s m.fired m.feed m.loop.due m.loop.phase deeds d' f') :
    Paced s start { m with
      loop := d', feed := f', annals := m.annals ++ .moment m.feed.cluster.now deeds } := by
  have hnow := hdoes.now_le
  obtain ⟨⟨due, phase⟩, f, fired, annals⟩ := m
  have hspaced := h.spaced
  cases hdoes with
  | stop => exact h.idle (List.append_nil _) (Nat.le_refl _) (Nat.le_refl _) trivial
  | tick hdue =>
    have hlate : start + s.period ≤ f.cluster.now := Nat.le_trans h.due hdue
    refine h.deed rfl (Annals.batch_concat ..) (Nat.le_refl _) (le_nextTick ..)
      (List.forall_mem_nil _) ⟨hlate, rfl, fun _ => List.forall_mem_nil _⟩ fun d hd => ?_
    cases hd
  | pollOn => exact h.idle (List.append_nil _) hnow (Nat.le_refl _) hspaced
  | @poll read _ result _ hpoll =>
    have hheld : ∀ r ∈ read, r ∈ (Annals.batch annals).map (·.2) := fun r hr => hspaced.2.1 ▸ hr
    rcases result with e | _ | r
    · exact h.note rfl (Annals.batch_concat ..) rfl hnow (Nat.le_refl _)
        ⟨hheld, hspaced.2.2⟩
    · exact h.note rfl (Annals.batch_concat ..) rfl hnow (Nat.le_refl _)
        ⟨hheld, hspaced.2.2⟩
    · refine h.deed rfl (Annals.batch_concat ..) hnow (Nat.le_refl _) (fun x hx => ?_)
        (hspaced.read (fun x hx => (h.read x hx).2) r) fun d hd => ?_
      · refine (List.mem_append.mp hx).imp_right fun hnew => ?_
        -- the loop drains only behind a tick, and no tick is due in the first period
        rw [List.mem_singleton.mp hnew]
        exact ⟨hspaced.1, rfl⟩
      · cases hd
  | rest hwake =>
    exact h.note rfl (Annals.batch_concat ..) rfl (Nat.le_refl _) (Nat.le_refl _)
      (hspaced.rest hwake fun x hx => (h.read x hx).1)
  | push =>
    refine h.deed rfl (Annals.batch_concat ..) (Nat.le_refl _) (Nat.le_refl _) (fun x hx => .inl hx)
      ⟨fun r hr => hspaced.1 r (List.mem_cons_of_mem _ hr), hspaced.2⟩ fun d hd => ?_
    cases hd
    exact hspaced.rested h.read s.consumer
  | lineUp => exact h.idle (List.append_nil _) (Nat.le_refl _) (Nat.le_refl _) hspaced
  | @released failure =>
    refine h.idle (List.append_nil _) (Nat.le_refl _) (Nat.le_refl _) ?_
    rcases failure with _ | e
    · trivial
    · cases e <;> trivial
  | resume => exact h.idle (List.append_nil _) (Nat.le_refl _) (Nat.le_refl _) trivial

theorem Paced.next [LawfulStore σ] (h : Paced s start m) {o : Occurrence σ} (ho : o.Lawful) :
    Paced s start (m.next (Delayed.watched s) o) := by
  cases o with
  | channel | fire => exact h.idle rfl (Nat.le_refl _) (Nat.le_refl _) h.spaced
  | cluster change =>
    obtain ⟨a, rfl⟩ := ho
    exact h.idle rfl (Cluster.now_le_on a _) (Nat.le_refl _) h.spaced
  | step =>
    rcases m.next_step_cases (Delayed.watched s) with hnext | ⟨d', f', hstep, hnext⟩ <;> rw [hnext]
    · exact h
    · exact h.does (Delayed.does_of_step? hstep)

/-- What is read from some moment on is read after it. -/
theorem reads_after [LawfulStore σ] {os : List (Occurrence σ)} (hos : ∀ o ∈ os, o.Lawful) :
    ∀ x ∈ (m.after (Delayed.watched s) os).annals.reads,
      x ∈ m.annals.reads ∨ m.feed.cluster.now ≤ x.1 := by
  have hall : m.feed.cluster.now ≤ (m.after (Delayed.watched s) os).feed.cluster.now ∧
      ∀ x ∈ (m.after (Delayed.watched s) os).annals.reads,
        x ∈ m.annals.reads ∨ m.feed.cluster.now ≤ x.1 := by
    refine Shift.after_invariant (I := fun m' => m.feed.cluster.now ≤ m'.feed.cluster.now ∧
      ∀ x ∈ m'.annals.reads, x ∈ m.annals.reads ∨ m.feed.cluster.now ≤ x.1)
      os (fun m' o ho hm' => ?_) ⟨Nat.le_refl _, fun x hx => .inl hx⟩
    obtain ⟨hnow, hreads⟩ := hm'
    have hlawful := hos o ho
    cases o with
    | channel | fire => exact ⟨hnow, hreads⟩
    | cluster change =>
      obtain ⟨a, rfl⟩ := hlawful
      exact ⟨Nat.le_trans hnow (Cluster.now_le_on a _), hreads⟩
    | step =>
      rcases m'.next_step_cases (Delayed.watched s) with hnext | ⟨d', f', hstep, hnext⟩ <;> rw [hnext]
      · exact ⟨hnow, hreads⟩
      refine ⟨Nat.le_trans hnow (Delayed.does_of_step? hstep).now_le, fun x hx => ?_⟩
      rw [Annals.reads_append] at hx
      rcases List.mem_append.mp hx with hold | hnew
      · exact hreads x hold
      · rw [Annals.time_of_mem_reads hnew]
        exact .inr hnow
  exact hall.2

/-! ## How long records wait -/

/-- The delayed loop has begun at time `c.now`, and a record is pushed. It has been read a period
after the start or later. If at some moment of the course it was not in the store yet, then it has
been read since; and a period has passed since that moment, unless the record is alone in its
batch. -/
theorem Delayed.waits_unless_alone [RecordStore σ] {c₀ c : Cluster σ} (h : c₀.Idle) {acts : List Act}
    (hc : c₀.after acts = c) (s : IntakeSettings) (channel : Channel) (fired : Bool)
    {os : List (Occurrence σ)} (hos : ∀ o ∈ os, o.Lawful) {before after : Annals} {time : Nat}
    {d : Delivery} :
    let m : Shift σ Delayed := { loop := .start c.now s.period, feed := ⟨c, channel⟩, fired }
    (m.after (Delayed.watched s) os).annals = before ++ (time, .pushed d) :: after →
      ∃ read, (read, d.record) ∈ before.batch ∧ c.now + s.period ≤ read ∧ read ≤ time ∧
        ∀ earlier later, os = earlier ++ later →
          let mid := m.after (Delayed.watched s) earlier
          d.record ∉ records mid.feed.cluster.store d.record.topic d.record.partition →
            mid.feed.cluster.now ≤ read ∧
              (mid.feed.cluster.now + s.period ≤ time ∨ before.batch = [(read, d.record)]) := by
  intro m hannals
  subst hc
  have hsupplied : Supplied m := ⟨(h.linked_after acts).store, h.stocked_after acts, nofun⟩
  have hpaced : Paced s (c₀.after acts).now m := by
    refine ⟨Nat.le_refl _, nofun, trivial, fun before time d after heq => ?_⟩
    exact absurd heq.symm (List.append_ne_nil_of_right_ne_nil _ (List.cons_ne_nil _ _))
  obtain ⟨read, hread, hlate, hle, hmany⟩ :=
    (Shift.after_invariant os (fun m o ho hm => hm.next (hos o ho)) hpaced).rested before time d after
      hannals
  refine ⟨read, hread, hlate, hle, fun earlier later hsplit => ?_⟩
  intro mid hnew
  subst hsplit
  obtain ⟨hearlier, hlater⟩ := List.forall_mem_append.mp hos
  have hmid : Supplied mid :=
    Shift.after_invariant earlier (fun m o ho hm => hm.next (hearlier o ho)) hsupplied
  -- what has been read before that moment was in the store then
  have hsince : mid.feed.cluster.now ≤ read := by
    have hin : (read, d.record) ∈ (m.after (Delayed.watched s) (earlier ++ later)).annals.reads := by
      rw [hannals, Annals.reads_append]
      exact List.mem_append_left _ (before.batch_subset_reads _ hread)
    rw [Shift.after_append] at hin
    refine (reads_after hlater _ hin).resolve_left fun hold => hnew ?_
    exact hmid.reads _ hold
  refine ⟨hsince, ?_⟩
  by_cases htwo : 2 ≤ before.batch.length
  · have hrested := hmany htwo
    exact .inl (by omega)
  -- a batch of one record is that record
  · right
    have hpos := List.length_pos_of_mem hread
    obtain ⟨x, hone⟩ : ∃ x, before.batch = [x] := List.length_eq_one_iff.mp (by omega)
    rw [hone] at hread ⊢
    rw [List.mem_singleton.mp hread]

/-- A topic of one partition and its only consumer. -/
def oneReader : List Act := [.outside (.createTopic "t" 1), .subscribe 0 "g" "t"]

/-- A delayed loop with a period of one second that has just begun. -/
def oneReading : Shift MemoryLog Delayed where
  loop := .start (Cluster.deserted.after oneReader).now 1000
  feed := ⟨Cluster.deserted.after oneReader, { capacity := 4 }⟩

/-- The settings of that loop. -/
def everySecond : IntakeSettings where
  place := 0
  consumer := 1
  pollTimeout := 0
  errorPause := 1000
  period := 1000

/-- Others act, or the loop takes a step. -/
def occurring : Option Act → Occurrence MemoryLog
  | some a => .cluster a.on
  | none => .step

theorem lawful_occurring (course : List (Option Act)) : ∀ o ∈ course.map occurring, o.Lawful := by
  intro o ho
  obtain ⟨act, -, rfl⟩ := List.mem_map.mp ho
  cases act with
  | none => trivial
  | some a => exact ⟨a, rfl⟩

/-- Nothing is done for almost a period. -/
def quiet : List (Option Act) := [some (.pass 990 0)]

/-- A record is appended. -/
def appending : Option Act := some (.outside (.append "t" 0 "k" ⟨#[97]⟩))

/-- What is noted at some place, as far as it is a push, with the place of the record. -/
def Annals.pushAt? (h : Annals) (n : Nat) : Option (Nat × String × Int × Int) :=
  h[n]?.bind fun deed => deed.2.delivery?.map fun d =>
    (deed.1, d.record.topic, d.record.partition, d.record.offset)

/-- The annals around that push. A store in which the partition is empty does not have the record. -/
theorem Annals.split_of_pushAt? [RecordStore σ] {h : Annals} {n time : Nat} {topic : String}
    {partition offset : Int} (hpush : h.pushAt? n = some (time, topic, partition, offset))
    {store : σ} (hempty : (RecordStore.records store topic partition).length = 0) : ∃ d : Delivery,
      h = h.take n ++ (time, .pushed d) :: h.drop (n + 1) ∧
        d.record ∉ RecordStore.records store d.record.topic d.record.partition := by
  obtain ⟨⟨time', deed⟩, hdeed, hmap⟩ := Option.bind_eq_some_iff.mp hpush
  obtain ⟨d, hd, heq⟩ := Option.map_eq_some_iff.mp hmap
  obtain ⟨rfl, rfl, rfl, rfl⟩ : time' = time ∧ d.record.topic = topic ∧
    d.record.partition = partition ∧ d.record.offset = offset := by simpa using heq
  obtain rfl : deed = .pushed d := by
    cases deed with
    | pushed d' => exact congrArg _ (Option.some.inj hd)
    | ticked | polled | rested => cases hd
  obtain ⟨hlt, hget⟩ := List.getElem?_eq_some_iff.mp hdeed
  refine ⟨d, ?_, ?_⟩
  · rw [← hget, List.getElem_cons_drop, List.take_append_drop]
  · rw [List.length_eq_zero_iff.mp hempty]
    exact List.not_mem_nil

/-- Two records are appended shortly before a tick. The first one is released a period later, with the
second one. -/
theorem Delayed.waits_unless_alone_together :
    let later := [appending, appending, some (.pass 10 0)] ++ List.replicate 4 none ++
      [some (.pass 1000 0)] ++ List.replicate 5 none
    let mid := oneReading.after (Delayed.watched everySecond) (quiet.map occurring)
    ∃ before d after, (oneReading.after (Delayed.watched everySecond)
        ((quiet ++ later).map occurring)).annals = before ++ (2000, .pushed d) :: after ∧
      d.record ∉ records mid.feed.cluster.store d.record.topic d.record.partition ∧
      mid.feed.cluster.now + everySecond.period ≤ 2000 := by
  intro later mid
  have hpush : (oneReading.after (Delayed.watched everySecond)
      ((quiet ++ later).map occurring)).annals.pushAt? 5 = some (2000, "t", 0, 0) := by decide +kernel
  have hbatch : (Annals.batch ((oneReading.after (Delayed.watched everySecond)
      ((quiet ++ later).map occurring)).annals.take 5)).length = 2 := by decide +kernel
  have hempty : (records mid.feed.cluster.store "t" 0).length = 0 := by decide +kernel
  obtain ⟨d, hsplit, hnew⟩ := Annals.split_of_pushAt? hpush hempty
  obtain ⟨read, hread, -, -, hwaits⟩ := Delayed.waits_unless_alone Cluster.idle_deserted rfl everySecond
    _ _ (lawful_occurring (quiet ++ later)) hsplit
  obtain ⟨-, hwaited | halone⟩ := hwaits _ _ List.map_append hnew
  · exact ⟨_, d, _, hsplit, hnew, hwaited⟩
  · rw [halone] at hbatch
    cases hbatch

/-- A record is appended shortly before a tick. It is released with that tick, long before a period
has passed. -/
theorem Delayed.pushed_at_once :
    let later := [appending, some (.pass 10 0)] ++ List.replicate 5 none
    let mid := oneReading.after (Delayed.watched everySecond) (quiet.map occurring)
    ∃ before d after, (oneReading.after (Delayed.watched everySecond)
        ((quiet ++ later).map occurring)).annals = before ++ (1000, .pushed d) :: after ∧
      d.record ∉ records mid.feed.cluster.store d.record.topic d.record.partition ∧
      mid.feed.cluster.now = 990 ∧ ¬ mid.feed.cluster.now + everySecond.period ≤ 1000 := by
  intro later mid
  have hpush : (oneReading.after (Delayed.watched everySecond)
      ((quiet ++ later).map occurring)).annals.pushAt? 3 = some (1000, "t", 0, 0) := by decide +kernel
  have hempty : (records mid.feed.cluster.store "t" 0).length = 0 := by decide +kernel
  obtain ⟨d, hsplit, hnew⟩ := Annals.split_of_pushAt? hpush hempty
  exact ⟨_, d, _, hsplit, hnew, by decide +kernel, by decide +kernel⟩

end WorkQueue
