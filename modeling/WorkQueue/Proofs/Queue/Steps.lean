import WorkQueue.Proofs.Execution.Steps
import WorkQueue.Proofs.Queue.Lanes

/-!
# What happens to a run and its world

Every step of a process does two things: it changes the world by one of the ways known to keep it
sound, and it changes the run. The world then carries the run along, since nothing but polling and
forgetting touches what a run relies on.

## Main definitions

* `Scene.Sound`: what holds of a queue and one of its runs
* `Scene.Goes`: what a step leaves behind

## Main statements

* `Scene.Sound.commitPass`, `.accept`, `.stopReceiving`, `.spawn`, `.conclude`
-/

namespace WorkQueue

open StoreView

namespace Scene

variable {σ : Type}

/-- The world of a scene. -/
def world (s : Scene σ) (outcomes : List Resolution) : World σ :=
  ⟨s.cluster, s.queue.ledger, outcomes⟩

variable [LogStore σ] [LawfulStore σ]

/-- What holds of a queue of the group and one of its runs. -/
structure Sound (group : String) (outcomes : List Resolution) (s : Scene σ) : Prop where
  group_eq : s.queue.config.groupId = group
  world : World.Sound group (s.world outcomes)
  run : s.run.Sound group (s.world outcomes)

/-- What a step leaves behind: a sound scene, and a world that others can go on with. A consumer of
the run is one that it had before, or a new one. -/
structure Goes (group : String) (outcomes outcomes' : List Resolution) (s s' : Scene σ) : Prop where
  sound : s'.Sound group outcomes'
  advances : (s.world outcomes).Advances s.run.Owns (s'.world outcomes')
  lane : ∀ source, (s'.run.lane source).consumer = (s.run.lane source).consumer ∧
      (s'.run.lane source).place = (s.run.lane source).place ∨
    s.cluster.consumers.size ≤ (s'.run.lane source).place

/-- A step that changes no settings. -/
structure GoesOn (group : String) (outcomes outcomes' : List Resolution) (s s' : Scene σ) :
    Prop where
  sound : s'.Sound group outcomes'
  advances : (s.world outcomes).Advances s.run.Owns (s'.world outcomes')
  lane : ∀ source, (s'.run.lane source).consumer = (s.run.lane source).consumer ∧
      (s'.run.lane source).place = (s.run.lane source).place

variable {group : String} {outcomes outcomes' outcomes'' : List Resolution} {s s' s'' : Scene σ}

theorem GoesOn.goes (h : GoesOn group outcomes outcomes' s s') :
    Goes group outcomes outcomes' s s' :=
  ⟨h.sound, h.advances, fun source => .inl (h.lane source)⟩

theorem GoesOn.owns (h : GoesOn group outcomes outcomes' s s') (i : Nat) :
    s'.run.Owns i ↔ s.run.Owns i := by
  unfold Run.Owns
  constructor
  · rintro ⟨source, hused, rfl⟩
    obtain ⟨hconsumer, hplace⟩ := h.lane source
    exact ⟨source, hconsumer ▸ hused, hplace.symm⟩
  · rintro ⟨source, hused, rfl⟩
    obtain ⟨hconsumer, hplace⟩ := h.lane source
    exact ⟨source, hconsumer.symm ▸ hused, hplace⟩

theorem GoesOn.trans (h : GoesOn group outcomes outcomes' s s')
    (h' : GoesOn group outcomes' outcomes'' s' s'') : GoesOn group outcomes outcomes'' s s'' where
  sound := h'.sound
  advances := h.advances.trans (h'.advances.weaken fun i => (h.owns i).mp)
  lane source :=
    ⟨(h'.lane source).1.trans (h.lane source).1, (h'.lane source).2.trans (h.lane source).2⟩

namespace Sound

theorem refl (h : s.Sound group outcomes) : GoesOn group outcomes outcomes s s :=
  ⟨h, .refl _ _, fun _ => ⟨rfl, rfl⟩⟩

/-- The world changes and the run goes along. -/
theorem of_world (h : s.Sound group outcomes) (hworld : World.Sound group (s'.world outcomes'))
    (hadvances : (s.world outcomes).Advances (fun _ => False) (s'.world outcomes'))
    (hrun : s'.run = s.run) (hconfig : s'.queue.config = s.queue.config) :
    GoesOn group outcomes outcomes' s s' where
  sound := {
    group_eq := hconfig ▸ h.group_eq
    world := hworld
    run := hrun ▸ h.run.mono hadvances fun _ _ _ => id }
  advances := hadvances.weaken fun _ => False.elim
  lane source := by
    rw [hrun]
    exact ⟨rfl, rfl⟩

/-- Only the run changes. -/
theorem of_run (h : s.Sound group outcomes) {r : Run} (hr : r.Sound group (s.world outcomes))
    (hlane : ∀ source, (r.lane source).consumer = (s.run.lane source).consumer ∧
      (r.lane source).place = (s.run.lane source).place) :
    GoesOn group outcomes outcomes s { s with run := r } :=
  ⟨⟨h.group_eq, h.world, hr⟩, .refl _ _, hlane⟩

end Sound

end Scene

/-! ## Changes of a run -/

namespace Run.Sound

variable {σ : Type} {group : String} {w : World σ} {r r' : Run}

/-- Lanes and channel stay as they are. -/
theorem update (h : r.Sound group w) (hlane : ∀ source, r'.lane source = r.lane source)
    (hchannel : r'.channel = r.channel)
    (hclosed : r'.dequeue = .finishing ∨ r'.dequeue = .closing → r.channel.closed = true)
    (htask : ∀ t ∈ r'.tasks, t.Sound w) : r'.Sound group w where
  lane source := by
    rw [hlane, hchannel]
    exact h.lane source
  apart := by
    rw [hlane, hlane]
    exact h.apart
  sender d hd := by
    rw [hchannel] at hd
    obtain ⟨hne, source, hsource⟩ := h.sender d hd
    exact ⟨hne, source, by rw [hlane, hsource]⟩
  drained := by
    rw [hchannel]
    exact h.drained
  closed := by
    rw [hchannel]
    exact hclosed
  task := htask

/-- The channel goes away. -/
theorem close (h : r.Sound group w) (hlane : ∀ source, r'.lane source = r.lane source)
    (hchannel : r'.channel = r.channel.close) (htask : ∀ t ∈ r'.tasks, t.Sound w) :
    r'.Sound group w where
  lane source := by
    rw [hlane, hchannel]
    rcases h.lane source with hunused | ⟨hused, k, hk, hid, hgroup, -⟩
    · exact .inl hunused
    · exact .inr ⟨hused, k, hk, hid, hgroup, fun hopen => by cases hopen⟩
  apart := by
    rw [hlane, hlane]
    exact h.apart
  sender d hd := by
    rw [hchannel] at hd
    cases hd
  drained _ := by
    rw [hchannel]
    rfl
  closed _ := by
    rw [hchannel]
    rfl
  task := htask

/-- A channel that still holds a delivery is open. -/
theorem open_of_buffer (h : r.Sound group w) {d : Delivery} {rest : List Delivery}
    (hbuffer : r.channel.buffer = d :: rest) : r.channel.closed = false := by
  cases hclosed : r.channel.closed with
  | false => rfl
  | true =>
    have hnil := h.drained hclosed
    rw [hbuffer] at hnil
    cases hnil

/-- The first delivery is taken off the channel, and its place is covered from then on. -/
theorem receive {w' : World σ} (h : r.Sound group w) {d : Delivery} {rest : List Delivery}
    (hbuffer : r.channel.buffer = d :: rest) (hadvances : w.Advances (fun _ => False) w')
    (hcover : ∀ i k, w.cluster.consumer? i = some k → k.id = d.consumer →
      w'.cover k.id k.topic d.record.partition d.record.offset)
    (hlane : ∀ source, r'.lane source = r.lane source)
    (hchannel : r'.channel = { r.channel with buffer := rest })
    (hclosed : r'.dequeue = .finishing ∨ r'.dequeue = .closing → r.channel.closed = true)
    (htask : ∀ t ∈ r'.tasks, t.Sound w') : r'.Sound group w' where
  lane source := by
    have hself := h.lane source
    rw [hlane, hchannel]
    generalize r.lane source = l at hself ⊢
    by_cases hd : d.consumer = l.consumer
    · rcases hself with hunused | ⟨hused, k, hk, hid, hgroup, hflows⟩
      · exact .inl hunused
      · obtain ⟨k', hk', hsame, hfetch⟩ := hadvances.same _ k hk
        refine .inr ⟨hused, k', hk', hsame.id_eq.trans hid, hsame.group_eq.trans hgroup,
          fun hopen => ?_⟩
        -- the record is the first one on the lane of its consumer
        have hrecords : r.channel.recordsOf k.id =
            d.record :: Channel.recordsOf { r.channel with buffer := rest } k.id := by
          simp [Channel.recordsOf, hbuffer, hd, hid]
        have hold := hflows hopen
        rw [hrecords] at hold
        rw [hsame.id_eq, hsame.topic_eq]
        exact (hold.arrive (hadvances.cover _ k hk id)
          (hcover _ k hk (hid.trans hd.symm))).mono (fun _ _ => id) hsame.topic_eq (hfetch id)
    · refine (hself.mono hadvances fun _ _ => id).congr_channel rfl fun _ => ?_
      simp [Channel.recordsOf, hbuffer, hd]
  apart := by
    rw [hlane, hlane]
    exact h.apart
  sender d' hd' := by
    rw [hchannel] at hd'
    obtain ⟨hne, source, hsource⟩ := h.sender d' (hbuffer ▸ List.mem_cons_of_mem _ hd')
    exact ⟨hne, source, by rw [hlane, hsource]⟩
  drained hclosed' := by
    rw [hchannel] at hclosed'
    exact absurd ((h.open_of_buffer hbuffer).symm.trans hclosed') Bool.false_ne_true
  closed := by
    rw [hchannel]
    exact hclosed
  task := htask

end Run.Sound

namespace Scene

variable {σ : Type} [LogStore σ] [LawfulStore σ] {group : String}
  {outcomes outcomes' : List Resolution} {s s' : Scene σ}

/-- The loop that takes deliveries goes on to another place. -/
theorem Sound.dequeueAt (h : s.Sound group outcomes) (place : Dequeue)
    (hclosed : place = .finishing ∨ place = .closing → s.run.channel.closed = true) :
    GoesOn group outcomes outcomes s { s with run := { s.run with dequeue := place } } :=
  h.of_run (h.run.update (fun _ => rfl) rfl hclosed h.run.task) fun _ => ⟨rfl, rfl⟩

/-! ## Commits -/

/-- Telling the recorder changes nothing that matters. -/
theorem Sound.report (h : s.Sound group outcomes) (r : Report) :
    GoesOn group outcomes outcomes s { s with queue := s.queue.report r } := by
  have hconfig : (s.queue.report r).config = s.queue.config := by
    unfold Queue.report
    split <;> rfl
  have hledger : (s.queue.report r).ledger = s.queue.ledger := by
    unfold Queue.report
    split <;> rfl
  have hworld : Scene.world { s with queue := s.queue.report r } outcomes = s.world outcomes := by
    unfold Scene.world
    rw [hledger]
  exact h.of_world (hworld ▸ h.world) (hworld ▸ .refl _ _) rfl hconfig

/-- Committing the offsets of one consumer. -/
theorem Sound.commitFor (h : s.Sound group outcomes) (offsets : Nat × List (Int × Int))
    (hoffsets : ∀ p o, (p, o) ∈ offsets.2 → ∃ i k, s.cluster.consumer? i = some k ∧
      k.id = offsets.1 ∧ (Resolved outcomes k.topic).UpTo p (o + 1)) :
    GoesOn group outcomes outcomes s (s.commitFor offsets) ∧
      (s.commitFor offsets).run = s.run ∧
      (s.commitFor offsets).cluster.consumers = s.cluster.consumers := by
  unfold Scene.commitFor
  cases hsettings : s.run.consumer? offsets.1 with
  | none => exact ⟨h.refl, rfl, rfl⟩
  | some settings =>
    -- the settings are those of a lane, so the commit goes by the consumer of that number
    obtain ⟨source, hplace, hconsumer⟩ := Run.lane_of_consumer? hsettings
    have hcommit := h.world.commit settings.place offsets.2 fun k hk p o ho => by
      obtain ⟨i, k', hk', hid, hupTo⟩ := hoffsets p o ho
      have hcluster := h.world.settled.cluster
      rcases h.run.lane source with ⟨hzero, -⟩ | ⟨-, l, hl, hid', -⟩
      -- no consumer has number zero
      · have hpos := hcluster.id_pos i k' hk'
        rw [hid, ← hconsumer, hzero] at hpos
        cases hpos
      · rw [hplace] at hl
        obtain rfl := Option.some.inj (hk.symm.trans hl)
        obtain rfl := hcluster.id_inj i settings.place k' k hk' hk (by rw [hid, hid', hconsumer])
        obtain rfl := Option.some.inj (hk.symm.trans hk')
        exact hupTo
    rcases hon : (Cluster.commit settings.place offsets.2).on s.cluster with ⟨result, cluster⟩
    have hafter : ((Cluster.commit settings.place offsets.2).on (s.world outcomes).cluster).2 =
        cluster := by
      show ((Cluster.commit settings.place offsets.2).on s.cluster).2 = cluster
      rw [hon]
    rw [hafter] at hcommit
    obtain ⟨hworld, hadvances, hconsumers⟩ := hcommit
    simp only [hon]
    have hgoes : GoesOn group outcomes outcomes s { s with cluster } :=
      h.of_world hworld hadvances rfl rfl
    cases result with
    | error e => exact ⟨hgoes, rfl, hconsumers⟩
    | ok _ => exact ⟨hgoes.trans (hgoes.sound.report _), rfl, hconsumers⟩

/-- Committing what one consumer after another may commit. A commit keeps the consumers, so what is
resolved for the last one was so at the beginning. -/
theorem Sound.commitAll (groups : List (Nat × List (Int × Int))) (h : s.Sound group outcomes)
    (hgroups : ∀ g ∈ groups, ∀ p o, (p, o) ∈ g.2 → ∃ i k, s.cluster.consumer? i = some k ∧
      k.id = g.1 ∧ (Resolved outcomes k.topic).UpTo p (o + 1)) :
    GoesOn group outcomes outcomes s (groups.foldl Scene.commitFor s) ∧
      (groups.foldl Scene.commitFor s).run = s.run := by
  induction groups generalizing s with
  | nil => exact ⟨h.refl, rfl⟩
  | cons g rest ih =>
    obtain ⟨hgoes, hrun, hkept⟩ := h.commitFor g (hgroups g List.mem_cons_self)
    have hrest : ∀ g' ∈ rest, ∀ p o, (p, o) ∈ g'.2 → ∃ i k,
        (s.commitFor g).cluster.consumer? i = some k ∧ k.id = g'.1 ∧
          (Resolved outcomes k.topic).UpTo p (o + 1) := by
      intro g' hg' p o ho
      obtain ⟨i, k, hk, hid⟩ := hgroups g' (List.mem_cons_of_mem _ hg') p o ho
      refine ⟨i, k, ?_, hid⟩
      unfold Cluster.consumer? at hk ⊢
      rw [hkept]
      exact hk
    obtain ⟨hgoes', hrun'⟩ := ih hgoes.sound hrest
    exact ⟨hgoes.trans hgoes', hrun'.trans hrun⟩

/-- Releasing what may be released, and committing it. -/
theorem Sound.commitPass (h : s.Sound group outcomes) :
    GoesOn group outcomes outcomes s s.commitPass ∧ s.commitPass.run = s.run := by
  unfold Scene.commitPass
  rcases hcollect : s.queue.ledger.collect with ⟨plan, ledger⟩
  dsimp only
  split
  · exact ⟨h.refl, rfl⟩
  · have hplan : (s.world outcomes).ledger.collect = (plan, ledger) := hcollect
    obtain ⟨hworld, hadvances⟩ := h.world.collect
    rw [hplan] at hworld hadvances
    have hcollected : GoesOn group outcomes outcomes s
        { s with queue := { s.queue with ledger } } := h.of_world hworld hadvances rfl rfl
    have hreported : ∀ g ∈ plan.offsets, ∀ p o, (p, o) ∈ g.2 → ∃ i k,
        s.cluster.consumer? i = some k ∧ k.id = g.1 ∧
          (Resolved outcomes k.topic).UpTo p (o + 1) := by
      intro g hg p o ho
      have hreport : ((⟨g.1, p⟩ : LedgerKey), o) ∈ (s.world outcomes).ledger.collect.1.reports := by
        rw [hplan]
        exact List.mem_flatMap.mpr ⟨g, hg, List.mem_map.mpr ⟨(p, o), ho, rfl⟩⟩
      exact h.world.resolved_of_mem_reports hreport
    obtain ⟨hgoes, hrun⟩ := hcollected.sound.commitAll plan.offsets hreported
    exact ⟨hcollected.trans hgoes, hrun⟩

/-! ## Taking deliveries -/

/-- A delivery is tracked, or refused because the ledger is past it. -/
theorem Sound.accept (h : s.Sound group outcomes) {d : Delivery} {rest : List Delivery}
    (hbuffer : s.run.channel.buffer = d :: rest) :
    GoesOn group outcomes outcomes s
      (Scene.accept { s with run :=
        { s.run with channel := { s.run.channel with buffer := rest } } } d) := by
  obtain ⟨hne, source, hsource⟩ := h.run.sender d (hbuffer ▸ List.mem_cons_self)
  have hopen := h.run.open_of_buffer hbuffer
  rcases h.run.lane source with ⟨hzero, -⟩ | ⟨-, k, hk, hid, -, hflows⟩
  · exact absurd (hsource.symm.trans hzero) hne
  have hrecords : s.run.channel.recordsOf k.id =
      d.record :: Channel.recordsOf { s.run.channel with buffer := rest } k.id := by
    simp [Channel.recordsOf, hbuffer, hid, hsource]
  have harriving := (hflows hopen).arriving
  rw [hrecords] at harriving
  -- the consumer is the only one with its number
  have honly : ∀ i k', s.cluster.consumer? i = some k' → k'.id = d.consumer → k' = k := by
    intro i k' hk' hid'
    obtain rfl := h.world.settled.cluster.id_inj i _ k' k hk' hk (by rw [hid', hid, hsource])
    exact Option.some.inj (hk'.symm.trans hk)
  have hconsumer : d.consumer = k.id := by rw [hid, hsource]
  unfold Scene.accept
  dsimp only
  rw [hconsumer]
  rcases h.world.arrive hk harriving.1 harriving.2.1 with
    ⟨e, happend, hcover⟩ | ⟨entry, ledger, happend, hworld, hadvances, hcover⟩
  · rw [show s.queue.ledger.append k.id d.record = .error e from happend]
    refine h.of_run ?_ fun _ => ⟨rfl, rfl⟩
    refine h.run.receive hbuffer (.refl _ _) (fun i k' hk' hid' => ?_) (fun _ => rfl) rfl ?_
      h.run.task
    · rw [honly i k' hk' hid']
      exact hcover
    · exact h.run.closed
  · rw [show s.queue.ledger.append k.id d.record = .ok (entry, ledger) from happend]
    refine ⟨⟨h.group_eq, hworld, ?_⟩, hadvances.weaken fun _ => False.elim, fun _ => ⟨rfl, rfl⟩⟩
    refine h.run.receive hbuffer hadvances (fun i k' hk' hid' => ?_) (fun _ => rfl) rfl ?_
      fun t ht => (h.run.task t ht).mono hadvances
    · rw [honly i k' hk' hid']
      exact hcover
    · rintro (hend | hend) <;> cases hend

/-- The receiver goes away. -/
theorem Sound.stopReceiving (h : s.Sound group outcomes) :
    GoesOn group outcomes outcomes s s.stopReceiving :=
  h.of_run (h.run.close (fun _ => rfl) rfl h.run.task) fun _ => ⟨rfl, rfl⟩

/-- An entry that waits for a permit is canceled. -/
theorem Sound.cancelEntry (h : s.Sound group outcomes) (entry : Nat) :
    GoesOn group outcomes outcomes s { s with queue :=
      { s.queue with ledger := (s.queue.ledger.transition entry .canceled).2 } } := by
  obtain ⟨hworld, hadvances⟩ := h.world.transition [] entry .canceled fun hstate => by cases hstate
  rw [List.append_nil] at hworld hadvances
  exact h.of_world hworld hadvances rfl rfl

/-- An execution is begun. -/
theorem Sound.spawn (h : s.Sound group outcomes) {entry : Nat} {e : Entry}
    (he : s.queue.ledger.entry? entry = some e) :
    GoesOn group outcomes outcomes s (s.spawn entry e.record e.state) := by
  refine h.of_run (h.run.update (fun _ => rfl) rfl ?_ fun t ht => ?_) fun _ => ⟨rfl, rfl⟩
  · rintro (hend | hend) <;> cases hend
  · rcases List.mem_append.mp ht with hold | hnew
    · exact h.run.task t hold
    · rw [List.mem_singleton.mp hnew]
      exact ⟨e, he, rfl, h.world.resolved entry e he⟩

/-! ## The beginning and the end of a run -/

/-- A consumer leaves its group. -/
theorem Sound.close (h : s.Sound group outcomes) (place : Nat) :
    GoesOn group outcomes outcomes s { s with cluster := s.cluster.close place } := by
  obtain ⟨hworld, hadvances⟩ :=
    h.world.steady (Cluster.steady_close h.world.settled.cluster.store place)
  exact h.of_world hworld hadvances rfl rfl

/-- The ledger forgets a consumer of a run whose channel is closed. -/
theorem Sound.forget (h : s.Sound group outcomes) (hclosed : s.run.channel.closed = true)
    (source : Source) :
    GoesOn group outcomes outcomes s { s with queue :=
      { s.queue with ledger := (s.queue.ledger.forget (s.run.lane source).consumer).2 } } := by
  obtain ⟨hworld, hadvances⟩ := h.world.forget (s.run.lane source).consumer
  refine ⟨⟨h.group_eq, hworld, ?_⟩, hadvances.weaken ?_, fun _ => ⟨rfl, rfl⟩⟩
  -- nothing arrives any more, so nothing relies on what was forgotten
  · apply h.run.mono hadvances
    intro hopen
    rw [hclosed] at hopen
    cases hopen
  · rintro i ⟨k, hk, hid⟩
    have hcluster := h.world.settled.cluster
    rcases h.run.lane source with ⟨hzero, -⟩ | ⟨hused, l, hl, hid', -⟩
    · have hpos := hcluster.id_pos i k hk
      rw [hid, hzero] at hpos
      cases hpos
    · exact ⟨source, hused, hcluster.id_inj _ i l k hl hk (hid'.trans hid.symm)⟩

/-- The end of a run. -/
theorem Sound.conclude (h : s.Sound group outcomes) (hclosed : s.run.channel.closed = true) :
    GoesOn group outcomes outcomes s s.conclude := by
  obtain ⟨hpass, hrun⟩ := h.commitPass
  have hleft := (hpass.sound.close s.commitPass.run.primary.place)
  have hleft' := hleft.sound.close s.commitPass.run.delayed.place
  have hclosed' : s.commitPass.run.channel.closed = true := by
    rw [hrun]
    exact hclosed
  have hforgot := hleft'.sound.forget hclosed' .primary
  have hforgot' := hforgot.sound.forget hclosed' .delayed
  have hended := hforgot'.sound.dequeueAt (.ended .stopped) fun _ => hclosed'
  exact ((((hpass.trans hleft).trans hleft').trans hforgot).trans hforgot').trans hended

end Scene

end WorkQueue
