import WorkQueue.Proofs.Intake.Steps
import WorkQueue.Proofs.Queue.World
import WorkQueue.Queue.Step

/-!
# The lanes of a run

A run reads two topics, and each record comes down a lane of its own: from the buffer of the
consumer through its loop into the channel, and from there into the ledger. A lane is sound if the
records on it are backed. A loop that has stopped reads no more, so what it and its consumer still
hold is of no interest; and once the channel is closed nothing arrives any more.

Both loops move records in the same three ways, which are all that matters for a lane: they poll,
they push a record into the channel, or they do neither.

## Main definitions

* `Lane`, `Run.lane`: what stands between a consumer and the ledger
* `Lane.Sound`, `Run.Sound`: what holds of it
* `IntakeMove`: what a step of a loop does

## Main statements

* `Primary.Does.move`, `Delayed.Does.move`: the loops do nothing else
* `Run.Sound.mono`: a run that does nothing stays sound
* `Run.Sound.intake`: a step of a loop keeps its run sound
-/

namespace WorkQueue

open StoreView

/-! ## Lanes -/

/-- The intake loop of a consumer. -/
structure Lane where
  place : Nat
  consumer : Nat
  /-- Records that the loop has polled and not handed over. -/
  held : List Record
  stopped : Bool

/-- Records that the loop has polled and not handed over. -/
def Primary.held : Primary → List Record
  | pushing r => [r]
  | _ => []

/-- Records that the loop has polled and not handed over. -/
def DelayedPhase.held : DelayedPhase → List Record
  | draining batch _ => batch
  | spacing batch r _ => batch ++ [r]
  | releasing batch _ => batch
  | _ => []

/-- The lane of a source. -/
def Run.lane (r : Run) : Source → Lane
  | .primary => ⟨r.primary.place, r.primary.consumer, r.primaryLoop.held, r.primaryLoop.hasStopped⟩
  | .delayed =>
    ⟨r.delayed.place, r.delayed.consumer, r.delayedLoop.phase.held, r.delayedLoop.hasStopped⟩

/-- The records of a consumer in the channel. -/
def Channel.recordsOf (c : Channel) (consumer : Nat) : List Record :=
  (c.buffer.filter (·.consumer == consumer)).map (·.record)

/-- Records on a lane, from the channel back to the buffer of consumer `k`. -/
structure Lane.Flows (l : Lane) (c : Cover) (k : Consumer) (delivered : List Record) : Prop where
  arriving : Backed k.topic c delivered
  held : l.stopped = false → Backed k.topic c (delivered ++ l.held)
  fetch : l.stopped = false → Fetch.Flow k.topic (c.behind (delivered ++ l.held)) k.fetch

variable {σ : Type}

/-- A lane that is not in use, or whose records are backed as long as they can arrive. -/
def Lane.Sound (group : String) (w : World σ) (channel : Channel) (l : Lane) : Prop :=
  l.consumer = 0 ∧ l.stopped = true ∨
    l.consumer ≠ 0 ∧ ∃ k, w.cluster.consumer? l.place = some k ∧ k.id = l.consumer ∧
      k.group = group ∧
      (channel.closed = false → l.Flows (w.cover k.id k.topic) k (channel.recordsOf k.id))

/-- A task follows a tracked record. -/
def Task.Sound (w : World σ) (t : Task) : Prop :=
  match t.stage with
  | .executing x => ∃ e, w.ledger.entry? t.entry = some e ∧ e.record = x.record ∧
      (x.state.isCommittable = true →
        Resolved w.outcomes x.record.topic x.record.partition x.record.offset)
  | _ => True

/-- What holds of a run. -/
structure Run.Sound (group : String) (w : World σ) (r : Run) : Prop where
  lane : ∀ source, (r.lane source).Sound group w r.channel
  apart : (r.lane .primary).consumer ≠ 0 → (r.lane .delayed).consumer ≠ 0 →
    (r.lane .primary).place ≠ (r.lane .delayed).place
  /-- Whatever is in the channel was read by one of the two consumers. -/
  sender : ∀ d ∈ r.channel.buffer, d.consumer ≠ 0 ∧ ∃ source, (r.lane source).consumer = d.consumer
  drained : r.channel.closed = true → r.channel.buffer = []
  closed : r.dequeue = .finishing ∨ r.dequeue = .closing → r.channel.closed = true
  task : ∀ t ∈ r.tasks, t.Sound w

/-- The consumers of a run. -/
def Run.Owns (r : Run) (place : Nat) : Prop :=
  ∃ source, (r.lane source).consumer ≠ 0 ∧ (r.lane source).place = place

/-- The settings that a run finds for a number are those of one of its lanes. -/
theorem Run.lane_of_consumer? {r : Run} {consumer : Nat} {settings : IntakeSettings}
    (h : r.consumer? consumer = some settings) :
    ∃ source, (r.lane source).place = settings.place ∧ (r.lane source).consumer = consumer := by
  unfold Run.consumer? at h
  split at h
  · next hid =>
    obtain rfl := Option.some.inj h
    exact ⟨.primary, rfl, hid⟩
  · split at h
    · next hid =>
      obtain rfl := Option.some.inj h
      exact ⟨.delayed, rfl, hid⟩
    · cases h

theorem Run.consumer?_lane_ne_none (r : Run) (source : Source) :
    r.consumer? (r.lane source).consumer ≠ none := by
  unfold Run.consumer?
  cases source <;> simp only [Run.lane] <;> repeat' split
  all_goals simp_all

/-! ## Records that move along a lane -/

variable {group : String} {own : Nat → Prop} {w w' : World σ} {channel : Channel} {l : Lane}
  {r : Run}

theorem Lane.Flows.mono {c c' : Cover} {k k' : Consumer} {delivered : List Record}
    (h : l.Flows c k delivered) (hc : ∀ p o, c p o → c' p o) (htopic : k'.topic = k.topic)
    (hfetch : k'.fetch = k.fetch) : l.Flows c' k' delivered := by
  constructor
  · rw [htopic]
    exact h.arriving.mono hc
  · intro hrunning
    rw [htopic]
    exact (h.held hrunning).mono hc
  · intro hrunning
    rw [htopic, hfetch]
    exact (h.fetch hrunning).mono fun p o => Cover.behind_mono (hc p) o

/-- The first record on a lane arrives and is covered from then on. -/
theorem Lane.Flows.arrive {c c' : Cover} {k : Consumer} {r : Record} {rest : List Record}
    (h : l.Flows c k (r :: rest)) (hc : ∀ p o, c p o → c' p o)
    (hr : c' r.partition r.offset) : l.Flows c' k rest := by
  have hbehind : ∀ p o, c.behind [r] p o → c' p o := by
    rintro p o (hold | ⟨r', hr', rfl, rfl⟩)
    · exact hc p o hold
    · rw [List.mem_singleton.mp hr']
      exact hr
  constructor
  · exact h.arriving.2.2.mono hbehind
  · exact fun hrunning => (h.held hrunning).2.2.mono hbehind
  · intro hrunning
    have hfetch := h.fetch hrunning
    rw [List.cons_append, Cover.behind_cons] at hfetch
    exact hfetch.mono fun p o => Cover.behind_mono (hbehind p) o

/-- A loop that goes on holds what it held before. -/
theorem Lane.Flows.stay {c : Cover} {k : Consumer} {delivered held : List Record} {stopped : Bool}
    (h : l.Flows c k delivered) (hrunning : l.stopped = false)
    (hheld : stopped = false → held = l.held) : Flows { l with held, stopped } c k delivered := by
  refine ⟨h.arriving, fun hgoes => ?_, fun hgoes => ?_⟩
  · rw [hheld hgoes]
    exact h.held hrunning
  · rw [hheld hgoes]
    exact h.fetch hrunning

/-- The first record that was held is delivered. The records on the lane are the same ones. -/
theorem Lane.Flows.push {c : Cover} {k : Consumer} {delivered rest : List Record} {r : Record}
    (h : l.Flows c k delivered) (hrunning : l.stopped = false) (hheld : l.held = r :: rest) :
    Flows { l with held := rest, stopped := false } c k (delivered ++ [r]) := by
  have hmoved : delivered ++ [r] ++ rest = delivered ++ l.held := by
    rw [hheld, List.append_assoc, List.singleton_append]
  have hbacked := h.held hrunning
  refine ⟨?_, fun _ => ?_, fun _ => ?_⟩
  · rw [← hmoved] at hbacked
    exact (Backed.append_iff.mp hbacked).1
  · rw [hmoved]
    exact hbacked
  · rw [hmoved]
    exact h.fetch hrunning

/-- What the consumer hands out is held behind what was held before. -/
theorem Lane.Flows.poll {c : Cover} {k k' : Consumer} {delivered handed held : List Record}
    {stopped : Bool} (h : l.Flows c k delivered) (hrunning : l.stopped = false)
    (htopic : k'.topic = k.topic)
    (hflow : Fetch.Flow k.topic (c.behind (delivered ++ l.held))
      { k'.fetch with buffer := handed ++ k'.fetch.buffer })
    (hheld : stopped = false → held = l.held ++ handed) :
    Flows { l with held, stopped } c k' delivered := by
  obtain ⟨hhanded, hrest⟩ := hflow.split
  constructor
  · rw [htopic]
    exact h.arriving
  · intro hgoes
    rw [htopic, hheld hgoes, ← List.append_assoc]
    exact Backed.append_iff.mpr ⟨h.held hrunning, hhanded⟩
  · intro hgoes
    rw [htopic, hheld hgoes, ← List.append_assoc, Cover.behind_append]
    exact hrest

/-- The loop of a lane that runs has a consumer. -/
theorem Lane.Sound.consumer_ne_zero (h : l.Sound group w channel) (hrunning : l.stopped = false) :
    l.consumer ≠ 0 := by
  rcases h with ⟨-, hstopped⟩ | ⟨hused, -⟩
  · rw [hrunning] at hstopped
    cases hstopped
  · exact hused

/-! ## What others do -/

/-- A lane stays sound while others act, as long as they leave its consumer alone. -/
theorem Lane.Sound.mono (h : l.Sound group w channel) (hw : w.Advances own w')
    (hown : channel.closed = false → l.consumer ≠ 0 → ¬ own l.place) :
    l.Sound group w' channel := by
  rcases h with hunused | ⟨hused, k, hk, hid, hgroup, hflows⟩
  · exact .inl hunused
  · obtain ⟨k', hk', hsame, hfetch⟩ := hw.same _ k hk
    refine .inr ⟨hused, k', hk', hsame.id_eq.trans hid, hsame.group_eq.trans hgroup, fun hopen => ?_⟩
    have hnot := hown hopen hused
    rw [hsame.id_eq, hsame.topic_eq]
    exact (hflows hopen).mono (hw.cover _ k hk hnot) hsame.topic_eq (hfetch hnot)

/-- A lane does not notice what others put into the channel. -/
theorem Lane.Sound.congr_channel {channel' : Channel} (h : l.Sound group w channel)
    (hclosed : channel'.closed = channel.closed)
    (hrecords : l.consumer ≠ 0 → channel'.recordsOf l.consumer = channel.recordsOf l.consumer) :
    l.Sound group w channel' := by
  rcases h with hunused | ⟨hused, k, hk, hid, hgroup, hflows⟩
  · exact .inl hunused
  · refine .inr ⟨hused, k, hk, hid, hgroup, fun hopen => ?_⟩
    rw [hid, hrecords hused, ← hid]
    exact hflows (hclosed.symm.trans hopen)

theorem Task.Sound.mono {t : Task} (h : t.Sound w) (hw : w.Advances own w') : t.Sound w' := by
  unfold Task.Sound at h ⊢
  split
  · next x hx =>
    simp only [hx] at h
    obtain ⟨e, he, hrecord, hresolved⟩ := h
    obtain ⟨e', he', heq⟩ := hw.record _ e he
    exact ⟨e', he', heq.trans hrecord, fun hstate => (hresolved hstate).mono hw.outcomes⟩
  · trivial

/-- A run stays sound while others act, as long as they leave its consumers alone. -/
theorem Run.Sound.mono (h : r.Sound group w) (hw : w.Advances own w')
    (hown : r.channel.closed = false → ∀ i, r.Owns i → ¬ own i) : r.Sound group w' where
  lane source := (h.lane source).mono hw fun hopen hused => hown hopen _ ⟨source, hused, rfl⟩
  apart := h.apart
  sender := h.sender
  drained := h.drained
  closed := h.closed
  task t ht := (h.task t ht).mono hw

/-! ## What a loop does -/

variable [LogStore σ]

/-- A step of an intake loop on what it works with: from the records it holds to those it holds
then, unless it stops. -/
inductive IntakeMove (s : IntakeSettings) (held : List Record) (f : Feed σ) :
    List Record → Bool → Feed σ → Prop where
  /-- Nothing moves, or the loop stops. -/
  | stay {held' : List Record} {stopped : Bool} {channel : Channel}
      (hbuffer : channel.buffer = f.channel.buffer) (hclosed : channel.closed = f.channel.closed)
      (hheld : stopped = false → held' = held) :
      IntakeMove s held f held' stopped { f with channel }
  /-- The first record held goes into the channel. -/
  | push {r : Record} {rest : List Record} {channel : Channel} (hheld : held = r :: rest)
      (hopen : f.channel.closed = false)
      (hbuffer : channel.buffer = f.channel.buffer ++ [⟨s.consumer, r⟩])
      (hclosed : channel.closed = false) :
      IntakeMove s held f rest false { f with channel }
  /-- A step of a poll, which may hand out a record. -/
  | poll {p : Polling} {step : PollStep} {cluster : Cluster σ} {held' : List Record}
      {stopped : Bool} (hpoll : f.cluster.poll? s.place p = some (step, cluster))
      (hheld : stopped = false → held' = held ++ step.handed) :
      IntakeMove s held f held' stopped { f with cluster }

variable {s : IntakeSettings} {fired : Bool} {f f' : Feed σ}

/-- The channel stays as it is, or takes one record of the loop's consumer. -/
theorem IntakeMove.on_channel {held held' : List Record} {stopped : Bool}
    (h : IntakeMove s held f held' stopped f') :
    f'.channel.closed = f.channel.closed ∧
      (f'.channel.buffer = f.channel.buffer ∨ f.channel.closed = false ∧
        ∃ r, f'.channel.buffer = f.channel.buffer ++ [⟨s.consumer, r⟩]) := by
  cases h with
  | stay hbuffer hclosed => exact ⟨hclosed, .inl hbuffer⟩
  | push hheld hopen hbuffer hclosed =>
    exact ⟨hclosed.trans hopen.symm, .inr ⟨hopen, _, hbuffer⟩⟩
  | poll => exact ⟨rfl, .inl rfl⟩

/-- Whatever a step puts into the channel comes from the loop's consumer. -/
theorem IntakeMove.mem_buffer {held held' : List Record} {stopped : Bool}
    (h : IntakeMove s held f held' stopped f') {d : Delivery} (hd : d ∈ f'.channel.buffer) :
    d ∈ f.channel.buffer ∨ d.consumer = s.consumer := by
  obtain ⟨-, hsame | ⟨-, r, hpushed⟩⟩ := h.on_channel
  · rw [hsame] at hd
    exact .inl hd
  · rw [hpushed] at hd
    refine (List.mem_append.mp hd).imp_right fun hd => ?_
    rw [List.mem_singleton.mp hd]

/-- The records of other consumers in the channel stay as they are. -/
theorem IntakeMove.recordsOf_eq {held held' : List Record} {stopped : Bool}
    (h : IntakeMove s held f held' stopped f') {consumer : Nat} (hne : consumer ≠ s.consumer) :
    f'.channel.recordsOf consumer = f.channel.recordsOf consumer := by
  obtain ⟨-, hsame | ⟨-, r, hpushed⟩⟩ := h.on_channel
  · simp only [Channel.recordsOf, hsame]
  · simp [Channel.recordsOf, hpushed, List.filter_append, hne.symm]

/-- The loop of the primary topic: what it holds is the record that it is pushing. -/
theorem Primary.Does.move {loop loop' : Primary} {deeds : List Deed}
    (h : Does s fired f loop deeds loop' f') :
    IntakeMove s loop.held f loop'.held loop'.hasStopped f' := by
  cases h with
  | stop hcause hbuffer hclosed => exact .stay hbuffer hclosed fun hrunning => by cases hrunning
  | start => exact .stay rfl rfl fun _ => rfl
  | pollOn hpoll => exact .poll hpoll fun _ => rfl
  | @poll p result cluster hpoll =>
    refine .poll hpoll fun _ => ?_
    -- a record is held from now on, and a closed consumer stops the loop
    rcases result with e | _ | r
    · cases e <;> rfl
    · rfl
    · rfl
  | push hfired hopen hbuffer hclosed => exact .push rfl hopen hbuffer hclosed
  | lineUp hbuffer hclosed => exact .stay hbuffer hclosed fun _ => rfl
  | resume hwake => exact .stay rfl rfl fun _ => rfl

/-- The loop of the delayed topic: what it holds is the batch that it drains and releases. -/
theorem Delayed.Does.move {due : Nat} {phase : DelayedPhase} {d' : Delayed} {deeds : List Deed}
    (h : Does s fired f due phase deeds d' f') :
    IntakeMove s phase.held f d'.phase.held d'.hasStopped f' := by
  cases h with
  | stop hcause hbuffer hclosed => exact .stay hbuffer hclosed fun hrunning => by cases hrunning
  | tick hdue => exact .stay rfl rfl fun _ => rfl
  | pollOn hpoll => exact .poll hpoll fun _ => (List.append_nil _).symm
  | @poll batch p result cluster hpoll =>
    refine .poll hpoll fun _ => ?_
    -- a failed or empty poll ends the batch; a record joins it, after a pause if not the first
    rcases result with e | _ | r
    · exact (List.append_nil batch).symm
    · exact (List.append_nil batch).symm
    · cases batch <;> rfl
  | rest hwake => exact .stay rfl rfl fun _ => rfl
  | push hfired hopen hbuffer hclosed => exact .push rfl hopen hbuffer hclosed
  | lineUp hbuffer hclosed => exact .stay hbuffer hclosed fun _ => rfl
  | @released failure =>
    refine .stay rfl rfl fun _ => ?_
    -- the batch is through; what its last poll came to decides where the loop goes
    rcases failure with _ | e
    · rfl
    · cases e <;> rfl
  | resume hwake => exact .stay rfl rfl fun _ => rfl

/-- A primary loop that takes a step is running. -/
theorem Primary.move_of_step? {loop loop' : Primary}
    (h : loop.step? s fired f = some (loop', f')) :
    loop.hasStopped = false ∧ IntakeMove s loop.held f loop'.held loop'.hasStopped f' := by
  refine ⟨?_, (does_of_step? h).move⟩
  cases loop with
  | stopped => cases h
  | _ => rfl

/-- A delayed loop that takes a step is running. -/
theorem Delayed.move_of_step? {loop loop' : Delayed}
    (h : loop.step? s fired f = some (loop', f')) :
    loop.hasStopped = false ∧
      IntakeMove s loop.phase.held f loop'.phase.held loop'.hasStopped f' := by
  refine ⟨?_, (does_of_step? h).move⟩
  obtain ⟨due, phase⟩ := loop
  cases phase with
  | stopped => cases h
  | _ => rfl

/-! ## A lane whose loop has taken a step -/

variable [LawfulStore σ]

/-- A position of the group is covered, whatever the ledger tracks. -/
theorem World.Sound.upTo_position (h : World.Sound group w) {k : Consumer}
    (hgroup : k.group = group) (ahead : List Record) (p n : Int)
    (hn : position w.cluster.store k.group k.topic p = some n) :
    ((w.cover k.id k.topic).behind ahead).UpTo p n := by
  rw [hgroup] at hn
  exact (h.settled.positions k.topic p n hn).mono fun _ hres => .inl (.inl hres)

/-- A step of the loop of a lane. -/
theorem Lane.Sound.move (hw : World.Sound group w) (h : l.Sound group w channel)
    (hrunning : l.stopped = false) {s : IntakeSettings} (hplace : s.place = l.place)
    (hconsumer : s.consumer = l.consumer) {held : List Record} {stopped : Bool} {f : Feed σ}
    (hmove : IntakeMove s l.held ⟨w.cluster, channel⟩ held stopped f) :
    World.Sound group { w with cluster := f.cluster } ∧
      w.Advances (· = l.place) { w with cluster := f.cluster } ∧
      Lane.Sound group { w with cluster := f.cluster } f.channel { l with held, stopped } := by
  rcases h with ⟨-, hstopped⟩ | ⟨hused, k, hk, hid, hgroup, hflows⟩
  · rw [hrunning] at hstopped
    cases hstopped
  cases hmove with
  | @stay held' stopped' channel' hbuffer hclosed hheld =>
    refine ⟨hw, .refl _ w, .inr ⟨hused, k, hk, hid, hgroup, fun hopen => ?_⟩⟩
    have hrecords : channel'.recordsOf k.id = channel.recordsOf k.id := by
      simp only [Channel.recordsOf, hbuffer]
    rw [hrecords]
    exact (hflows (hclosed.symm.trans hopen)).stay hrunning hheld
  | @push r _ channel' hheld hopen hbuffer hclosed =>
    refine ⟨hw, .refl _ w, .inr ⟨hused, k, hk, hid, hgroup, fun _ => ?_⟩⟩
    have hrecords : channel'.recordsOf k.id = channel.recordsOf k.id ++ [r] := by
      simp [Channel.recordsOf, hbuffer, List.filter_append, hconsumer, hid]
    rw [hrecords]
    exact (hflows hopen).push hrunning hheld
  | @poll p step cluster _ _ hpoll hheld =>
    rw [hplace] at hpoll
    have hsteady := Cluster.steady_poll? hw.settled.cluster.store hpoll
    obtain ⟨hw', hadvances⟩ := hw.steady hsteady
    refine ⟨hw', hadvances, ?_⟩
    by_cases hopen : channel.closed = false
    · have hold := hflows hopen
      have hkeeps : k.Keeps (position w.cluster.store k.group k.topic) _ :=
        Fetch.keeps_flow (hw.upTo_position hgroup (channel.recordsOf k.id ++ l.held))
      obtain ⟨k', hk', hsame, hflow⟩ := Cluster.handed_poll? hw.settled.cluster.store hpoll hk
        hkeeps (hold.fetch hrunning)
      refine .inr ⟨hused, k', hk', hsame.id_eq.trans hid, hsame.group_eq.trans hgroup, fun _ => ?_⟩
      rw [hsame.id_eq, hsame.topic_eq]
      exact hold.poll hrunning hsame.topic_eq hflow hheld
    -- nothing can arrive any more, whatever the poll has handed out
    · obtain ⟨k', hk', hsame, -⟩ := hsteady.same l.place k hk
      exact .inr ⟨hused, k', hk', hsame.id_eq.trans hid, hsame.group_eq.trans hgroup,
        fun hopen' => absurd hopen' hopen⟩

/-- Two lanes in use have consumers of their own. -/
theorem Run.Sound.lanes_apart (hw : World.Sound group w) (h : r.Sound group w) {a b : Source}
    (hne : a ≠ b) (ha : (r.lane a).consumer ≠ 0) (hb : (r.lane b).consumer ≠ 0) :
    (r.lane a).place ≠ (r.lane b).place ∧ (r.lane a).consumer ≠ (r.lane b).consumer := by
  have hplace : (r.lane a).place ≠ (r.lane b).place := by
    cases a <;> cases b
    · exact absurd rfl hne
    · exact h.apart ha hb
    · exact (h.apart hb ha).symm
    · exact absurd rfl hne
  refine ⟨hplace, fun heq => ?_⟩
  rcases h.lane a with ⟨hzero, -⟩ | ⟨-, k, hk, hid, -⟩
  · exact ha hzero
  rcases h.lane b with ⟨hzero, -⟩ | ⟨-, k', hk', hid', -⟩
  · exact hb hzero
  exact hplace (hw.settled.cluster.id_inj _ _ k k' hk hk' (by rw [hid, hid', heq]))

/-- The other lane does not notice a step of a loop. -/
theorem Run.Sound.lane_beside (hw : World.Sound group w) (h : r.Sound group w)
    {source other : Source} (hne : other ≠ source) (hused : (r.lane source).consumer ≠ 0)
    {s : IntakeSettings} (hconsumer : s.consumer = (r.lane source).consumer)
    {held held' : List Record} {stopped : Bool} {f : Feed σ}
    (hmove : IntakeMove s held ⟨w.cluster, r.channel⟩ held' stopped f)
    (hadvances : w.Advances (· = (r.lane source).place) { w with cluster := f.cluster }) :
    (r.lane other).Sound group { w with cluster := f.cluster } f.channel := by
  have hkept := (h.lane other).mono hadvances fun _ hother =>
    (h.lanes_apart hw hne hother hused).1
  apply hkept.congr_channel hmove.on_channel.1
  intro hother
  apply hmove.recordsOf_eq
  rw [hconsumer]
  exact (h.lanes_apart hw hne hother hused).2

/-- A step of one of the two loops keeps a run sound. -/
theorem Run.Sound.intake (hw : World.Sound group w) (h : r.Sound group w) {source : Source}
    (hrunning : (r.lane source).stopped = false) {s : IntakeSettings}
    (hplace : s.place = (r.lane source).place) (hconsumer : s.consumer = (r.lane source).consumer)
    {held : List Record} {stopped : Bool} {f : Feed σ}
    (hmove : IntakeMove s (r.lane source).held ⟨w.cluster, r.channel⟩ held stopped f) {r' : Run}
    (hself : r'.lane source = { r.lane source with held, stopped })
    (hother : ∀ other, other ≠ source → r'.lane other = r.lane other)
    (hrest : r'.channel = f.channel ∧ r'.dequeue = r.dequeue ∧ r'.tasks = r.tasks) :
    World.Sound group { w with cluster := f.cluster } ∧
      w.Advances r.Owns { w with cluster := f.cluster } ∧
      r'.Sound group { w with cluster := f.cluster } := by
  obtain ⟨hw', hadvances, hlane⟩ := (h.lane source).move hw hrunning hplace hconsumer hmove
  obtain ⟨hclosed, hbuffer⟩ := hmove.on_channel
  obtain ⟨hchannel, hdequeue, htasks⟩ := hrest
  have hused := (h.lane source).consumer_ne_zero hrunning
  have hkeeps : ∀ other, (r'.lane other).consumer = (r.lane other).consumer ∧
      (r'.lane other).place = (r.lane other).place := by
    intro other
    by_cases heq : other = source
    · rw [heq, hself]
      exact ⟨rfl, rfl⟩
    · rw [hother other heq]
      exact ⟨rfl, rfl⟩
  refine ⟨hw', hadvances.weaken fun i hi => ⟨source, hused, hi.symm⟩, ?_⟩
  constructor
  · intro other
    rw [hchannel]
    by_cases heq : other = source
    · rw [heq, hself]
      exact hlane
    · rw [hother other heq]
      exact h.lane_beside hw heq hused hconsumer hmove hadvances
  · rw [(hkeeps .primary).1, (hkeeps .primary).2, (hkeeps .delayed).1, (hkeeps .delayed).2]
    exact h.apart
  · intro d hd
    rw [hchannel] at hd
    rcases hmove.mem_buffer hd with hold | hnew
    · obtain ⟨hne, other, hsender⟩ := h.sender d hold
      exact ⟨hne, other, (hkeeps other).1.trans hsender⟩
    · rw [hnew, hconsumer]
      exact ⟨hused, source, (hkeeps source).1⟩
  · intro hclosed'
    rw [hchannel] at hclosed' ⊢
    rcases hbuffer with hsame | ⟨hopen, -⟩
    · rw [hsame]
      exact h.drained (hclosed ▸ hclosed')
    -- nothing is pushed into a closed channel
    · rw [hclosed, hopen] at hclosed'
      cases hclosed'
  · rw [hdequeue, hchannel, hclosed]
    exact h.closed
  · rw [htasks]
    exact fun t ht => (h.task t ht).mono hadvances

end WorkQueue
