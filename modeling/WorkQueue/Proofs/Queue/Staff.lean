import WorkQueue.Proofs.Cluster.Sole
import WorkQueue.Proofs.Ledger.Appended
import WorkQueue.Proofs.Queue.Lanes

/-!
# A run that is alone in its groups

A run has a consumer for each of its topics. If each is alone in its group, the records of a
partition come down their lane in the order of their offsets, and behind all that the ledger has
taken of the partition before. So the ledger never refuses a record.

## Main definitions

* `Lane.Ordered`: the records on a lane ascend behind what has been taken
* `Scene.Member`: the consumer of a source is alone in its group
* `Scene.Staffed`: what holds of both consumers and their lanes

## Main statements

* `Scene.Staffed.intake`: a step of a loop keeps it
* `Scene.Staffed.append_eq_ok`, `Scene.Staffed.arrive`: the next delivery is accepted
* `Scene.Staffed.commit`: a commit leaves both consumers alone
-/

namespace WorkQueue

open StoreView GroupStore

/-- The topic of a source. -/
def Config.topicOf (c : Config) : Source → String
  | .primary => c.primaryTopic
  | .delayed => c.delayedTopic

theorem Config.topicOf_injective {c : Config} (h : c.validate = .ok ()) :
    Function.Injective c.topicOf := by
  have hne : c.primaryTopic ≠ c.delayedTopic := by
    intro heq
    have hfault : c.firstFault ≠ none := by
      unfold firstFault
      simp only [heq, if_true]
      repeat' split
      all_goals simp
    -- a configuration with a fault is not accepted
    unfold validate at h
    split at h
    · cases h
    · next hnone => exact hfault hnone
  intro a b heq
  cases a <;> cases b
  · rfl
  · exact absurd heq hne
  · exact absurd heq.symm hne
  · rfl

/-- The records that a consumer may be handed: those of its topic's partitions. -/
def Consumer.Reads (k : Consumer) (r : Record) : Prop := r.topic = k.topic ∧ r.partition ∈ k.whole

/-! ## Lanes -/

/-- The records on the lane of consumer `k`, from the channel back to its buffer: the offsets of each
partition ascend, behind those that have been taken. -/
structure Lane.Ordered (l : Lane) (k : Consumer) (taken : Int → List Int)
    (delivered : List Record) : Prop where
  arriving : ∀ p, (taken p ++ offsetsIn p delivered).Pairwise (· < ·)
  reads : ∀ r ∈ delivered, k.Reads r
  held : l.stopped = false → ∀ r ∈ l.held, k.Reads r
  fetch : l.stopped = false →
    ∀ p, Leads (taken p ++ offsetsIn p (delivered ++ l.held)) (k.fetch.resume? p)

namespace Lane.Ordered

variable {l : Lane} {k : Consumer} {taken taken' : Int → List Int} {delivered : List Record}

/-- A lane on which there is nothing yet. -/
theorem fresh (htaken : ∀ p, taken p = []) (hheld : l.held = []) : l.Ordered k taken [] := by
  rw [funext htaken]
  refine ⟨fun p => List.Pairwise.nil, fun _ hr => absurd hr List.not_mem_nil, fun _ => ?_,
    fun _ p => ?_⟩
  · rw [hheld]
    exact fun _ hr => absurd hr List.not_mem_nil
  · rw [hheld]
    exact .nil _

/-- The first record on a lane is taken. -/
theorem arrive {r : Record} {rest : List Record} (h : l.Ordered k taken (r :: rest))
    (htaken : ∀ p, taken' p = taken p ++ offsetsIn p [r]) : l.Ordered k taken' rest := by
  have hmoved : ∀ p more, taken' p ++ offsetsIn p more = taken p ++ offsetsIn p (r :: more) := by
    intro p more
    rw [htaken, List.append_assoc, ← offsetsIn_append, List.singleton_append]
  refine ⟨fun p => ?_, fun r' hr' => h.reads r' (List.mem_cons_of_mem r hr'), h.held,
    fun hrunning p => ?_⟩
  · rw [hmoved]
    exact h.arriving p
  · rw [hmoved]
    exact h.fetch hrunning p

/-- A loop that goes on holds what it held before. -/
theorem stay {held : List Record} {stopped : Bool} (h : l.Ordered k taken delivered)
    (hrunning : l.stopped = false) (hheld : stopped = false → held = l.held) :
    Ordered { l with held, stopped } k taken delivered := by
  refine ⟨h.arriving, h.reads, fun hgoes => ?_, fun hgoes => ?_⟩
  · rw [hheld hgoes]
    exact h.held hrunning
  · rw [hheld hgoes]
    exact h.fetch hrunning

/-- The first record that was held is delivered. -/
theorem push {rest : List Record} {r : Record} (h : l.Ordered k taken delivered)
    (hrunning : l.stopped = false) (hheld : l.held = r :: rest) :
    Ordered { l with held := rest, stopped := false } k taken (delivered ++ [r]) := by
  have hmoved : delivered ++ [r] ++ rest = delivered ++ l.held := by
    rw [hheld, List.append_assoc, List.singleton_append]
  have hreads := h.held hrunning
  rw [hheld] at hreads
  constructor
  · intro p
    have hascending := (h.fetch hrunning p).ascending
    rw [← hmoved, offsetsIn_append, ← List.append_assoc] at hascending
    exact (List.pairwise_append.mp hascending).1
  · intro r' hr'
    rcases List.mem_append.mp hr' with hold | hnew
    · exact h.reads r' hold
    · rw [List.mem_singleton.mp hnew]
      exact hreads r List.mem_cons_self
  · exact fun _ r' hr' => hreads r' (List.mem_cons_of_mem r hr')
  · intro _ p
    rw [hmoved]
    exact h.fetch hrunning p

/-- What the consumer hands out is held behind what was held before. -/
theorem poll {fetch : Fetch} {handed held : List Record} {stopped : Bool}
    (h : l.Ordered k taken delivered) (hrunning : l.stopped = false)
    (hreads : ∀ r ∈ handed, k.Reads r)
    (hleads : ∀ p offsets, Leads offsets (k.fetch.resume? p) →
      Leads (offsets ++ offsetsIn p handed) (fetch.resume? p))
    (hheld : stopped = false → held = l.held ++ handed) :
    Ordered { l with held, stopped } { k with fetch } taken delivered := by
  refine ⟨h.arriving, h.reads, fun hgoes r hr => ?_, fun hgoes p => ?_⟩
  · rw [hheld hgoes] at hr
    exact (List.mem_append.mp hr).elim (h.held hrunning r) (hreads r)
  · rw [hheld hgoes, ← List.append_assoc, offsetsIn_append, ← List.append_assoc]
    exact hleads p _ (h.fetch hrunning p)

end Lane.Ordered

variable {σ : Type} [LogStore σ] [GroupStore σ]

/-- A step of the loop of a lane whose consumer is alone. -/
theorem Lane.Ordered.move {l : Lane} {k : Consumer} {taken : Int → List Int} {c : Cluster σ}
    {channel : Channel} (h : channel.closed = false → l.Ordered k taken (channel.recordsOf l.consumer))
    (hsole : c.Sole l.place k) (hrunning : l.stopped = false) {s : IntakeSettings}
    (hplace : s.place = l.place) (hconsumer : s.consumer = l.consumer) {held : List Record}
    {stopped : Bool} {f : Feed σ} (hmove : IntakeMove s l.held ⟨c, channel⟩ held stopped f) :
    ∃ fetch, f.cluster.Sole l.place { k with fetch } ∧
      (f.channel.closed = false → Ordered { l with held, stopped } { k with fetch } taken
        (f.channel.recordsOf l.consumer)) := by
  cases hmove with
  | @stay held' stopped' channel' hbuffer hclosed hheld =>
    refine ⟨k.fetch, hsole, fun hopen => ?_⟩
    have hrecords : channel'.recordsOf l.consumer = channel.recordsOf l.consumer := by
      simp only [Channel.recordsOf, hbuffer]
    rw [hrecords]
    exact (h (hclosed.symm.trans hopen)).stay hrunning hheld
  | @push r _ channel' hheld hopen hbuffer hclosed =>
    refine ⟨k.fetch, hsole, fun _ => ?_⟩
    have hrecords : channel'.recordsOf l.consumer = channel.recordsOf l.consumer ++ [r] := by
      simp [Channel.recordsOf, hbuffer, List.filter_append, hconsumer]
    rw [hrecords]
    exact (h hopen).push hrunning hheld
  | poll hpoll hheld =>
    rw [hplace] at hpoll
    obtain ⟨fetch, hsole', hreads, hleads⟩ := hsole.poll hpoll
    exact ⟨fetch, hsole', fun hopen => (h hopen).poll hrunning hreads hleads hheld⟩

/-- A consumer of another topic stays alone meanwhile. -/
theorem IntakeMove.sole {s : IntakeSettings} {held held' : List Record} {stopped : Bool}
    {f f' : Feed σ} (hmove : IntakeMove s held f held' stopped f') {i : Nat} {k l : Consumer}
    (h : f.cluster.Sole i k) (hl : f.cluster.Sole s.place l) (hne : l.topic ≠ k.topic) :
    f'.cluster.Sole i k := by
  cases hmove with
  | stay => exact h
  | push => exact h
  | @poll p step cluster _ _ hpoll =>
    have hother := h.other hl hne (.inl ⟨p, rfl⟩)
    simp only [Act.on, hpoll] at hother
    exact hother

namespace Scene

/-! ## Both consumers of a run -/

/-- The consumer of a source, which is alone in the queue's group. -/
structure Member (s : Scene σ) (source : Source) (k : Consumer) : Prop where
  sole : s.cluster.Sole (s.run.lane source).place k
  id_eq : k.id = (s.run.lane source).consumer
  group_eq : k.group = s.queue.config.groupId
  topic_eq : k.topic = s.queue.config.topicOf source

/-- Whatever its consumer has fetched, and whatever is on its lane. -/
theorem Member.carry {s s' : Scene σ} {source : Source} {k : Consumer} (h : s.Member source k)
    (fetch : Fetch) (hconfig : s'.queue.config = s.queue.config)
    (hplace : (s'.run.lane source).place = (s.run.lane source).place)
    (hconsumer : (s'.run.lane source).consumer = (s.run.lane source).consumer)
    (hsole : s'.cluster.Sole (s.run.lane source).place { k with fetch }) :
    s'.Member source { k with fetch } := by
  constructor
  · rw [hplace]
    exact hsole
  · rw [hconsumer]
    exact h.id_eq
  · rw [hconfig]
    exact h.group_eq
  · rw [hconfig]
    exact h.topic_eq

/-- The consumers of a run are alone in their groups, and what comes down their lanes comes in order,
behind the entries from number `first` on. -/
structure Staffed (first : Nat) (s : Scene σ) (k : Source → Consumer) : Prop where
  topics : Function.Injective s.queue.config.topicOf
  apart : Function.Injective fun source => (s.run.lane source).consumer
  member : ∀ source, s.Member source (k source)
  /-- Once the channel is closed nothing arrives any more. -/
  ordered : s.run.channel.closed = false → ∀ source, (s.run.lane source).Ordered (k source)
    (s.queue.ledger.taken first (s.queue.config.topicOf source))
    (s.run.channel.recordsOf (s.run.lane source).consumer)
  /-- Whatever is in the channel was read by one of the two consumers. -/
  sender : ∀ d ∈ s.run.channel.buffer, ∃ source, (s.run.lane source).consumer = d.consumer
  drained : s.run.channel.closed = true → s.run.channel.buffer = []

namespace Staffed

variable {first : Nat} {s s' : Scene σ} {k : Source → Consumer}

theorem topic_ne (h : s.Staffed first k) {a b : Source} (hne : a ≠ b) :
    (k a).topic ≠ (k b).topic := by
  rw [(h.member a).topic_eq, (h.member b).topic_eq]
  exact h.topics.ne hne

/-- Consumers that have just joined: nothing has been read yet. -/
theorem fresh (htopics : Function.Injective s.queue.config.topicOf)
    (hmember : ∀ source, s.Member source (k source))
    (hapart : Function.Injective fun source => (k source).id)
    (hheld : ∀ source, (s.run.lane source).held = []) (hbuffer : s.run.channel.buffer = []) :
    s.Staffed s.queue.ledger.entries.size k := by
  refine ⟨htopics, ?_, hmember, fun _ source => ?_, fun d hd => ?_, fun _ => hbuffer⟩
  · simp only [← (hmember _).id_eq]
    exact hapart
  · rw [Channel.recordsOf, hbuffer]
    exact .fresh (fun _ => Ledger.taken_of_size rfl) (hheld source)
  · rw [hbuffer] at hd
    cases hd

/-- Whatever leaves the lanes and what has been taken as they are, and both consumers alone. -/
theorem update (h : s.Staffed first k) (hconfig : s'.queue.config = s.queue.config)
    (hlane : ∀ source, s'.run.lane source = s.run.lane source)
    (hchannel : s'.run.channel = s.run.channel)
    (htaken : ∀ topic p, s'.queue.ledger.taken first topic p = s.queue.ledger.taken first topic p)
    (hsole : ∀ source, s'.cluster.Sole (s.run.lane source).place (k source)) :
    s'.Staffed first k := by
  constructor
  · rw [hconfig]
    exact h.topics
  · simp only [hlane]
    exact h.apart
  · intro source
    exact (h.member source).carry (k source).fetch hconfig (by rw [hlane]) (by rw [hlane])
      (hsole source)
  · rw [hchannel]
    intro hopen source
    rw [hlane, hconfig, funext (htaken _)]
    exact h.ordered hopen source
  · rw [hchannel]
    simp only [hlane]
    exact h.sender
  · rw [hchannel]
    exact h.drained

/-- The channel is closed. -/
theorem close (h : s.Staffed first k) (hconfig : s'.queue.config = s.queue.config)
    (hlane : ∀ source, s'.run.lane source = s.run.lane source)
    (hchannel : s'.run.channel = s.run.channel.close) (hcluster : s'.cluster = s.cluster) :
    s'.Staffed first k := by
  constructor
  · rw [hconfig]
    exact h.topics
  · simp only [hlane]
    exact h.apart
  · intro source
    refine (h.member source).carry (k source).fetch hconfig (by rw [hlane]) (by rw [hlane]) ?_
    rw [hcluster]
    exact (h.member source).sole
  · rw [hchannel]
    intro hopen
    cases hopen
  · rw [hchannel]
    intro d hd
    cases hd
  · rw [hchannel]
    exact fun _ => rfl

/-! ## Steps of the loops -/

/-- A step of the loop of one source. -/
theorem intake (h : s.Staffed first k) {source : Source}
    (hrunning : (s.run.lane source).stopped = false) {settings : IntakeSettings}
    (hplace : settings.place = (s.run.lane source).place)
    (hconsumer : settings.consumer = (s.run.lane source).consumer) {held : List Record}
    {stopped : Bool} {f : Feed σ} (hmove : IntakeMove settings (s.run.lane source).held
      ⟨s.cluster, s.run.channel⟩ held stopped f) {r : Run}
    (hself : r.lane source = { s.run.lane source with held, stopped })
    (hother : ∀ other, other ≠ source → r.lane other = s.run.lane other)
    (hchannel : r.channel = f.channel) :
    ∃ fetch, Staffed first { s with cluster := f.cluster, run := r }
      (Function.update k source { k source with fetch }) := by
  have hmember := h.member source
  obtain ⟨fetch, hsole, hordered⟩ := Lane.Ordered.move (fun hopen => h.ordered hopen source)
    hmember.sole hrunning hplace hconsumer hmove
  have hbeside : ∀ other, other ≠ source →
      f.cluster.Sole (s.run.lane other).place (k other) := fun other hne =>
    hmove.sole (h.member other).sole (hplace ▸ hmember.sole) (h.topic_ne hne.symm)
  have hfixed : ∀ other, (r.lane other).place = (s.run.lane other).place ∧
      (r.lane other).consumer = (s.run.lane other).consumer := by
    intro other
    by_cases heq : other = source
    · rw [heq, hself]
      exact ⟨rfl, rfl⟩
    · rw [hother other heq]
      exact ⟨rfl, rfl⟩
  obtain ⟨hclosed, hbuffer⟩ := hmove.on_channel
  refine ⟨fetch, h.topics, ?_, fun other => ?_, ?_, ?_, ?_⟩
  · simp only [fun other => (hfixed other).2]
    exact h.apart
  · obtain ⟨hplace', hconsumer'⟩ := hfixed other
    by_cases heq : other = source
    · subst heq
      rw [Function.update_self]
      exact hmember.carry fetch rfl hplace' hconsumer' hsole
    · rw [Function.update_of_ne heq]
      exact (h.member other).carry (k other).fetch rfl hplace' hconsumer' (hbeside other heq)
  · show r.channel.closed = false → ∀ other, (r.lane other).Ordered _ _ _
    rw [hchannel]
    intro hopen other
    by_cases heq : other = source
    · subst heq
      rw [Function.update_self, hself]
      exact hordered hopen
    · rw [Function.update_of_ne heq, hother other heq]
      -- the other lane does not notice what is pushed into the channel
      have hne : (s.run.lane other).consumer ≠ settings.consumer := by
        rw [hconsumer]
        exact h.apart.ne heq
      rw [hmove.recordsOf_eq hne]
      exact h.ordered (hclosed.symm.trans hopen) other
  · intro d hd
    simp only [fun other => (hfixed other).2]
    rw [hchannel] at hd
    rcases hmove.mem_buffer hd with hold | hnew
    · exact h.sender d hold
    · exact ⟨source, by rw [hnew, hconsumer]⟩
  · intro hclosed'
    rw [hchannel] at hclosed' ⊢
    rcases hbuffer with hsame | ⟨hopen, -⟩
    · rw [hsame]
      exact h.drained (hclosed ▸ hclosed')
    -- nothing is pushed into a closed channel
    · rw [hclosed, hopen] at hclosed'
      cases hclosed'

/-! ## Deliveries -/

/-- What is in the channel is still open. -/
theorem open_of_buffer (h : s.Staffed first k) {d : Delivery} {rest : List Delivery}
    (hbuffer : s.run.channel.buffer = d :: rest) : s.run.channel.closed = false := by
  cases hclosed : s.run.channel.closed with
  | false => rfl
  | true =>
    rw [h.drained hclosed] at hbuffer
    cases hbuffer

/-- The first delivery was read by one of the two consumers, from its own topic. -/
theorem reader_of_buffer (h : s.Staffed first k) {d : Delivery} {rest : List Delivery}
    (hbuffer : s.run.channel.buffer = d :: rest) :
    ∃ source, (s.run.lane source).consumer = d.consumer ∧ (k source).Reads d.record ∧
      s.run.channel.recordsOf (s.run.lane source).consumer =
        d.record :: Channel.recordsOf { s.run.channel with buffer := rest }
          (s.run.lane source).consumer := by
  obtain ⟨source, hsource⟩ := h.sender d (hbuffer ▸ List.mem_cons_self)
  have hrecords : s.run.channel.recordsOf (s.run.lane source).consumer =
      d.record :: Channel.recordsOf { s.run.channel with buffer := rest }
        (s.run.lane source).consumer := by
    simp [Channel.recordsOf, hbuffer, hsource]
  have hordered := h.ordered (h.open_of_buffer hbuffer) source
  rw [hrecords] at hordered
  exact ⟨source, hsource, hordered.reads d.record List.mem_cons_self, hrecords⟩

/-- What a consumer has read is known by its topic. -/
theorem reader_iff (h : s.Staffed first k) {d : Delivery} {reader : Source}
    (hreader : (s.run.lane reader).consumer = d.consumer)
    (htopic : d.record.topic = s.queue.config.topicOf reader) (source : Source) :
    (s.run.lane source).consumer = d.consumer ↔
      d.record.topic = s.queue.config.topicOf source := by
  rw [← hreader, htopic]
  exact ⟨fun heq => congrArg _ (h.apart heq).symm,
    fun heq => congrArg (fun source => (s.run.lane source).consumer) (h.topics heq).symm⟩

/-- The ledger accepts the first delivery: all that is left of its queue has been taken before. -/
theorem append_eq_ok (h : s.Staffed first k) {d : Delivery} {rest : List Delivery}
    (hbuffer : s.run.channel.buffer = d :: rest)
    (hqueue : ∀ source p, ∀ id ∈ s.queue.ledger.queue ⟨(s.run.lane source).consumer, p⟩,
      id ∈ s.queue.ledger.appended first (s.queue.config.topicOf source) p) :
    s.queue.ledger.append d.consumer d.record =
      .ok (s.queue.ledger.entries.size, s.queue.ledger.track d.consumer d.record) := by
  obtain ⟨source, hsource, hreads, hrecords⟩ := h.reader_of_buffer hbuffer
  rw [Ledger.append_eq_ok_iff]
  refine ⟨fun tail htail => ?_, rfl, rfl⟩
  rw [← hsource] at htail
  have harriving := (h.ordered (h.open_of_buffer hbuffer) source).arriving d.record.partition
  rw [hrecords] at harriving
  apply (List.pairwise_append.mp harriving).2.2
  · exact List.mem_map.mpr ⟨tail, hqueue source _ tail (List.mem_of_getLast? htail), rfl⟩
  · simp [offsetsIn]

/-- The first delivery is tracked. -/
theorem arrive (h : s.Staffed first k) {d : Delivery} {rest : List Delivery}
    (hbuffer : s.run.channel.buffer = d :: rest) (hfirst : first ≤ s.queue.ledger.entries.size)
    (dequeue : Dequeue) :
    Staffed first { s with
      queue := { s.queue with ledger := s.queue.ledger.track d.consumer d.record }
      run := { s.run with dequeue, channel := { s.run.channel with buffer := rest } } } k := by
  obtain ⟨reader, hreader, hreads, hrecords⟩ := h.reader_of_buffer hbuffer
  have hopen := h.open_of_buffer hbuffer
  refine ⟨h.topics, h.apart, fun source => ?_, fun _ source => ?_, fun d' hd' => ?_,
    fun hclosed => ?_⟩
  · obtain ⟨hsole, hid, hgroup, htopic⟩ := h.member source
    exact ⟨hsole, hid, hgroup, htopic⟩
  · have hordered := h.ordered hopen source
    show (s.run.lane source).Ordered (k source) _ _
    by_cases heq : source = reader
    · subst heq
      rw [hrecords] at hordered
      apply hordered.arrive
      intro p
      have htopic : d.record.topic = s.queue.config.topicOf source :=
        hreads.1.trans (h.member source).topic_eq
      rw [Ledger.taken_track hfirst]
      by_cases hp : d.record.partition = p <;> simp [offsetsIn, htopic, hp]
    -- the other lane has another topic, and the delivery is not from its consumer
    · have hconsumer : d.consumer ≠ (s.run.lane source).consumer :=
        fun hsame => heq (h.apart (hsame.symm.trans hreader.symm))
      have htopic : d.record.topic ≠ s.queue.config.topicOf source := by
        rw [hreads.1, ← (h.member source).topic_eq]
        exact h.topic_ne (Ne.symm heq)
      have hrest : s.run.channel.recordsOf (s.run.lane source).consumer =
          Channel.recordsOf { s.run.channel with buffer := rest } (s.run.lane source).consumer := by
        simp [Channel.recordsOf, hbuffer, hconsumer]
      rw [hrest] at hordered
      have htaken : ∀ p, (s.queue.ledger.track d.consumer d.record).taken first
          (s.queue.config.topicOf source) p =
          s.queue.ledger.taken first (s.queue.config.topicOf source) p := fun p => by
        rw [Ledger.taken_track hfirst, if_neg fun hplace => htopic hplace.1, List.append_nil]
      rw [funext htaken]
      exact hordered
  · exact h.sender d' (hbuffer ▸ List.mem_cons_of_mem d hd')
  · rw [show s.run.channel.closed = true from hclosed] at hopen
    cases hopen

/-! ## Commits and others -/

/-- A commit for one of the two consumers leaves both alone. -/
theorem commit (h : s.Staffed first k) (source : Source) (offsets : List (Int × Int))
    (other : Source) :
    ((Cluster.commit (s.run.lane source).place offsets).on s.cluster).2.Sole
      (s.run.lane other).place (k other) := by
  by_cases heq : other = source
  · subst heq
    exact (h.member other).sole.commit offsets
  · exact (h.member other).sole.other (h.member source).sole (h.topic_ne (Ne.symm heq))
      (.inr ⟨offsets, rfl⟩)

end Staffed

end Scene

end WorkQueue
