import WorkQueue.Execution.Basic
import WorkQueue.Proofs.Cluster.Operations
import WorkQueue.Proofs.Consumer.Flow
import WorkQueue.Proofs.Ledger.Operations

/-!
# What the queues of a group rely on

A world is what one queue of a group acts on: the cluster that all queues share, the ledger of its
own, and what the executions of all queues have come to so far. It is sound if the group's positions
are behind resolved records only, and if every tracked record stands behind records that are
resolved or tracked in front of it.

Whatever a queue does, others can go on relying on what they have seen: outcomes stay, consumers
stay who they are, and what was covered stays covered. `World.Advances` says this, up to the
consumers at some places that the one who acts may do with as it likes.

## Main definitions

* `Resolved`: the places of a topic whose records have been resolved
* `World`, `World.cover`, `World.Sound`, `World.Advances`

## Main statements

* `World.Sound.resolved_of_mem_reports`: what a pass reports has been resolved
* `World.Sound.steady`, `.transition`, `.collect`, `.commit`, `.track`, `.forget`, `.join`: each
  thing that a queue does to its world keeps it sound and lets it advance
-/

namespace WorkQueue

open StoreView

/-- The places of a topic whose records an execution has resolved for good. -/
def Resolved (outcomes : List Resolution) (topic : String) : Cover := fun p o =>
  ∃ r ∈ outcomes, r.topic = topic ∧ r.partition = p ∧ r.offset = o ∧ r.state.isCommittable = true

theorem Resolved.mono {outcomes more : List Resolution} {topic : String} {p o : Int}
    (h : Resolved outcomes topic p o) (hmore : ∀ r ∈ outcomes, r ∈ more) :
    Resolved more topic p o := by
  obtain ⟨r, hr, hplace⟩ := h
  exact ⟨r, hmore r hr, hplace⟩

/-- What a queue acts on. -/
structure World (σ : Type) where
  cluster : Cluster σ
  ledger : Ledger
  /-- What executions of any queue have come to. -/
  outcomes : List Resolution

namespace World

variable {σ : Type}

/-- The places that a consumer need not read any more: resolved, or tracked. -/
def cover (w : World σ) (consumer : Nat) (topic : String) : Cover := fun p o =>
  Resolved w.outcomes topic p o ∨ ∃ id ∈ w.ledger.queue ⟨consumer, p⟩, w.ledger.offsetOf id = o

/-- What others can rely on when a world changes, except for the consumers at the places `own`. -/
structure Advances (own : Nat → Prop) (w w' : World σ) : Prop where
  outcomes : ∀ r ∈ w.outcomes, r ∈ w'.outcomes
  same : ∀ i k, w.cluster.consumer? i = some k →
    ∃ k', w'.cluster.consumer? i = some k' ∧ k.Same k' ∧ (¬ own i → k'.fetch = k.fetch)
  cover : ∀ i k, w.cluster.consumer? i = some k → ¬ own i → ∀ p o,
    w.cover k.id k.topic p o → w'.cover k.id k.topic p o
  record : ∀ id e, w.ledger.entry? id = some e →
    ∃ e', w'.ledger.entry? id = some e' ∧ e'.record = e.record

variable {own : Nat → Prop} {w w' w'' : World σ}

namespace Advances

theorem refl (own : Nat → Prop) (w : World σ) : Advances own w w where
  outcomes _ hr := hr
  same _ k hk := ⟨k, hk, .refl k, fun _ => rfl⟩
  cover _ _ _ _ _ _ h := h
  record _ e he := ⟨e, he, rfl⟩

/-- Everybody is where they were, and nothing has been uncovered. -/
theorem of_members
    (hmembers : ∀ i k, w.cluster.consumer? i = some k → w'.cluster.consumer? i = some k)
    (houtcomes : ∀ r ∈ w.outcomes, r ∈ w'.outcomes)
    (hcover : ∀ i k, w.cluster.consumer? i = some k → ¬ own i → ∀ p o,
      w.cover k.id k.topic p o → w'.cover k.id k.topic p o)
    (hrecord : ∀ id e, w.ledger.entry? id = some e →
      ∃ e', w'.ledger.entry? id = some e' ∧ e'.record = e.record) : Advances own w w' where
  outcomes := houtcomes
  same i k hk := ⟨k, hmembers i k hk, .refl k, fun _ => rfl⟩
  cover := hcover
  record := hrecord

theorem trans (h : Advances own w w') (h' : Advances own w' w'') : Advances own w w'' where
  outcomes r hr := h'.outcomes r (h.outcomes r hr)
  same i k hk := by
    obtain ⟨k', hk', hsame, hfetch⟩ := h.same i k hk
    obtain ⟨k'', hk'', hsame', hfetch'⟩ := h'.same i k' hk'
    exact ⟨k'', hk'', hsame.trans hsame', fun hown => (hfetch' hown).trans (hfetch hown)⟩
  cover i k hk hown p o hcover := by
    obtain ⟨k', hk', hsame, -⟩ := h.same i k hk
    have hnext := h'.cover i k' hk' hown p o
    rw [hsame.id_eq, hsame.topic_eq] at hnext
    exact hnext (h.cover i k hk hown p o hcover)
  record id e he := by
    obtain ⟨e', he', heq⟩ := h.record id e he
    obtain ⟨e'', he'', heq'⟩ := h'.record id e' he'
    exact ⟨e'', he'', heq'.trans heq⟩

/-- Who may act at more places may also act at fewer. -/
theorem weaken {own' : Nat → Prop} (h : Advances own w w') (hown : ∀ i, own i → own' i) :
    Advances own' w w' where
  outcomes := h.outcomes
  same i k hk := by
    obtain ⟨k', hk', hsame, hfetch⟩ := h.same i k hk
    exact ⟨k', hk', hsame, fun hnot => hfetch fun hi => hnot (hown i hi)⟩
  cover i k hk hnot := h.cover i k hk fun hi => hnot (hown i hi)
  record := h.record

end Advances

variable [LogStore σ] [LawfulStore σ]

/-- What holds of the cluster, whoever looks at it. -/
structure Settled (group : String) (c : Cluster σ) (outcomes : List Resolution) : Prop where
  cluster : c.Sound
  /-- The group stands behind resolved records only. -/
  positions : ∀ topic p n, position c.store group topic p = some n →
    (Resolved outcomes topic).UpTo p n

/-- What holds of the world of a queue of the group. -/
structure Sound (group : String) (w : World σ) : Prop where
  settled : Settled group w.cluster w.outcomes
  tidy : w.ledger.Tidy
  /-- An entry that may be committed has been resolved. -/
  resolved : ∀ id e, w.ledger.entry? id = some e → e.state.isCommittable = true →
    Resolved w.outcomes e.record.topic e.record.partition e.record.offset
  /-- Tracked records were read by a consumer of the cluster. -/
  reader : ∀ key, ∀ id ∈ w.ledger.queue key, ∃ e i k, w.ledger.entry? id = some e ∧
    w.cluster.consumer? i = some k ∧ k.id = key.consumer ∧ e.record.topic = k.topic
  /-- Nothing in front of a tracked record is left out. -/
  backed : ∀ i k, w.cluster.consumer? i = some k → ∀ p, ∀ id ∈ w.ledger.queue ⟨k.id, p⟩,
    (w.cover k.id k.topic).UpTo p (w.ledger.offsetOf id)

namespace Sound

variable {group : String}

/-! ## The cluster -/

/-- Operations on the cluster that commit nothing and add nobody. -/
theorem steady (h : Sound group w) {c : Cluster σ} (hc : Cluster.Steady own w.cluster c) :
    Sound group { w with cluster := c } ∧ Advances own w { w with cluster := c } := by
  constructor
  · constructor
    · refine ⟨hc.sound h.settled.cluster, fun topic p n hn => ?_⟩
      rw [hc.store.position_eq] at hn
      exact h.settled.positions topic p n hn
    · exact h.tidy
    · exact h.resolved
    · intro key id hid
      obtain ⟨e, i, k, he, hk, hkey, htopic⟩ := h.reader key id hid
      obtain ⟨k', hk', hsame, -⟩ := hc.same i k hk
      exact ⟨e, i, k', he, hk', hsame.id_eq.trans hkey, htopic.trans hsame.topic_eq.symm⟩
    · intro i k' hk' p id hid
      obtain ⟨k, hk, hsame⟩ := hc.back hk'
      rw [hsame.id_eq] at hid ⊢
      rw [hsame.topic_eq]
      exact h.backed i k hk p id hid
  · exact ⟨fun _ hr => hr, hc.same, fun _ _ _ _ _ _ hcover => hcover, fun _ e he => ⟨e, he, rfl⟩⟩

/-- A commit of offsets up to which everything has been resolved. -/
theorem commit (h : Sound group w) (i : Nat) (offsets : List (Int × Int))
    (hoffsets : ∀ k, w.cluster.consumer? i = some k → ∀ p o, (p, o) ∈ offsets →
      (Resolved w.outcomes k.topic).UpTo p (o + 1)) :
    Sound group { w with cluster := ((Cluster.commit i offsets).on w.cluster).2 } ∧
      Advances (fun _ => False) w
        { w with cluster := ((Cluster.commit i offsets).on w.cluster).2 } ∧
      ((Cluster.commit i offsets).on w.cluster).2.consumers = w.cluster.consumers := by
  have hcluster := h.settled.cluster
  obtain ⟨store, hafter, hstore, hissued, hsteps⟩ := Cluster.commit_steps hcluster.store i offsets
  rw [hafter]
  refine ⟨?_, ?_, rfl⟩
  · constructor
    · refine ⟨⟨hstore, hcluster.id_pos, ?_, hcluster.id_inj⟩, fun topic p n hn => ?_⟩
      · exact fun j l hl => Nat.le_trans (hcluster.id_le j l hl) hissued
      · rcases hsteps group topic p n hn with hold | ⟨k, o, hk, -, rfl, ho, rfl⟩
        · exact h.settled.positions topic p n hold
        · exact hoffsets k hk p o ho
    · exact h.tidy
    · exact h.resolved
    · exact h.reader
    · exact h.backed
  · apply Advances.of_members
    · exact fun _ _ hl => hl
    · exact fun _ hr => hr
    · exact fun _ _ _ _ _ _ hcover => hcover
    · exact fun _ e he => ⟨e, he, rfl⟩

/-! ## The ledger -/

/-- An entry changes its state and the outcomes grow. If the entry may be committed then, its record
has been resolved. -/
theorem transition (h : Sound group w) (more : List Resolution) (id : Nat) (next : EntryState)
    (hnext : next.isCommittable = true → ∀ e, w.ledger.entry? id = some e →
      Resolved (w.outcomes ++ more) e.record.topic e.record.partition e.record.offset) :
    Sound group { w with ledger := (w.ledger.transition id next).2
                         outcomes := w.outcomes ++ more } ∧
      Advances (fun _ => False) w { w with ledger := (w.ledger.transition id next).2
                                           outcomes := w.outcomes ++ more } := by
  have hgrow : ∀ r ∈ w.outcomes, r ∈ w.outcomes ++ more := fun r => List.mem_append_left more
  have hcover : ∀ consumer topic p o, w.cover consumer topic p o →
      cover { w with ledger := (w.ledger.transition id next).2, outcomes := w.outcomes ++ more }
        consumer topic p o := by
    intro consumer topic p o ho
    unfold cover at ho ⊢
    simpa using ho.imp_left fun hres => hres.mono hgrow
  constructor
  · constructor
    · exact ⟨h.settled.cluster, fun topic p n hn =>
        (h.settled.positions topic p n hn).mono fun _ hres => hres.mono hgrow⟩
    · exact h.tidy.transition id next
    · intro j e' he' hcommittable
      rw [Ledger.entry?_transition] at he'
      obtain ⟨e, he, heq⟩ := Option.map_eq_some_iff.mp he'
      split at heq
      · next hj =>
        subst heq hj
        -- a terminal state is kept, and any other gives way to the next one
        cases hterminal : e.state.isTerminal with
        | true =>
          rw [EntryState.moveTo_of_isTerminal hterminal] at hcommittable
          exact (h.resolved j e he hcommittable).mono hgrow
        | false =>
          have hmoved : EntryState.moveTo next e.state = next := by
            simp [EntryState.moveTo, hterminal]
          rw [hmoved] at hcommittable
          exact hnext hcommittable e he
      · subst heq
        exact (h.resolved j e he hcommittable).mono hgrow
    · intro key j hj
      rw [Ledger.queue_transition] at hj
      obtain ⟨e, i, k, he, hk, hkey, htopic⟩ := h.reader key j hj
      refine ⟨_, i, k, by rw [Ledger.entry?_transition, he]; rfl, hk, hkey, ?_⟩
      split <;> exact htopic
    · intro i k hk p j hj
      rw [Ledger.queue_transition] at hj
      rw [Ledger.offsetOf_transition]
      exact (h.backed i k hk p j hj).mono (hcover k.id k.topic p)
  · apply Advances.of_members
    · exact fun _ _ hl => hl
    · exact hgrow
    · exact fun _ k _ _ => hcover k.id k.topic
    · intro j e he
      refine ⟨_, by rw [Ledger.entry?_transition, he]; rfl, ?_⟩
      split <;> rfl

/-- A tracked entry that may be committed is resolved at the place its reader's topic gives it. -/
theorem resolved_of_committable (h : Sound group w) {i : Nat} {k : Consumer}
    (hk : w.cluster.consumer? i = some k) {p : Int} {id : Nat} (hid : id ∈ w.ledger.queue ⟨k.id, p⟩)
    (hcommittable : w.ledger.committable id = true) :
    Resolved w.outcomes k.topic p (w.ledger.offsetOf id) := by
  obtain ⟨e, j, l, he, hl, hid', htopic⟩ := h.reader _ id hid
  obtain ⟨e', he', -, hpartition⟩ := h.tidy.entry_of_mem_queue hid
  obtain rfl := Option.some.inj (he.symm.trans he')
  -- numbers are the consumers' own, so the reader is the consumer asked about
  obtain rfl := h.settled.cluster.id_inj i j k l hk hl hid'.symm
  obtain rfl := Option.some.inj (hk.symm.trans hl)
  have hstate : e.state.isCommittable = true := by
    simpa [Ledger.committable, Ledger.stateOf, he] using hcommittable
  have hresolved := h.resolved id e he hstate
  rw [htopic, hpartition] at hresolved
  simpa [Ledger.offsetOf, he] using hresolved

/-- What a pass takes out of the ledger stays covered, as resolved. -/
theorem cover_collect (h : Sound group w) {i : Nat} {k : Consumer}
    (hk : w.cluster.consumer? i = some k) (p o : Int) (hcover : w.cover k.id k.topic p o) :
    cover { w with ledger := w.ledger.collect.2 } k.id k.topic p o := by
  rcases hcover with hres | ⟨id, hid, rfl⟩
  · exact .inl hres
  -- released from the front of its queue, or left there
  · rw [← List.takeWhile_append_dropWhile (p := w.ledger.committable)
      (l := w.ledger.queue ⟨k.id, p⟩)] at hid
    rcases List.mem_append.mp hid with htaken | hleft
    · have hmem := (List.takeWhile_sublist _).mem htaken
      exact .inl (h.resolved_of_committable hk hmem (List.mem_takeWhile_imp htaken))
    · refine .inr ⟨id, ?_, rfl⟩
      rw [Ledger.queue_collect h.tidy]
      exact hleft

/-- Everything up to an offset that a pass reports has been resolved. -/
theorem resolved_of_mem_reports (h : Sound group w) {key : LedgerKey} {offset : Int}
    (hreport : (key, offset) ∈ w.ledger.collect.1.reports) :
    ∃ i k, w.cluster.consumer? i = some k ∧ k.id = key.consumer ∧
      (Resolved w.outcomes k.topic).UpTo key.partition (offset + 1) := by
  obtain ⟨last, hlast, rfl⟩ := (Ledger.mem_reports_collect h.tidy).mp hreport
  have htaken := List.mem_of_getLast? hlast
  have hmem := (List.takeWhile_sublist _).mem htaken
  obtain ⟨-, i, k, -, hk, hid, -⟩ := h.reader key last hmem
  obtain ⟨consumer, p⟩ := key
  obtain rfl : k.id = consumer := hid
  have hbacked := h.backed i k hk p last hmem
  refine ⟨i, k, hk, rfl, by have := hbacked.1; omega, fun o hnonneg hlt => ?_⟩
  rcases Int.lt_or_eq_of_le (Int.lt_add_one_iff.mp hlt) with hless | rfl
  · rcases hbacked.2 o hnonneg hless with hres | ⟨id, hid, rfl⟩
    · exact hres
    -- tracked with a smaller offset, so released as well
    · apply h.resolved_of_committable hk hid
      by_contra hopen
      have hbehind := Ledger.lt_of_mem_reports h.tidy hreport hid hopen
      exact absurd hless (Int.not_lt.mpr (Int.le_of_lt hbehind))
  · exact h.resolved_of_committable hk hmem (List.mem_takeWhile_imp htaken)

/-- A pass over the ledger. -/
theorem collect (h : Sound group w) :
    Sound group { w with ledger := w.ledger.collect.2 } ∧
      Advances (fun _ => False) w { w with ledger := w.ledger.collect.2 } := by
  constructor
  · constructor
    · exact h.settled
    · exact h.tidy.collect
    · exact h.resolved
    · intro key id hid
      rw [Ledger.queue_collect h.tidy] at hid
      exact h.reader key id ((List.dropWhile_sublist _).mem hid)
    · intro i k hk p id hid
      rw [Ledger.queue_collect h.tidy] at hid
      have hbacked := h.backed i k hk p id ((List.dropWhile_sublist _).mem hid)
      exact hbacked.mono (h.cover_collect hk p)
  · apply Advances.of_members
    · exact fun _ _ hl => hl
    · exact fun _ hr => hr
    · exact fun i k hk _ => h.cover_collect hk
    · exact fun _ e he => ⟨e, he, rfl⟩

/-- A record that the ledger refuses is not behind the last entry of its queue, so it is covered
already. -/
theorem cover_of_refused (h : Sound group w) {i : Nat} {k : Consumer}
    (hk : w.cluster.consumer? i = some k) {record : Record} {e : OutOfOrder}
    (hupTo : (w.cover k.id k.topic).UpTo record.partition record.offset)
    (hrefused : w.ledger.append k.id record = .error e) :
    w.cover k.id k.topic record.partition record.offset := by
  obtain ⟨tail, htail, hle⟩ := Ledger.append_eq_error hrefused
  rcases Int.lt_or_eq_of_le hle with hless | heq
  · exact (h.backed i k hk record.partition tail htail).2 record.offset hupTo.1 hless
  · exact .inr ⟨tail, htail, heq.symm⟩

/-- What is tracked has a number below the next one. -/
theorem lt_of_mem_queue (h : Sound group w) {key : LedgerKey} {id : Nat}
    (hid : id ∈ w.ledger.queue key) : id < w.ledger.entries.size :=
  h.tidy.lt_of_mem_tracked (h.tidy.mem_tracked_iff.mpr ⟨key, hid⟩)

/-- Tracking one more record uncovers nothing. -/
theorem cover_track (h : Sound group w) (reader : Nat) (record : Record) (consumer : Nat)
    (topic : String) (p o : Int) (hcover : w.cover consumer topic p o) :
    cover { w with ledger := w.ledger.track reader record } consumer topic p o := by
  rcases hcover with hres | ⟨id, hid, rfl⟩
  · exact .inl hres
  · refine .inr ⟨id, ?_, Ledger.offsetOf_track_of_lt (h.lt_of_mem_queue hid)⟩
    show id ∈ (w.ledger.track reader record).queue _
    rw [Ledger.queue_append h.tidy]
    split
    · exact List.mem_append_left _ hid
    · exact hid

/-- What a queue holds after one more record was tracked: what it held, and the new entry if the
queue is its own. -/
theorem mem_queue_track (h : Sound group w) {reader : Nat} {record : Record} {key : LedgerKey}
    {id : Nat} (hid : id ∈ (w.ledger.track reader record).queue key) :
    id ∈ w.ledger.queue key ∨
      id = w.ledger.entries.size ∧ key = ⟨reader, record.partition⟩ := by
  rw [Ledger.queue_append h.tidy] at hid
  split at hid
  · next hkey =>
    rcases List.mem_append.mp hid with hid | hid
    · exact .inl hid
    · exact .inr ⟨List.mem_singleton.mp hid, hkey⟩
  · exact .inl hid

/-- A record is tracked that its consumer's cover leads up to, behind the last entry of its
queue. -/
theorem track (h : Sound group w) {i : Nat} {k : Consumer} (hk : w.cluster.consumer? i = some k)
    {record : Record} (htopic : record.topic = k.topic)
    (hupTo : (w.cover k.id k.topic).UpTo record.partition record.offset)
    (hlast : ∀ tail, (w.ledger.queue ⟨k.id, record.partition⟩).getLast? = some tail →
      w.ledger.offsetOf tail < record.offset) :
    Sound group { w with ledger := w.ledger.track k.id record } ∧
      Advances (fun _ => False) w { w with ledger := w.ledger.track k.id record } := by
  have hcover := h.cover_track k.id record
  constructor
  · constructor
    · exact h.settled
    · exact h.tidy.track hlast
    · intro id e he hcommittable
      rw [Ledger.entry?_track] at he
      split at he
      -- the new entry is pending
      · obtain rfl := Option.some.inj he
        cases hcommittable
      · exact h.resolved id e he hcommittable
    · intro key id hid
      rcases h.mem_queue_track hid with hid | ⟨rfl, rfl⟩
      · obtain ⟨e, i', k', he, hreader⟩ := h.reader key id hid
        exact ⟨e, i', k', (Ledger.entry?_track_of_lt (h.lt_of_mem_queue hid)).trans he, hreader⟩
      · exact ⟨_, i, k, by rw [Ledger.entry?_track, if_pos rfl], hk, rfl, htopic⟩
    · intro i' k' hk' p id hid
      rcases h.mem_queue_track hid with hid | ⟨rfl, hkey⟩
      · show Cover.UpTo _ p ((w.ledger.track k.id record).offsetOf id)
        rw [Ledger.offsetOf_track_of_lt (h.lt_of_mem_queue hid)]
        exact (h.backed i' k' hk' p id hid).mono (hcover k'.id k'.topic p)
      · obtain ⟨hsame, rfl⟩ := LedgerKey.mk.inj hkey
        obtain rfl := h.settled.cluster.id_inj i' i k' k hk' hk hsame
        obtain rfl := Option.some.inj (hk.symm.trans hk')
        show Cover.UpTo _ _ ((w.ledger.track k.id record).offsetOf _)
        rw [Ledger.offsetOf_track_size]
        exact hupTo.mono (hcover k.id k.topic record.partition)
  · apply Advances.of_members
    · exact fun _ _ hl => hl
    · exact fun _ hr => hr
    · exact fun _ l _ _ => hcover l.id l.topic
    · exact fun id e he => ⟨e, (Ledger.entry?_track_of_lt (Ledger.entry?_lt he)).trans he, rfl⟩

/-- What holds behind the arrival of a record that its consumer's cover leads up to: it is covered
itself, whether the ledger tracks it or refuses it. -/
theorem arrive (h : Sound group w) {i : Nat} {k : Consumer} (hk : w.cluster.consumer? i = some k)
    {record : Record} (htopic : record.topic = k.topic)
    (hupTo : (w.cover k.id k.topic).UpTo record.partition record.offset) :
    (∃ e, w.ledger.append k.id record = .error e ∧
      w.cover k.id k.topic record.partition record.offset) ∨
    ∃ id ledger, w.ledger.append k.id record = .ok (id, ledger) ∧
      Sound group { w with ledger } ∧ Advances (fun _ => False) w { w with ledger } ∧
      cover { w with ledger } k.id k.topic record.partition record.offset := by
  cases happend : w.ledger.append k.id record with
  | error e => exact .inl ⟨e, rfl, h.cover_of_refused hk hupTo happend⟩
  | ok accepted =>
    obtain ⟨id, ledger⟩ := accepted
    obtain ⟨hlast, rfl, rfl⟩ := Ledger.append_eq_ok_iff.mp happend
    obtain ⟨hsound, hadvances⟩ := h.track hk htopic hupTo hlast
    refine .inr ⟨_, _, rfl, hsound, hadvances, ?_⟩
    refine .inr ⟨w.ledger.entries.size, ?_, Ledger.offsetOf_track_size⟩
    show _ ∈ (w.ledger.track k.id record).queue _
    rw [Ledger.queue_append h.tidy, if_pos rfl]
    exact List.mem_append_right _ (List.mem_singleton_self _)

/-- A consumer that will read no more is forgotten. -/
theorem forget (h : Sound group w) (consumer : Nat) :
    Sound group { w with ledger := (w.ledger.forget consumer).2 } ∧
      Advances (fun i => ∃ k, w.cluster.consumer? i = some k ∧ k.id = consumer) w
        { w with ledger := (w.ledger.forget consumer).2 } := by
  have hqueue := Ledger.queue_forget h.tidy consumer
  have hsub : ∀ key, ∀ j ∈ (w.ledger.forget consumer).2.queue key, j ∈ w.ledger.queue key := by
    intro key j hj
    rw [hqueue] at hj
    split at hj
    · cases hj
    · exact hj
  have hcover : ∀ id topic, id ≠ consumer → ∀ p o, w.cover id topic p o →
      cover { w with ledger := (w.ledger.forget consumer).2 } id topic p o := by
    rintro id topic hne p o (hres | ⟨j, hj, rfl⟩)
    · exact .inl hres
    · refine .inr ⟨j, ?_, rfl⟩
      rw [hqueue, if_neg hne]
      exact hj
  constructor
  · constructor
    · exact h.settled
    · exact h.tidy.forget consumer
    · exact h.resolved
    · exact fun key id hid => h.reader key id (hsub key id hid)
    · intro j l hl p id hid
      have hne : l.id ≠ consumer := by
        intro heq
        rw [hqueue, if_pos heq] at hid
        cases hid
      exact (h.backed j l hl p id (hsub _ id hid)).mono (hcover l.id l.topic hne p)
  · apply Advances.of_members
    · exact fun _ _ hl => hl
    · exact fun _ hr => hr
    · exact fun j l hl hown => hcover l.id l.topic fun heq => hown ⟨l, hl, heq⟩
    · exact fun _ e he => ⟨e, he, rfl⟩

/-! ## New members -/

/-- A consumer joins. Nobody has tracked anything for it, since its number is new. -/
theorem join (h : Sound group w) {c : Cluster σ} {id broker : Nat} {name topic : String}
    {partitions : Int} (hmoved : Unmoved w.cluster.store c.store)
    (hlt : issued w.cluster.store < id) (hle : id ≤ issued c.store)
    (hconsumers : c.consumers =
      w.cluster.consumers.push { id, broker, group := name, topic, partitions }) :
    Sound group { w with cluster := c } ∧ Advances (fun _ => False) w { w with cluster := c } := by
  have hcluster := h.settled.cluster
  constructor
  · constructor
    · refine ⟨hcluster.push hmoved hlt hle hconsumers, fun topic p n hn => ?_⟩
      rw [hmoved.position_eq] at hn
      exact h.settled.positions topic p n hn
    · exact h.tidy
    · exact h.resolved
    · intro key j hj
      obtain ⟨e, i, k, he, hk, hkey⟩ := h.reader key j hj
      exact ⟨e, i, k, he, Cluster.consumer?_push_of_some hconsumers hk, hkey⟩
    · intro i k hk p j hj
      rcases Cluster.consumer?_push_cases hconsumers hk with hk | ⟨-, rfl⟩
      · exact h.backed i k hk p j hj
      -- a tracked record was read by somebody with an older number
      · obtain ⟨-, i', k', -, hk', hid, -⟩ := h.reader _ j hj
        have hsmall := hcluster.id_le i' k' hk'
        have heq : k'.id = id := hid
        omega
  · apply Advances.of_members
    · exact fun _ _ => Cluster.consumer?_push_of_some hconsumers
    · exact fun _ hr => hr
    · exact fun _ _ _ _ _ _ hcover => hcover
    · exact fun _ e he => ⟨e, he, rfl⟩

/-! ## Other queues -/

/-- A queue that has lost what it had in memory has nothing to account for. -/
theorem empty {c : Cluster σ} {outcomes : List Resolution} (h : Settled group c outcomes) :
    Sound group ⟨c, {}, outcomes⟩ := by
  have hnothing : ∀ key, Ledger.queue {} key = [] := fun key => rfl
  refine ⟨h, Ledger.tidy_empty, fun id e he _ => ?_, fun key id hid => ?_, fun i k _ p id hid => ?_⟩
  · simp [Ledger.entry?] at he
  · rw [hnothing] at hid
    cases hid
  · have hid' : id ∈ Ledger.queue {} ⟨k.id, p⟩ := hid
    rw [hnothing] at hid'
    cases hid'

/-- What one queue does is no concern of a ledger beside its own. -/
theorem beside {ledger ledger' : Ledger} {c c' : Cluster σ} {outcomes outcomes' : List Resolution}
    {l : Ledger} (h : Sound group ⟨c, l, outcomes⟩)
    (hadvances : Advances own ⟨c, ledger, outcomes⟩ ⟨c', ledger', outcomes'⟩)
    (hsettled : Settled group c' outcomes') :
    Sound group ⟨c', l, outcomes'⟩ ∧ Advances own ⟨c, l, outcomes⟩ ⟨c', l, outcomes'⟩ := by
  have hcover : ∀ consumer topic p o, cover ⟨c, l, outcomes⟩ consumer topic p o →
      cover ⟨c', l, outcomes'⟩ consumer topic p o := fun consumer topic p o ho =>
    ho.imp_left fun hres => hres.mono hadvances.outcomes
  constructor
  · constructor
    · exact hsettled
    · exact h.tidy
    · exact fun id e he hstate => (h.resolved id e he hstate).mono hadvances.outcomes
    · intro key id hid
      obtain ⟨e, i, k, he, hk, hkey, htopic⟩ := h.reader key id hid
      obtain ⟨k', hk', hsame, -⟩ := hadvances.same i k hk
      exact ⟨e, i, k', he, hk', hsame.id_eq.trans hkey, htopic.trans hsame.topic_eq.symm⟩
    · intro i' k' hk' p id hid
      -- whoever tracked the record was there before, and nobody else has that number
      obtain ⟨-, i, k, -, hk, hkey, -⟩ := h.reader _ id hid
      obtain ⟨k'', hk'', hsame, -⟩ := hadvances.same i k hk
      obtain rfl := hsettled.cluster.id_inj i i' k'' k' hk'' hk' (hsame.id_eq.trans hkey)
      obtain rfl := Option.some.inj (hk''.symm.trans hk')
      rw [hsame.id_eq] at hid ⊢
      rw [hsame.topic_eq]
      exact (h.backed i k hk p id hid).mono (hcover k.id k.topic p)
  · exact ⟨hadvances.outcomes, hadvances.same, fun i k _ _ => hcover k.id k.topic,
      fun _ e he => ⟨e, he, rfl⟩⟩

end Sound

end World

end WorkQueue
