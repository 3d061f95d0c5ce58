import WorkQueue.Proofs.Cluster.Calls
import WorkQueue.Proofs.Store.Records

/-!
# A partition in one hand

From the turn that opens a partition up to the one that drops it, a consumer is given the records of
the partition one after the other, as the store holds them, beginning at the group's position when
it was opened. Generations that leave the partition to the consumer make no difference, nor do other
partitions that share its buffer, nor records that arrive while a batch is half given out.

## Main definitions

* `Cluster.holds`, `Cluster.keeps`: a consumer has a position in a partition, now and for some time
* `Cluster.Stocked`: everything buffered is in the store

## Main statements

* `Consumer.ensures_stocked`: what a turn hands out is in the store
* `Cluster.given_consecutive`: what is given while the partition is held
-/

namespace WorkQueue

open StoreView RecordStore

/-! ## Turns -/

section

variable {σ : Type} [LogStore σ] [RecordStore σ] {s s' : σ} {f : Fetch} {topic : String}

/-- Everything that is buffered is in the store. -/
structure Fetch.Stocked (topic : String) (f : Fetch) (s : σ) : Prop where
  store : Sound s
  buffer : ∀ r ∈ f.buffer, r ∈ records s topic r.partition

theorem Fetch.Stocked.later (h : f.Stocked topic s) {allowed : StoreCall → Prop}
    (hs' : Reached allowed s s') : f.Stocked topic s' :=
  ⟨hs'.sound h.store, fun r hr => hs'.mem_records h.store (h.buffer r hr)⟩

/-- Everything that a turn hands out or leaves in the buffer is in the store. -/
theorem Consumer.ensures_stocked {k : Consumer} (h : f.Stocked k.topic s) (now timeout : Nat) :
    Ensures (k.turn now timeout) (f, s) fun result after =>
      ∀ r ∈ handed result ++ after.1.buffer, r ∈ records after.2 k.topic r.partition := by
  have rule : k.TurnRule now timeout (Fetch.Stocked k.topic) (fun _ _ => Fetch.Stocked k.topic)
      (Fetch.Stocked k.topic) fun result f (s : σ) =>
        ∀ r ∈ handed result ++ f.buffer, r ∈ records s k.topic r.partition := by
    constructor
    case told =>
      intro f s hstocked
      have hcalls : Calls AnyCall (k.assignment now timeout : StoreM σ (Nat × List Int)) :=
        k.calls_assignment trivial
      apply (hcalls s).mono
      intro result s' hs'
      have hstocked' := hstocked.later hs'
      rcases result with e | ⟨generation, assigned⟩
      · exact hstocked'.buffer
      · dsimp only
        split
        · exact hstocked'
        · exact ⟨hstocked'.store, fun r hr => hstocked'.buffer r (List.mem_filter.mp hr).1⟩
    case opened =>
      intro _ _ f s p hstocked _ _
      have hcalls : Calls AnyCall (LogStore.committed k.group k.topic p : StoreM σ (Option Int)) :=
        calls_committed trivial
      apply (hcalls s).mono
      intro result s' hs'
      have hstocked' := hstocked.later hs'
      cases result with
      | error e => exact hstocked'.buffer
      | ok position => exact ⟨hstocked'.store, hstocked'.buffer⟩
    case noted => exact fun _ _ _ _ hstocked => ⟨hstocked.store, hstocked.buffer⟩
    case handed =>
      intro f s r rest hstocked hbuffer r' hr'
      exact hstocked.buffer r' (hbuffer ▸ hr')
    case fetched =>
      intro f s slot p start hstocked hempty _
      have hcalls : Calls AnyCall (LogStore.read k.topic p start fetchBatch : StoreM σ (List Record)) :=
        calls_read trivial
      refine ((hcalls s).and (read_records k.topic p start fetchBatch s hstocked.store)).mono ?_
      intro result s' ⟨hs', hfound⟩
      have hstocked' := hstocked.later hs'
      cases result with
      | error e => exact hstocked'.buffer
      | ok found =>
        dsimp only
        cases found.getLast? with
        | none => exact hstocked'
        | some last =>
          -- nothing was buffered, so the buffer is what has been read
          intro r hr
          have hr' : r ∈ f.buffer ++ found := hr
          rw [hempty, List.nil_append] at hr'
          have hmem := hfound found rfl r hr'
          have hplace := (records_consecutive s hstocked.store k.topic p).partition_of_mem hmem
          rw [hplace]
          exact hs'.mem_records hstocked.store hmem
    case idled => exact fun _ _ hstocked _ => hstocked.buffer
  exact rule.ensures h

end

/-! ## What happens while a partition is held -/

namespace Cluster

section

variable {σ : Type}

/-- Consumer `i` has a position in partition `p`. -/
def holds (i : Nat) (p : Int) (c : Cluster σ) : Bool :=
  (c.consumer? i).any fun k => (k.fetch.position? p).isSome

variable [LogStore σ]

theorem given_cons (i : Nat) (p : Int) (a : Act) (rest : List Act) (c : Cluster σ) :
    given i p (a :: rest) c = given i p [a] c ++ given i p rest (a.on c) := by
  simp [given]

/-- Consumer `i` has a position in partition `p` behind each of the acts. -/
def keeps (i : Nat) (p : Int) : List Act → Cluster σ → Bool
  | [], _ => true
  | a :: rest, c => (a.on c).holds i p && keeps i p rest (a.on c)

end

variable {σ : Type} [LogStore σ]

section

variable [LawfulStore σ] {c : Cluster σ} {i : Nat} {k : Consumer} {p : Int}

/-- An act behind which the partition is held gives what comes next. -/
theorem Linked.given_on (h : c.Linked) (hk : c.consumer? i = some k) {a : Act}
    (hheld : (a.on c).holds i p = true) {start : Int}
    (hstart : (k.fetch.resume? p).getD (max ((position c.store k.group k.topic p).getD 0) 0) =
      start) :
    Consecutive k.topic p start (given i p [a] c) ∧ ∃ k', (a.on c).consumer? i = some k' ∧
      k.Same k' ∧ k'.fetch.resume? p = some (start + (given i p [a] c).length) := by
  obtain ⟨k', hk', hsame, hstep⟩ := turned_on h.store a hk
  have hposition : k'.fetch.position? p ≠ none := by
    simpa [holds, hk', Option.isSome_iff_ne_none] using hheld
  simp only [given, List.append_nil]
  rcases hstep with ⟨hfetch, hnothing⟩ | ⟨result, hturned, hhanded, -⟩
  · -- nothing has been read, so the partition was held before and nothing of it is given
    rw [hfetch] at hposition
    obtain ⟨n, hn⟩ := Option.ne_none_iff_exists'.mp hposition
    obtain ⟨next, hnext, -⟩ := (h.fetch i k hk).resume?_eq hn
    rw [hnext, Option.getD_some] at hstart
    rw [hnothing]
    refine ⟨trivial, k', hk', hsame, ?_⟩
    rw [hfetch, hnext, hstart]
    simp
  · obtain ⟨hconsecutive, hresume⟩ := hturned.consecutive_of_held (h.fetch i k hk) hposition
    rw [hhanded]
    rw [hstart] at hconsecutive hresume
    exact ⟨hconsecutive, k', hk', hsame, hresume⟩

/-- An act behind which the partition is not held gives nothing of it. -/
theorem Linked.given_dropped (h : c.Linked) (hk : c.consumer? i = some k) {a : Act}
    (hdropped : (a.on c).holds i p = false) : given i p [a] c = [] := by
  obtain ⟨k', hk', hsame, hstep⟩ := turned_on h.store a hk
  have hposition : k'.fetch.position? p = none := by
    simpa [holds, hk'] using hdropped
  simp only [given, List.append_nil]
  rcases hstep with ⟨-, hnothing⟩ | ⟨result, hturned, hhanded, -⟩
  · rw [hnothing]
    rfl
  · rw [hhanded]
    exact hturned.nothing_of_dropped (h.fetch i k hk) hposition

/-- While the partition is held, its records come one after the other. -/
theorem Linked.given_keeps (h : c.Linked) (hk : c.consumer? i = some k) {acts : List Act}
    (hkeeps : keeps i p acts c = true) {start : Int}
    (hstart : (k.fetch.resume? p).getD (max ((position c.store k.group k.topic p).getD 0) 0) =
      start) : Consecutive k.topic p start (given i p acts c) := by
  induction acts generalizing c k start with
  | nil => trivial
  | cons a rest ih =>
    simp only [keeps, Bool.and_eq_true] at hkeeps
    obtain ⟨hfirst, k', hk', hsame, hresume⟩ := h.given_on hk hkeeps.1 hstart
    rw [given_cons]
    refine Consecutive.append_iff.mpr ⟨hfirst, ?_⟩
    rw [← hsame.topic_eq]
    exact ih (h.on a) hk' hkeeps.2 (by rw [hresume, Option.getD_some])

end

/-! ## What is in the store -/

variable [RecordStore σ] {c : Cluster σ} {i : Nat} {k : Consumer} {p : Int}

/-- Everything that is buffered is in the store. -/
def Stocked (c : Cluster σ) : Prop :=
  ∀ i k, c.consumer? i = some k → k.fetch.Stocked k.topic c.store

theorem mem_records_on (h : StoreView.Sound c.store) (a : Act) {topic : String} {r : Record}
    (hr : r ∈ records c.store topic p) : r ∈ records (a.on c).store topic p :=
  (later_on a c).mem_records h hr

theorem mem_records_after (h : StoreView.Sound c.store) (acts : List Act) {topic : String}
    {r : Record} (hr : r ∈ records c.store topic p) :
    r ∈ records (c.after acts).store topic p := by
  induction acts generalizing c with
  | nil => exact hr
  | cons a rest ih => exact ih (sound_on h a) (mem_records_on h a hr)

theorem Stocked.turn (h : c.Stocked) (hc : StoreView.Sound c.store) (j : Nat) :
    ((turn j).on c).2.Stocked ∧ ∀ k, c.consumer? j = some k →
      ∀ r ∈ Consumer.handed ((turn j).on c).1,
        r ∈ records ((turn j).on c).2.store k.topic r.partition := by
  cases hj : c.consumer? j with
  | none =>
    rw [on_turn_none j hj]
    exact ⟨h, nofun⟩
  | some k =>
    have hturn := Consumer.ensures_stocked (h j k hj) c.wall (c.broker k.broker).sessionTimeout
    have hreached : Reached AnyCall c.store ((Cluster.turn j).on c).2.store :=
      reached_turn j fun _ _ => ⟨trivial, fun _ => trivial, fun _ _ => trivial⟩
    have hsound := (steady_turn hc j).store.sound
    constructor
    · intro i k' hk'
      rw [consumer?_turn j hj] at hk'
      split at hk'
      · next hij =>
        subst hij
        rw [hj] at hk'
        obtain rfl := Option.some.inj hk'
        rw [on_turn j hj] at hsound ⊢
        exact ⟨hsound, fun r hr => hturn r (List.mem_append_right _ hr)⟩
      · exact (h i k' hk').later hreached
    · intro k' hk' r hr
      obtain rfl := Option.some.inj hk'
      rw [on_turn j hj] at hr ⊢
      exact hturn r (List.mem_append_left _ hr)

/-- Whatever happens, everything buffered or given is in the store. -/
theorem Stocked.on (h : c.Stocked) (hc : StoreView.Sound c.store) (a : Act) :
    (a.on c).Stocked ∧ ∀ k, c.consumer? i = some k →
      ∀ r ∈ Cluster.given i p [a] c, r ∈ records (a.on c).store k.topic p := by
  simp only [given, List.append_nil]
  rcases on_cases hc a with ⟨hstill, hnothing⟩ | ⟨j, hon, hothers, hhanded, -⟩
  · constructor
    · intro j k' hk'
      cases hk : c.consumer? j with
      | none =>
        rw [hstill.fresh j k' hk hk']
        exact ⟨hstill.store, nofun⟩
      | some k =>
        obtain ⟨k'', hk'', hsame, hfetch⟩ := hstill.same j k hk
        obtain rfl := Option.some.inj (hk''.symm.trans hk')
        rw [hfetch, hsame.topic_eq]
        exact (h j k hk).later (later_on a c)
    · intro k _ r hr
      rw [hnothing i] at hr
      cases hr
  · obtain ⟨hstocked, hgiven⟩ := h.turn hc j
    rw [hon]
    refine ⟨hstocked, fun k hk r hr => ?_⟩
    obtain ⟨hr, hp⟩ := List.mem_filter.mp hr
    by_cases hij : i = j
    · subst hij
      rw [hhanded] at hr
      have hmem := hgiven k hk r hr
      rw [beq_iff_eq.mp hp] at hmem
      exact hmem
    · rw [hothers i hij] at hr
      cases hr

theorem Stocked.given (h : c.Stocked) (hc : c.Linked) (hk : c.consumer? i = some k)
    (acts : List Act) : ∀ r ∈ Cluster.given i p acts c, r ∈ records (c.after acts).store k.topic p := by
  induction acts generalizing c k with
  | nil => exact fun _ hr => by cases hr
  | cons a rest ih =>
    obtain ⟨hstocked, hfirst⟩ := h.on (i := i) (p := p) hc.store a
    obtain ⟨k', hk', hsame, -⟩ := turned_on hc.store a hk
    intro r hr
    rw [given_cons] at hr
    rcases List.mem_append.mp hr with hr | hr
    · exact mem_records_after (sound_on hc.store a) rest (hfirst k hk r hr)
    · rw [← hsame.topic_eq]
      exact ih hstocked (hc.on a) hk' r hr

theorem Idle.stocked_after (h : c.Idle) (acts : List Act) : (c.after acts).Stocked := by
  have hstart : c.Linked ∧ c.Stocked :=
    ⟨h.linked_after [], fun i k hk => by simp [consumer?, h.alone] at hk⟩
  clear h
  induction acts generalizing c with
  | nil => exact hstart.2
  | cons a rest ih =>
    exact ih ⟨hstart.1.on a, (hstart.2.on (i := 0) (p := 0) hstart.1.store a).1⟩

/-! ## From opening to dropping -/

/-- Consumer `i` has no position in partition `p`, and then has one behind each of the acts; the
first of them opens it at the group's position. What it is given of the partition are the records
that the store holds from there on, one after the other. The act that drops the partition gives
nothing of it any more. -/
theorem given_consecutive {c₀ : Cluster σ} (h : c₀.Idle) {before : List Act}
    (hc : c₀.after before = c) (hk : c.consumer? i = some k) (hnew : c.holds i p = false)
    {acts : List Act} (hkeeps : keeps i p acts c = true) {stored : Int}
    (hstored : (position c.store k.group k.topic p).getD 0 = stored) :
    Consecutive k.topic p (max stored 0) (given i p acts c) ∧
      (∀ r ∈ given i p acts c,
        (records (c.after acts).store k.topic p)[r.offset.toNat]? = some r) ∧
      ∀ a : Act, (a.on (c.after acts)).holds i p = false → given i p [a] (c.after acts) = [] := by
  have hlinked : c.Linked := hc ▸ h.linked_after before
  have hstocked : c.Stocked := hc ▸ h.stocked_after before
  have hlinked' : (c.after acts).Linked := by
    rw [← hc, ← after_append]
    exact h.linked_after (before ++ acts)
  refine ⟨?_, fun r hr => ?_, fun a hdropped => ?_⟩
  · have hposition : k.fetch.position? p = none := by simpa [holds, hk] using hnew
    apply hlinked.given_keeps hk hkeeps
    rw [(hlinked.fetch i k hk).resume?_eq_none hposition, hstored]
    rfl
  · have hmem := hstocked.given hlinked hk acts r hr
    have hfound := (records_consecutive _ hlinked'.store k.topic p).getElem?_offset hmem
    rw [Int.sub_zero] at hfound
    exact hfound
  · obtain ⟨k', hk', -⟩ := consumer?_after hlinked.store hk acts
    exact hlinked'.given_dropped hk' hdropped

/-- Partition 0 holds records of which the first is committed, and consumer 0 joins. -/
def committedOnce : List Act :=
  let put (value : UInt8) : Act := .outside (.append "t" 0 "k" ⟨#[value]⟩)
  [.outside (.createTopic "t" 2), put 97, put 98, put 99, .outside (.commit "g" "t" 0 1),
    .subscribe 0 "g" "t"]

/-- Consumer 0 reads, gives partition 1 to a consumer that joins, and goes on with partition 0, where
another record has arrived. -/
def readOn : List Act :=
  [.poll 0 atOnce, .poll 0 atOnce, .subscribe 0 "g" "t",
    .outside (.append "t" 0 "k" ⟨#[100]⟩), .poll 0 atOnce, .poll 0 atOnce, .poll 0 atOnce]

theorem given_readOn :
    let c := deserted.after committedOnce
    (given 0 0 readOn c).length = 3 ∧ Consecutive "t" 0 1 (given 0 0 readOn c) ∧
      ∀ r ∈ given 0 0 readOn c, (records (c.after readOn).store "t" 0)[r.offset.toNat]? = some r := by
  intro c
  have hlength : (given 0 0 readOn c).length = 3 := by decide +kernel
  have hplace : (c.consumer? 0).map (fun k => (k.group, k.topic)) = some ("g", "t") := by
    decide +kernel
  obtain ⟨k, hk, heq⟩ := Option.map_eq_some_iff.mp hplace
  obtain ⟨hgroup, htopic⟩ := Prod.mk.inj heq
  have hnew : c.holds 0 0 = false := by decide +kernel
  have hkeeps : keeps 0 0 readOn c = true := by decide +kernel
  have hstored : (position c.store k.group k.topic 0).getD 0 = 1 := by
    rw [hgroup, htopic]
    decide +kernel
  have hc : deserted.after committedOnce = c := rfl
  clear_value c
  obtain ⟨hconsecutive, hstore, -⟩ := given_consecutive idle_deserted hc hk hnew hkeeps hstored
  rw [htopic] at hconsecutive hstore
  exact ⟨hlength, hconsecutive, hstore⟩

end Cluster

end WorkQueue
