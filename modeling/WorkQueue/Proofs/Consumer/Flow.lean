import WorkQueue.Proofs.Consumer.Positions
import WorkQueue.Proofs.Consumer.Reading

/-!
# Records on their way

Records that a consumer has read pass through several hands before they are tracked: its buffer, its
intake loop, the channel. What matters about all of them is the same. A record on its way is backed
if each smaller offset of its partition is covered already or is on its way in front of it, so that
nothing is skipped if the records arrive in this order and some of them are dropped from the end on.

Which offsets are covered is left open here: a cover is any set of places.

## Main definitions

* `Cover`, `Backed`: covered places, records on their way
* `Fetch.Flow`: what holds of the state of a consumer

## Main statements

* `Fetch.keeps_flow`: reading keeps it
-/

namespace WorkQueue

/-- A set of places in the partitions of a topic: partition and offset. -/
abbrev Cover := Int → Int → Prop

namespace Cover

/-- Every smaller offset of the partition is covered. -/
def UpTo (c : Cover) (partition offset : Int) : Prop :=
  0 ≤ offset ∧ ∀ o, 0 ≤ o → o < offset → c partition o

/-- The places covered once some records have arrived. -/
def behind (c : Cover) (records : List Record) : Cover := fun p o =>
  c p o ∨ ∃ r ∈ records, r.partition = p ∧ r.offset = o

variable {c c' : Cover} {p o : Int} {r : Record} {records more : List Record}

theorem UpTo.mono (h : c.UpTo p o) (hc : ∀ o, c p o → c' p o) : c'.UpTo p o :=
  ⟨h.1, fun o' hnonneg hlt => hc o' (h.2 o' hnonneg hlt)⟩

/-- A place that is covered itself. -/
theorem UpTo.next (h : c.UpTo p o) (hself : c p o) : c.UpTo p (o + 1) := by
  refine ⟨by have := h.1; omega, fun o' hnonneg hlt => ?_⟩
  rcases Int.lt_or_eq_of_le (Int.lt_add_one_iff.mp hlt) with hless | rfl
  · exact h.2 o' hnonneg hless
  · exact hself

@[simp] theorem behind_nil : c.behind [] = c := by
  funext p o
  simp [behind]

theorem behind_append : c.behind (records ++ more) = (c.behind records).behind more := by
  funext p o
  simp [behind, or_assoc, or_and_right, exists_or]

theorem behind_cons : c.behind (r :: records) = (c.behind [r]).behind records := by
  rw [← behind_append]
  rfl

theorem behind_mono (hc : ∀ o, c p o → c' p o) (o : Int) (h : c.behind records p o) :
    c'.behind records p o :=
  h.imp_left (hc o)

theorem behind_of_cover (h : c p o) : c.behind records p o := .inl h

end Cover

/-! ## Backed records -/

/-- Records of a topic on their way, the first one about to arrive. -/
def Backed (topic : String) : Cover → List Record → Prop
  | _, [] => True
  | c, r :: rest => r.topic = topic ∧ c.UpTo r.partition r.offset ∧ Backed topic (c.behind [r]) rest

namespace Backed

variable {topic : String} {c c' : Cover} {records more : List Record}

theorem mono (h : Backed topic c records) (hc : ∀ p o, c p o → c' p o) :
    Backed topic c' records := by
  induction records generalizing c c' with
  | nil => trivial
  | cons r rest ih =>
    obtain ⟨htopic, hupTo, hrest⟩ := h
    exact ⟨htopic, hupTo.mono (hc _), ih hrest fun p o => Cover.behind_mono (hc p) o⟩

theorem append_iff :
    Backed topic c (records ++ more) ↔
      Backed topic c records ∧ Backed topic (c.behind records) more := by
  induction records generalizing c with
  | nil => simp [Backed]
  | cons r rest ih =>
    rw [Cover.behind_cons]
    simp only [List.cons_append, Backed, ih, and_assoc]

/-- Dropping whole partitions leaves the others as they are. -/
theorem filter (h : Backed topic c records) (keep : Int → Bool)
    (hc : ∀ p, keep p = true → ∀ o, c p o → c' p o) :
    Backed topic c' (records.filter fun r => keep r.partition) := by
  induction records generalizing c c' with
  | nil => trivial
  | cons r rest ih =>
    obtain ⟨htopic, hupTo, hrest⟩ := h
    cases hkeep : keep r.partition with
    | true =>
      rw [List.filter_cons_of_pos (by exact hkeep)]
      refine ⟨htopic, hupTo.mono (hc _ hkeep), ih hrest fun p hp => ?_⟩
      exact Cover.behind_mono (hc p hp)
    | false =>
      rw [List.filter_cons_of_neg (by simp [hkeep])]
      apply ih hrest
      intro p hp o ho
      rcases ho with ho | ⟨r', hr', rfl, -⟩
      · exact hc p hp o ho
      -- the record that is dropped belongs to another partition
      · obtain rfl := List.mem_singleton.mp hr'
        rw [hkeep] at hp
        cases hp

end Backed

/-- Records without a gap are backed if the first one is, and so is the offset behind the last. -/
theorem Consecutive.backed {topic : String} {p start : Int} {c : Cover} {records : List Record}
    (h : Consecutive topic p start records) (hstart : c.UpTo p start) :
    Backed topic c records ∧
      ∀ last, records.getLast? = some last → (c.behind records).UpTo p (last.offset + 1) := by
  induction records generalizing start c with
  | nil => exact ⟨trivial, fun _ hlast => by cases hlast⟩
  | cons r rest ih =>
    obtain ⟨htopic, rfl, rfl, hrest⟩ := h
    -- once the first record is there, the offset behind it is backed
    have hnext : (c.behind [r]).UpTo r.partition (r.offset + 1) :=
      (hstart.mono fun _ => .inl).next (.inr ⟨r, List.mem_singleton_self r, rfl, rfl⟩)
    obtain ⟨hbacked, hend⟩ := ih hrest hnext
    refine ⟨⟨htopic, hstart, hbacked⟩, fun last hlast => ?_⟩
    cases rest with
    | nil =>
      obtain rfl := Option.some.inj hlast
      exact hnext
    | cons second rest =>
      rw [List.getLast?_cons_cons] at hlast
      rw [Cover.behind_cons]
      exact hend last hlast

/-! ## The state of a consumer -/

namespace Fetch

/-- The buffer is backed, and each position is where the buffer ends. -/
structure Flow (topic : String) (c : Cover) (f : Fetch) : Prop where
  backed : Backed topic c f.buffer
  reached : ∀ p n, (p, n) ∈ f.positions → (c.behind f.buffer).UpTo p n

variable {topic : String} {c c' : Cover} {f : Fetch}

theorem Flow.mono (h : Flow topic c f) (hc : ∀ p o, c p o → c' p o) : Flow topic c' f where
  backed := h.backed.mono hc
  reached p n hp := (h.reached p n hp).mono fun o => Cover.behind_mono (hc p) o

/-- A state with nothing read. -/
theorem flow_empty : Flow topic c {} := ⟨trivial, fun _ _ h => by cases h⟩

/-- What is handed out goes in front of what stays in the buffer. -/
theorem Flow.split {records : List Record}
    (h : Flow topic c { f with buffer := records ++ f.buffer }) :
    Backed topic c records ∧ Flow topic (c.behind records) f := by
  obtain ⟨hrecords, hrest⟩ := Backed.append_iff.mp h.backed
  refine ⟨hrecords, hrest, fun p n hp => ?_⟩
  rw [← Cover.behind_append]
  exact h.reached p n hp

/-- Reading keeps the flow, as long as the group's position has been covered. -/
theorem keeps_flow {k : Consumer} {position : Int → Option Int}
    (hposition : ∀ p n, position p = some n → c.UpTo p n) :
    k.Keeps position (Flow k.topic c) where
  retain f assigned h := by
    -- whole partitions are dropped, so no gap opens in one that is kept
    refine ⟨h.backed.filter assigned.contains fun _ _ _ => id, fun p n hp => ?_⟩
    obtain ⟨hmem, hassigned⟩ := List.mem_filter.mp hp
    refine (h.reached p n hmem).mono fun o ho => ho.imp_right ?_
    rintro ⟨r, hr, rfl, rfl⟩
    exact ⟨r, List.mem_filter.mpr ⟨hr, hassigned⟩, rfl, rfl⟩
  opening f p h _ := by
    refine ⟨h.backed, fun p' n' hp' => ?_⟩
    rcases mem_insertPosition hp' with heq | hmem
    · obtain ⟨rfl, rfl⟩ := Prod.mk.inj heq
      refine Cover.UpTo.mono ?_ fun o => Cover.behind_of_cover
      -- without a position of the group the partition is read from its beginning
      cases hn : position p' with
      | some n => exact hposition p' n hn
      | none => exact ⟨Int.le_refl 0, fun o hnonneg hlt => absurd hlt (Int.not_lt.mpr hnonneg)⟩
    · exact h.reached p' n' hmem
  noting f _ h := ⟨h.backed, h.reached⟩
  take f slot p start records last h hslot hrecords hlast := by
    -- the batch begins where the buffer ends, and the new position is where the batch ends
    have hstart := h.reached p start (List.mem_of_getElem? hslot)
    rw [Int.max_eq_left hstart.1] at hrecords
    obtain ⟨hbacked, hend⟩ := hrecords.backed hstart
    refine ⟨Backed.append_iff.mpr ⟨h.backed, hbacked⟩, fun p' n' hp' => ?_⟩
    show (c.behind (f.buffer ++ records)).UpTo p' n'
    rw [Cover.behind_append]
    rcases mem_insertPosition hp' with heq | hmem
    · obtain ⟨rfl, rfl⟩ := Prod.mk.inj heq
      exact hend last hlast
    · exact (h.reached p' n' hmem).mono fun o => Cover.behind_of_cover

end Fetch

end WorkQueue
