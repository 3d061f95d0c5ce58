import WorkQueue.Proofs.Consumer.Positions
import WorkQueue.Proofs.Consumer.Reading

/-!
# Where a consumer goes on

For each partition a consumer knows the offset it hands out next: that of the first record it has
buffered, or else its position. Fetching does not change it, and handing out a record moves it by
one. So what a consumer hands out of a partition follows from where it goes on once it has noted a
generation. It goes on from the group's position only if it held nothing of the partition before;
otherwise it goes on where it was, even if others have had the partition meanwhile.

## Main definitions

* `Fetch.resume?`: the next offset handed out of a partition
* `Fetch.Linked`: buffer and positions belong together
* `Fetch.Yields`: what is handed out of a partition between two states

## Main statements

* `Fetch.keeps_linked`: reading keeps buffer and positions together
* `Consumer.Synced.resume`: where a turn goes on
* `Consumer.Turned.yields_of_same`, `Consumer.Turned.yields`: what a turn hands out
* `Consumer.Turned.consecutive_of_held`: what it hands out of a partition that it leaves with the
  consumer
-/

namespace WorkQueue

/-! ## The next offset of a partition -/

namespace Fetch

/-- The position of a partition. -/
def position? (f : Fetch) (p : Int) : Option Int := f.positions.lookup p

/-- What is buffered of a partition. -/
def bufferOf (f : Fetch) (p : Int) : List Record := f.buffer.filter (·.partition == p)

/-- The offset that is handed out next of a partition. There are no records at negative ones. -/
def resume? (f : Fetch) (p : Int) : Option Int :=
  match (f.bufferOf p).head? with
  | some r => some r.offset
  | none => (f.position? p).map (max · 0)

/-- Every buffered record belongs to a partition with a position, and the position stands behind the
last one of them. -/
structure Linked (topic : String) (f : Fetch) : Prop where
  ascending : Ascending f.positions
  held : ∀ p, f.position? p = none → f.bufferOf p = []
  joined : ∀ p n, f.position? p = some n → ∃ start, Consecutive topic p start (f.bufferOf p) ∧
    start + (f.bufferOf p).length = max n 0

variable {topic : String} {f : Fetch}

/-- A consumer goes on with what it has buffered. -/
theorem Linked.resume?_eq (h : f.Linked topic) {p n : Int} (hn : f.position? p = some n) :
    ∃ start, f.resume? p = some start ∧ Consecutive topic p start (f.bufferOf p) ∧
      start + (f.bufferOf p).length = max n 0 := by
  obtain ⟨start, hrecords, hend⟩ := h.joined p n hn
  refine ⟨start, ?_, hrecords, hend⟩
  unfold resume?
  -- with nothing buffered the run of records is empty and begins where the position stands
  cases hbuffer : f.bufferOf p with
  | nil =>
    rw [hbuffer] at hend
    simpa [hn] using hend.symm
  | cons r rest =>
    rw [hbuffer] at hrecords
    exact congrArg some hrecords.2.2.1

theorem Linked.resume?_eq_none (h : f.Linked topic) {p : Int} (hnone : f.position? p = none) :
    f.resume? p = none := by
  simp [resume?, h.held p hnone, hnone]

theorem linked_empty : Linked topic {} :=
  ⟨List.Pairwise.nil, fun _ _ => rfl, fun _ _ hn => by cases hn⟩

/-! ## Dropping what is not assigned -/

@[simp] theorem position?_retain (f : Fetch) (assigned : List Int) (p : Int) :
    (f.retain assigned).position? p = if assigned.contains p then f.position? p else none :=
  lookup_filter assigned.contains p f.positions

@[simp] theorem bufferOf_retain (f : Fetch) (assigned : List Int) (p : Int) :
    (f.retain assigned).bufferOf p = if assigned.contains p then f.bufferOf p else [] := by
  simp only [bufferOf, retain, List.filter_filter]
  split
  · next hp =>
    apply List.filter_congr
    intro r _
    by_cases hr : r.partition = p
    · simp [hr, List.contains_iff_mem.mp hp]
    · simp [hr]
  · next hp =>
    apply List.filter_eq_nil_iff.mpr
    intro r _
    by_cases hr : r.partition = p
    · simpa [hr] using hp
    · simp [hr]

theorem resume?_retain (f : Fetch) (assigned : List Int) (p : Int) :
    (f.retain assigned).resume? p = if assigned.contains p then f.resume? p else none := by
  unfold resume?
  rw [position?_retain, bufferOf_retain]
  by_cases hp : assigned.contains p = true
  · simp only [if_pos hp]
  · simp only [if_neg hp]
    rfl

theorem Linked.retain (h : f.Linked topic) (assigned : List Int) :
    (f.retain assigned).Linked topic := by
  refine ⟨List.Pairwise.filter _ h.ascending, fun p hnone => ?_, fun p n hn => ?_⟩
  · rw [position?_retain] at hnone
    rw [bufferOf_retain]
    split
    · next hp =>
      rw [if_pos hp] at hnone
      exact h.held p hnone
    · rfl
  · rw [position?_retain] at hn
    rw [bufferOf_retain]
    split
    · next hp =>
      rw [if_pos hp] at hn
      exact h.joined p n hn
    · next hp =>
      rw [if_neg hp] at hn
      cases hn

/-! ## Opening a position -/

@[simp] theorem position?_setPosition (f : Fetch) (p n q : Int) :
    (f.setPosition p n).position? q = if q = p then some n else f.position? q :=
  lookup_insertPosition p n q f.positions

theorem resume?_setPosition (h : f.Linked topic) {p : Int}
    (hnone : f.positions.any (·.1 == p) = false) (n q : Int) :
    (f.setPosition p n).resume? q = if q = p then some (max n 0) else f.resume? q := by
  have hbuffer : (f.setPosition p n).bufferOf q = f.bufferOf q := rfl
  unfold resume?
  rw [hbuffer, position?_setPosition]
  by_cases hq : q = p
  · rw [if_pos hq, if_pos hq, hq, h.held p (lookup_of_any hnone)]
    rfl
  · rw [if_neg hq, if_neg hq]

theorem Linked.opening (h : f.Linked topic) {p : Int}
    (hnone : f.positions.any (·.1 == p) = false) (n : Int) :
    (f.setPosition p n).Linked topic := by
  have hbuffer : ∀ q, (f.setPosition p n).bufferOf q = f.bufferOf q := fun q => rfl
  refine ⟨ascending_insertPosition p n h.ascending, fun q hq => ?_, fun q m hm => ?_⟩
  · rw [position?_setPosition] at hq
    split at hq
    · cases hq
    · exact h.held q hq
  · rw [position?_setPosition] at hm
    rw [hbuffer]
    split at hm
    · next hq =>
      obtain rfl := Option.some.inj hm
      rw [hq, h.held p (lookup_of_any hnone)]
      exact ⟨max n 0, trivial, by simp⟩
    · exact h.joined q m hm

/-! ## Taking over records -/

variable {slot : Nat} {p start : Int} {records : List Record} {last : Record}

theorem position?_take (f : Fetch) (slot : Nat) (p : Int) (records : List Record) (last : Record)
    (q : Int) : (f.take slot p records last).position? q =
      if q = p then some (last.offset + 1) else f.position? q :=
  position?_setPosition f p (last.offset + 1) q

theorem bufferOf_take (hrecords : Consecutive topic p start records) (q : Int) :
    (f.take slot p records last).bufferOf q =
      f.bufferOf q ++ if q = p then records else [] := by
  rw [← hrecords.filter_partition]
  exact List.filter_append ..

theorem Linked.take (h : f.Linked topic) (hslot : f.positions[slot]? = some (p, start))
    (hrecords : Consecutive topic p (max start 0) records)
    (hlast : records.getLast? = some last) : (f.take slot p records last).Linked topic := by
  have hposition : f.position? p = some start :=
    lookup_of_mem h.ascending (List.mem_of_getElem? hslot)
  refine ⟨ascending_insertPosition p _ h.ascending, fun q hq => ?_, fun q m hm => ?_⟩
  · rw [position?_take] at hq
    rw [bufferOf_take hrecords]
    split at hq
    · cases hq
    · next hne => rw [if_neg hne, List.append_nil, h.held q hq]
  · rw [position?_take] at hm
    rw [bufferOf_take hrecords]
    split at hm
    · next heq =>
      -- the batch goes on where the buffer ends
      subst heq
      obtain rfl := Option.some.inj hm
      obtain ⟨first, hbuffer, hend⟩ := h.joined q start hposition
      rw [if_pos rfl]
      rw [← hend] at hrecords
      refine ⟨first, Consecutive.append_iff.mpr ⟨hbuffer, hrecords⟩, ?_⟩
      have hoffset := hrecords.offset_getLast? hlast
      rw [List.length_append]
      omega
    · next hne =>
      rw [if_neg hne, List.append_nil]
      exact h.joined q m hm

/-- Taking over records does not change where the consumer goes on. -/
theorem resume?_take (h : f.Linked topic) (hslot : f.positions[slot]? = some (p, start))
    (hrecords : Consecutive topic p (max start 0) records)
    (hlast : records.getLast? = some last) (q : Int) :
    (f.take slot p records last).resume? q = f.resume? q := by
  have hposition : f.position? p = some start :=
    lookup_of_mem h.ascending (List.mem_of_getElem? hslot)
  unfold resume?
  rw [bufferOf_take hrecords, position?_take]
  -- the records come behind what was buffered, or first if nothing was
  by_cases hq : q = p
  · rw [if_pos hq, if_pos hq, hq, hposition]
    cases hbuffer : f.bufferOf p with
    | nil =>
      cases records with
      | nil => cases hlast
      | cons r rest => exact congrArg some hrecords.2.2.1
    | cons r rest => rfl
  · rw [if_neg hq, if_neg hq, List.append_nil]

/-- Reading keeps buffer and positions together. -/
theorem keeps_linked {k : Consumer} {position : Int → Option Int} :
    k.Keeps position (Linked k.topic) where
  retain _ assigned h := h.retain assigned
  opening _ _ h hnone := h.opening hnone _
  noting _ _ h := ⟨h.ascending, h.held, h.joined⟩
  take _ _ _ _ _ _ h := h.take

end Fetch

/-! ## Where a turn goes on -/

namespace Consumer

variable {k : Consumer} {position : Int → Option Int} {f f' : Fetch}

/-- While positions are opened, what is assigned is as it was before, or new and at the group's
position; the rest is gone. -/
theorem Opens.resume_cases {topic : String} {assigned : List Int}
    (h : Opens position assigned (f.retain assigned) f') (hf : f.Linked topic) :
    f'.Linked topic ∧ f'.generation = f.generation ∧ ∀ p,
      if assigned.contains p = true then
        f'.resume? p = f.resume? p ∨
          f.resume? p = none ∧ f'.resume? p = some (max ((position p).getD 0) 0)
      else f'.resume? p = none := by
  induction h with
  | refl =>
    refine ⟨hf.retain assigned, rfl, fun p => ?_⟩
    rw [Fetch.resume?_retain]
    split
    · exact .inl rfl
    · rfl
  | @step g q hopens hq hnone ih =>
    obtain ⟨hlinked, hgeneration, hresume⟩ := ih
    refine ⟨hlinked.opening hnone _, hgeneration, fun p => ?_⟩
    rw [Fetch.resume?_setPosition hlinked hnone]
    by_cases hp : p = q
    · subst hp
      -- nothing was there, neither just now nor before the first position was opened
      have hnothing := hlinked.resume?_eq_none (Fetch.lookup_of_any hnone)
      have hbefore := hresume p
      rw [if_pos (List.contains_iff_mem.mpr hq), hnothing] at hbefore
      rw [if_pos (List.contains_iff_mem.mpr hq), if_pos rfl]
      refine .inr ⟨?_, rfl⟩
      rcases hbefore with heq | ⟨hnone', -⟩
      · exact heq.symm
      · exact hnone'
    · rw [if_neg hp]
      exact hresume p

/-- Opening positions leaves those that are there alone, and opens the others at the group's. -/
theorem Opens.resume {topic : String} {assigned : List Int}
    (h : Opens position assigned (f.retain assigned) f') (hf : f.Linked topic) :
    f'.Linked topic ∧ f'.generation = f.generation ∧ ∀ p start, f'.resume? p = some start →
      start = (f.resume? p).getD (max ((position p).getD 0) 0) := by
  obtain ⟨hlinked, hgeneration, hresume⟩ := h.resume_cases hf
  -- a partition with an offset to go on with is assigned, so only the two cases with one are left
  refine ⟨hlinked, hgeneration, fun p start hstart => ?_⟩
  have hp := hresume p
  split at hp
  · rcases hp with heq | ⟨hnone, heq⟩
    · rw [← heq, hstart]
      rfl
    · rw [heq] at hstart
      rw [hnone]
      exact (Option.some.inj hstart).symm
  · rw [hp] at hstart
    cases hstart

/-- Whatever was held of a partition is kept or dropped, and what was not held begins at the group's
position. -/
theorem Synced.resume {topic : String} {ok : Bool} (h : Synced position f ok f')
    (hf : f.Linked topic) {p start : Int} (hstart : f'.resume? p = some start) :
    start = (f.resume? p).getD (max ((position p).getD 0) 0) := by
  cases h with
  | same =>
    rw [hstart]
    rfl
  | broken hopens => exact (hopens.resume hf).2.2 p start hstart
  | renewed hopens _ => exact (hopens.resume hf).2.2 p start hstart

/-- The generation noted before, and no failure: nothing has changed. -/
theorem Synced.eq_of_same (h : Synced position f true f') (hsame : f'.generation = f.generation) :
    f' = f := by
  cases h with
  | same => rfl
  | renewed _ hnew => exact absurd hsame.symm hnew

end Consumer

/-! ## What is handed out -/

namespace Fetch

variable {topic : String} {p : Int} {f f' f'' : Fetch} {records more : List Record}

/-- Records of a partition handed out between two states: from where the first one stands, without
a gap, up to where the second one stands. -/
def Yields (topic : String) (p : Int) (f : Fetch) (records : List Record) (f' : Fetch) : Prop :=
  match f.resume? p with
  | some start =>
    Consecutive topic p start records ∧ f'.resume? p = some (start + records.length)
  | none => records = [] ∧ f'.resume? p = none

/-- Nothing is handed out. -/
theorem yields_nil (h : f'.resume? p = f.resume? p) : f.Yields topic p [] f' := by
  unfold Yields
  split
  · next start hstart => exact ⟨trivial, by simpa [hstart] using h⟩
  · next hnone => exact ⟨rfl, h.trans hnone⟩

theorem Yields.trans (h : f.Yields topic p records f') (h' : f'.Yields topic p more f'') :
    f.Yields topic p (records ++ more) f'' := by
  unfold Yields at h h' ⊢
  cases hstart : f.resume? p with
  | none =>
    simp only [hstart] at h
    simp only [h.2] at h'
    exact ⟨by rw [h.1, h'.1]; rfl, h'.2⟩
  | some start =>
    simp only [hstart] at h
    -- the second run begins where the first one has ended
    simp only [h.2] at h'
    refine ⟨Consecutive.append_iff.mpr ⟨h.1, h'.1⟩, ?_⟩
    rw [h'.2, List.length_append]
    congr 1
    omega

theorem bufferOf_front (records : List Record) (f : Fetch) (p : Int) :
    bufferOf { f with buffer := records ++ f.buffer } p =
      records.filter (·.partition == p) ++ f.bufferOf p :=
  List.filter_append ..

/-- What stays in the buffer still belongs to the positions. -/
theorem Linked.of_front (h : Linked topic { f with buffer := records ++ f.buffer }) :
    f.Linked topic := by
  refine ⟨h.ascending, fun p hnone => ?_, fun p n hn => ?_⟩
  · have hnothing := h.held p hnone
    rw [bufferOf_front] at hnothing
    exact (List.append_eq_nil_iff.mp hnothing).2
  · obtain ⟨start, hrecords, hend⟩ := h.joined p n hn
    rw [bufferOf_front] at hrecords hend
    refine ⟨_, (Consecutive.append_iff.mp hrecords).2, ?_⟩
    rw [List.length_append] at hend
    omega

/-- Records that leave the buffer at its front. -/
theorem Linked.yields (h : Linked topic { f with buffer := records ++ f.buffer }) (p : Int) :
    Yields topic p { f with buffer := records ++ f.buffer }
      (records.filter (·.partition == p)) f := by
  have hlinked := h.of_front
  unfold Yields
  cases hp : f.position? p with
  | none =>
    have hbefore : position? { f with buffer := records ++ f.buffer } p = none := hp
    rw [h.resume?_eq_none hbefore]
    have hnothing := h.held p hbefore
    rw [bufferOf_front] at hnothing
    exact ⟨(List.append_eq_nil_iff.mp hnothing).1, hlinked.resume?_eq_none hp⟩
  | some n =>
    -- both end at the same position, so what has left is what lies between their beginnings
    obtain ⟨start, hstart, hrecords, hend⟩ := h.resume?_eq hp
    obtain ⟨start', hstart', -, hend'⟩ := hlinked.resume?_eq hp
    rw [bufferOf_front] at hrecords hend
    simp only [hstart]
    refine ⟨(Consecutive.append_iff.mp hrecords).1, ?_⟩
    rw [List.length_append] at hend
    rw [hstart']
    congr 1
    omega

end Fetch

namespace Consumer

variable {k : Consumer} {position : Int → Option Int} {f f' : Fetch}
  {result : Except BrokerError Turn}

/-- A turn that stays with the generation noted hands out what comes next. -/
theorem Turned.yields_of_same (h : k.Turned position f result f') (hf : f.Linked k.topic)
    (hsame : f'.generation = f.generation) (hok : result.isOk = true) (p : Int) :
    f.Yields k.topic p ((handed result).filter (·.partition == p)) f' := by
  cases h with
  | failed => cases hok
  | @record before r rest hsynced hbuffer =>
    obtain rfl := hsynced.eq_of_same hsame
    -- the state in front of the turn is the one behind it with the record put back
    have hfront : { before with buffer := [r] ++ rest } = before := by
      rw [List.singleton_append, ← hbuffer]
    have hlinked : Fetch.Linked k.topic { before with buffer := [r] ++ rest } := by
      rw [hfront]
      exact hf
    have hyields := Fetch.Linked.yields (f := { before with buffer := rest }) hlinked p
    exact hfront ▸ hyields
  | filled hsynced hslot hrecords hlast =>
    obtain rfl := hsynced.eq_of_same hsame
    exact Fetch.yields_nil (Fetch.resume?_take hf hslot hrecords hlast p)
  | idle hsynced =>
    obtain rfl := hsynced.eq_of_same hsame
    exact Fetch.yields_nil rfl

/-- A turn hands out what comes next where the consumer goes on once it is brought to the latest
generation. -/
theorem Turned.yields (h : k.Turned position f result f') (hf : f.Linked k.topic) (p : Int) :
    ∃ g : Fetch, g.Yields k.topic p ((handed result).filter (·.partition == p)) f' ∧
      ∀ start, g.resume? p = some start →
        start = (f.resume? p).getD (max ((position p).getD 0) 0) := by
  have hlinked : Fetch.Linked k.topic { f' with buffer := handed result ++ f'.buffer } :=
    Fetch.keeps_linked.turned h hf
  -- the records are counted from the state behind the sync, before any was handed out
  refine ⟨_, hlinked.yields p, fun start hstart => ?_⟩
  cases h with
  | failed hsynced => exact hsynced.resume hf hstart
  | @record before r rest hsynced hbuffer =>
    have hfront : { before with buffer := handed (.ok (.record r)) ++ rest } = before := by
      rw [handed, List.singleton_append, ← hbuffer]
    have hbefore : before.resume? p = some start := by
      rw [← hfront]
      exact hstart
    exact hsynced.resume hf hbefore
  | @filled before slot q first records last hsynced hslot hrecords hlast =>
    have hbefore := Fetch.keeps_linked.synced hsynced hf
    have htake : (before.take slot q records last).resume? p = some start := hstart
    rw [Fetch.resume?_take hbefore hslot hrecords hlast] at htake
    exact hsynced.resume hf htake
  | idle hsynced => exact hsynced.resume hf hstart

variable {p : Int}

/-- A turn that leaves the partition with the consumer hands out what comes next, from the group's
position if there was nothing before. -/
theorem Turned.consecutive_of_held (h : k.Turned position f result f') (hf : f.Linked k.topic)
    (hheld : f'.position? p ≠ none) :
    Consecutive k.topic p ((f.resume? p).getD (max ((position p).getD 0) 0))
        ((handed result).filter (·.partition == p)) ∧
      f'.resume? p = some ((f.resume? p).getD (max ((position p).getD 0) 0) +
        ((handed result).filter (·.partition == p)).length) := by
  obtain ⟨g, hyields, hstart⟩ := h.yields hf p
  obtain ⟨n, hn⟩ := Option.ne_none_iff_exists'.mp hheld
  obtain ⟨next, hnext, -⟩ := (Fetch.keeps_linked.turned h hf).of_front.resume?_eq hn
  unfold Fetch.Yields at hyields
  split at hyields
  · next start hresume =>
    rw [← hstart start hresume]
    exact hyields
  -- with nothing to go on with, the partition would not be held behind the turn
  · rw [hnext] at hyields
    cases hyields.2

/-- A turn that drops the partition hands out nothing of it. -/
theorem Turned.nothing_of_dropped (h : k.Turned position f result f') (hf : f.Linked k.topic)
    (hdropped : f'.position? p = none) : (handed result).filter (·.partition == p) = [] := by
  have hlinked : Fetch.Linked k.topic { f' with buffer := handed result ++ f'.buffer } :=
    Fetch.keeps_linked.turned h hf
  have hnothing := hlinked.held p hdropped
  rw [Fetch.bufferOf_front] at hnothing
  exact (List.append_eq_nil_iff.mp hnothing).1

end Consumer

end WorkQueue
