import WorkQueue.Proofs.Consumer.Resume
import WorkQueue.Proofs.Store.Thorough

/-!
# What a fetch does

A fetch asks the partitions one after the other, beginning at the cursor, and takes over what the
first of them tells that has records. Others use the store at the same time, and what they do
between two of its reads is seen by the second one. So a fetch is looked at together with these calls
and with notes of its reads.

## Main definitions

* `Busy`: a store that others use between the reads of a consumer
* `Consumer.fillAmid`, `Fill`: a fetch amid the calls of others
* `Fill.serves`, `Fill.passes`: the partition whose records it returns, and those it finds empty

## Main statements

* `Consumer.fillAmid_nil`: without others it is a fetch as such
* `Consumer.Fetches.took`: a fetch changes nothing, or takes over records
* `Consumer.Fetches.nothing_left`: what has been seen if it returns nothing
* `Consumer.Fetches.not_passes_of_unread`: a partition with unread records is not found empty
-/

namespace WorkQueue

open StoreView RecordStore

/-! ## A store in use -/

/-- A read of a consumer: the store it found, what it asked for, and what it was told. -/
structure Look (σ : Type) where
  store : σ
  partition : Int
  start : Int
  told : Except BrokerError (List Record)

/-- A store that others use between the reads of a consumer. -/
structure Busy (σ : Type) where
  inner : σ
  /-- What others call in front of each read to come. -/
  others : List (List StoreCall) := []
  looks : List (Look σ) := []

namespace Busy

variable {σ α : Type}

/-- An operation of the store itself. -/
def inside (m : StoreM σ α) : StoreM (Busy σ) α := .ofFunction fun b =>
  let (result, inner) := m.on b.inner
  (result, { b with inner })

/-- What others have made of the store when it is read next. -/
def meanwhile [LogStore σ] (b : Busy σ) : σ :=
  (b.others.headD []).foldl (fun s call => call.on s) b.inner

/-- What a read sees and is told. -/
def look [LogStore σ] (b : Busy σ) (topic : String) (partition start : Int) (limit : Nat) :
    Look σ :=
  let told := ((LogStore.read topic partition start limit).on b.meanwhile).1
  { store := b.meanwhile, partition, start, told }

/-- The store behind a read, which has been noted. -/
def behind [LogStore σ] (b : Busy σ) (topic : String) (partition start : Int) (limit : Nat) :
    Busy σ :=
  let inner := ((LogStore.read topic partition start limit).on b.meanwhile).2
  { inner, others := b.others.tail, looks := b.looks ++ [b.look topic partition start limit] }

instance [LogStore σ] : LogStore (Busy σ) where
  createTopic topic n := inside (LogStore.createTopic topic n)
  partitions topic := inside (LogStore.partitions topic)
  append topic partition key value := inside (LogStore.append topic partition key value)
  read topic partition start limit := .ofFunction fun b =>
    ((b.look topic partition start limit).told, b.behind topic partition start limit)
  committed group topic partition := inside (LogStore.committed group topic partition)
  commit group topic partition next := inside (LogStore.commit group topic partition next)
  join now group topic := inside (LogStore.join now group topic)
  heartbeat now group topic member timeout :=
    inside (LogStore.heartbeat now group topic member timeout)
  leave group topic member := inside (LogStore.leave group topic member)

variable [LogStore σ]

theorem on_read (b : Busy σ) (topic : String) (p start : Int) (limit : Nat) :
    (LogStore.read topic p start limit : StoreM (Busy σ) (List Record)).on b =
      ((b.look topic p start limit).told, b.behind topic p start limit) := rfl

/-- Without others the store itself tells the same, and is the same behind it. -/
theorem on_inner {b : Busy σ} (hothers : b.others = []) (topic : String) (p start : Int)
    (limit : Nat) : (LogStore.read topic p start limit : StoreM σ (List Record)).on b.inner =
      ((b.look topic p start limit).told, (b.behind topic p start limit).inner) := by
  have hmeanwhile : b.meanwhile = b.inner := by
    rw [meanwhile, hothers]
    rfl
  rw [look, behind, hmeanwhile]

theorem reached_foldl (calls : List StoreCall) (s : σ) :
    Reached AnyCall s (calls.foldl (fun s call => call.on s) s) := by
  induction calls generalizing s with
  | nil => exact .refl s
  | cons call rest ih => exact (Reached.single trivial s).trans (ih (call.on s))

theorem reached_meanwhile (b : Busy σ) : Reached AnyCall b.inner b.meanwhile :=
  reached_foldl _ _

end Busy

/-! ## Asking in turn -/

namespace Fetch

/-- The partitions with a position, which are those assigned. -/
def assigned (f : Fetch) : List Int := f.positions.map (·.1)

/-- What comes of asking the partitions at some places in turn. -/
inductive Asks {σ : Type} (f : Fetch) :
    List Nat → List (Look σ) → Except BrokerError Bool → Fetch → Prop where
  | nothing : Asks f [] [] (.ok false) f
  | vain {slot : Nat} {rest : List Nat} {l : Look σ} {looks : List (Look σ)}
      {result : Except BrokerError Bool} {f' : Fetch}
      (hslot : f.positions[slot]? = some (l.partition, l.start)) (htold : l.told = .ok [])
      (h : Asks f rest looks result f') : Asks f (slot :: rest) (l :: looks) result f'
  | found {slot : Nat} {rest : List Nat} {l : Look σ} {records : List Record} {last : Record}
      (hslot : f.positions[slot]? = some (l.partition, l.start)) (htold : l.told = .ok records)
      (hlast : records.getLast? = some last) :
      Asks f (slot :: rest) [l] (.ok true) (f.take slot l.partition records last)
  | failed {slot : Nat} {rest : List Nat} {l : Look σ} {e : BrokerError}
      (hslot : f.positions[slot]? = some (l.partition, l.start)) (htold : l.told = .error e) :
      Asks f (slot :: rest) [l] (.error e) f

namespace Asks

variable {σ : Type} {f f' : Fetch} {slots : List Nat} {looks : List (Look σ)}
  {result : Except BrokerError Bool}

/-- Each partition is read from its position on. -/
theorem mem_positions (h : f.Asks slots looks result f') :
    ∀ l ∈ looks, (l.partition, l.start) ∈ f.positions := by
  induction h with
  | nothing => exact fun _ hl => by cases hl
  | vain hslot _ _ ih => exact List.forall_mem_cons.mpr ⟨List.mem_of_getElem? hslot, ih⟩
  | found hslot => exact List.forall_mem_singleton.mpr (List.mem_of_getElem? hslot)
  | failed hslot => exact List.forall_mem_singleton.mpr (List.mem_of_getElem? hslot)

/-- Nothing is taken over unless records are found. -/
theorem eq_of_ne_true (h : f.Asks slots looks result f') (hresult : result ≠ .ok true) :
    f' = f := by
  induction h with
  | nothing => rfl
  | vain _ _ _ ih => exact ih hresult
  | found => exact absurd rfl hresult
  | failed => rfl

theorem ascending (h : f.Asks slots looks result f') (hf : Ascending f.positions) :
    Ascending f'.positions := by
  induction h with
  | nothing => exact hf
  | vain _ _ _ ih => exact ih
  | found => exact ascending_insertPosition _ _ hf
  | failed => exact hf

/-- If nothing is found, every one of them has been asked in vain. -/
theorem vain_of_false (h : f.Asks slots looks (.ok false) f') :
    ∀ slot ∈ slots, ∃ l ∈ looks, f.positions[slot]? = some (l.partition, l.start) ∧
      l.told = .ok [] := by
  generalize hresult : (.ok false : Except BrokerError Bool) = result at h
  induction h with
  | nothing => exact fun _ hslot => by cases hslot
  | @vain slot rest l looks _ _ hslot htold _ ih =>
    intro slot' hslot'
    rcases List.mem_cons.mp hslot' with rfl | hrest
    · exact ⟨l, List.mem_cons_self, hslot, htold⟩
    · obtain ⟨l', hl', hfacts⟩ := ih hresult slot' hrest
      exact ⟨l', List.mem_cons_of_mem _ hl', hfacts⟩
  | found => cases hresult
  | failed => cases hresult

/-- If records are found, then at the place that is asked as number `w`, and those asked before have
been asked in vain. -/
theorem found_of_true (h : f.Asks slots looks (.ok true) f') :
    ∃ (w slot : Nat) (l : Look σ) (records : List Record) (last : Record),
      slots[w]? = some slot ∧ l ∈ looks ∧
      f.positions[slot]? = some (l.partition, l.start) ∧ l.told = .ok records ∧
      records.getLast? = some last ∧ f' = f.take slot l.partition records last ∧
      ∀ q, (∃ l ∈ looks, l.partition = q ∧ l.told = .ok []) ↔
        ∃ v < w, ∃ slot : Nat, slots[v]? = some slot ∧ f.assigned[slot]? = some q := by
  generalize hresult : (.ok true : Except BrokerError Bool) = result at h
  induction h with
  | nothing => cases hresult
  | failed => cases hresult
  | @found slot rest l records last hslot htold hlast =>
    refine ⟨0, slot, l, records, last, rfl, List.mem_singleton_self l, hslot, htold, hlast, rfl, ?_⟩
    intro q
    constructor
    · rintro ⟨l', hl', -, hvain⟩
      obtain rfl := List.mem_singleton.mp hl'
      obtain rfl := Except.ok.inj (htold.symm.trans hvain)
      cases hlast
    · exact fun ⟨v, hv, _⟩ => absurd hv (Nat.not_lt_zero v)
  | @vain first rest l looks _ f' hfirst htold _ ih =>
    obtain ⟨w, slot, l', records, last, hw, hl', hslot, htold', hlast, htake, hvain⟩ := ih hresult
    refine ⟨w + 1, slot, l', records, last, hw, List.mem_cons_of_mem _ hl', hslot, htold', hlast,
      htake, fun q => ?_⟩
    have hpartition : f.assigned[first]? = some l.partition := by
      simp [assigned, hfirst]
    constructor
    · rintro ⟨l'', hl'', rfl, htold''⟩
      rcases List.mem_cons.mp hl'' with rfl | hrest
      · exact ⟨0, Nat.succ_pos w, first, rfl, hpartition⟩
      · obtain ⟨v, hv, slot', hslot', hq⟩ := (hvain _).mp ⟨l'', hrest, rfl, htold''⟩
        exact ⟨v + 1, Nat.succ_lt_succ hv, slot', hslot', hq⟩
    · rintro ⟨v, hv, slot', hslot', hq⟩
      cases v with
      | zero =>
        obtain rfl := Option.some.inj hslot'
        exact ⟨l, List.mem_cons_self, Option.some.inj (hpartition.symm.trans hq), htold⟩
      | succ v =>
        obtain ⟨l'', hl'', hfacts⟩ := (hvain q).mpr ⟨v, Nat.lt_of_succ_lt_succ hv, slot', hslot', hq⟩
        exact ⟨l'', List.mem_cons_of_mem _ hl'', hfacts⟩

end Asks

end Fetch

namespace Consumer

variable {σ : Type} [LogStore σ] {f : Fetch}

/-- A read of the consumer's topic that the store was asked for on the way from `s`. -/
structure Saw (k : Consumer) (s : σ) (l : Look σ) : Prop where
  reached : Reached AnyCall s l.store
  told_eq : (StoreM.on (LogStore.read k.topic l.partition l.start fetchBatch) l.store).1 = l.told

/-- The places are asked in turn, and every read is noted. -/
theorem ensures_asks (k : Consumer) (slots : List Nat)
    (hslots : ∀ slot ∈ slots, slot < f.positions.length) (b : Busy σ) :
    Ensures (k.fillFrom slots) (f, b) fun result x => Reached AnyCall b.inner x.2.inner ∧
      ∃ looks, x.2.looks = b.looks ++ looks ∧ (∀ l ∈ looks, k.Saw b.inner l) ∧
        f.Asks slots looks result x.1 := by
  induction slots generalizing b with
  | nil => exact ⟨.refl _, [], (List.append_nil _).symm, fun _ hl => (by cases hl), .nothing⟩
  | cons slot rest ih =>
    obtain ⟨hslot, hrest⟩ := List.forall_mem_cons.mp hslots
    unfold fillFrom
    rw [ensures_bind, FetchM.ensures_fetch]
    dsimp only
    obtain ⟨⟨p, start⟩, hfound⟩ : ∃ entry, f.positions[slot]? = some entry :=
      ⟨_, List.getElem?_eq_getElem hslot⟩
    rw [hfound]
    dsimp only
    rw [ensures_bind, FetchM.ensures_store, ensures_on]
    let l := b.look k.topic p start fetchBatch
    let b' := b.behind k.topic p start fetchBatch
    have hsaw : k.Saw b.inner l := ⟨b.reached_meanwhile, rfl⟩
    have hreached : Reached AnyCall b.inner b'.inner :=
      b.reached_meanwhile.trans (calls_read trivial b.meanwhile)
    rw [Busy.on_read]
    cases htold : l.told with
    | error e =>
      exact ⟨hreached, [l], rfl, List.forall_mem_singleton.mpr hsaw, .failed hfound htold⟩
    | ok records =>
      dsimp only
      cases hlast : records.getLast? with
      | some last =>
        exact ⟨hreached, [l], rfl, List.forall_mem_singleton.mpr hsaw, .found hfound htold hlast⟩
      | none =>
        obtain rfl := List.getLast?_eq_none_iff.mp hlast
        apply (ih hrest b').mono
        rintro result x ⟨hx, looks, hlooks, hall, hasks⟩
        refine ⟨hreached.trans hx, l :: looks, ?_, ?_, .vain hfound htold hasks⟩
        · rw [hlooks]
          exact List.append_assoc ..
        · refine List.forall_mem_cons.mpr ⟨hsaw, fun l' hl' => ?_⟩
          exact ⟨hreached.trans (hall l' hl').reached, (hall l' hl').told_eq⟩

/-- With nobody else around, it makes no difference that reads are noted. -/
theorem ensures_unnoted {k : Consumer} {slots : List Nat} {b : Busy σ} (hothers : b.others = [])
    {Q : Except BrokerError Bool → Fetch × σ → Prop}
    (h : Ensures (k.fillFrom slots) (f, b.inner) Q) :
    Ensures (k.fillFrom slots) (f, b) fun result x => Q result (x.1, x.2.inner) := by
  induction slots generalizing b with
  | nil => exact h
  | cons slot rest ih =>
    unfold fillFrom at h ⊢
    rw [ensures_bind, FetchM.ensures_fetch] at h ⊢
    dsimp only at h ⊢
    cases hslot : f.positions[slot]? with
    | none =>
      rw [hslot] at h
      exact ih hothers h
    | some found =>
      obtain ⟨p, start⟩ := found
      rw [hslot] at h
      dsimp only at h ⊢
      rw [ensures_bind, FetchM.ensures_store, ensures_on] at h ⊢
      rw [Busy.on_inner hothers] at h
      rw [Busy.on_read]
      cases htold : (b.look k.topic p start fetchBatch).told with
      | error e =>
        rw [htold] at h
        exact h
      | ok records =>
        rw [htold] at h
        dsimp only at h ⊢
        cases hlast : records.getLast? with
        | some last =>
          rw [hlast] at h
          exact h
        | none =>
          rw [hlast] at h
          exact ih (by rw [Busy.behind, hothers]; rfl) h

end Consumer

/-! ## A fetch amid the calls of others -/

/-- A fetch: consumer and store in front of it, its reads, its result, and both behind it. -/
structure Fill (σ : Type) where
  before : Fetch × σ
  looks : List (Look σ)
  result : Except BrokerError Bool
  after : Fetch × σ

/-- Was there nothing to tell? -/
def Look.vain {σ : Type} (l : Look σ) : Bool :=
  match l.told with
  | .ok [] => true
  | _ => false

@[simp] theorem Look.vain_iff {σ : Type} {l : Look σ} : l.vain = true ↔ l.told = .ok [] := by
  unfold vain
  split <;> simp_all

namespace Fill

variable {σ : Type}

/-- The records that a fetch returns. -/
def returned (x : Fill σ) : List Record := x.after.1.buffer.drop x.before.1.buffer.length

/-- Are records of this partition returned? -/
def serves (x : Fill σ) (p : Int) : Bool := x.returned.any (·.partition == p)

/-- Are records returned after this partition has been found empty? -/
def passes (x : Fill σ) (p : Int) : Bool :=
  !x.returned.isEmpty && x.looks.any fun l => l.partition == p && l.vain

/-- Records are taken over, from the partition at a place that is asked as number `w`. -/
structure Took (x : Fill σ) (w slot : Nat) : Prop where
  asked : x.before.1.slots[w]? = some slot
  cursor_eq : x.after.1.cursor = (slot + 1) % x.before.1.positions.length
  assigned_eq : x.after.1.assigned = x.before.1.assigned
  serves_iff (p : Int) : x.serves p = true ↔ x.before.1.assigned[slot]? = some p
  passes_iff (p : Int) : x.passes p = true ↔
    ∃ v < w, ∃ slot : Nat, x.before.1.slots[v]? = some slot ∧ x.before.1.assigned[slot]? = some p

theorem returned_of_eq {x : Fill σ} (h : x.after.1 = x.before.1) : x.returned = [] := by
  rw [returned, h, List.drop_length]

end Fill

namespace Fetch

variable {f : Fetch} {p n : Int}

theorem assigned_take (h : Ascending f.positions) {slot : Nat}
    (hslot : f.positions[slot]? = some (p, n)) (records : List Record) (last : Record) :
    (f.take slot p records last).assigned = f.assigned :=
  map_fst_insertPosition h (List.mem_map_of_mem (List.mem_of_getElem? hslot))

theorem cursor_take (h : Ascending f.positions) {slot : Nat}
    (hslot : f.positions[slot]? = some (p, n)) (records : List Record) (last : Record) :
    (f.take slot p records last).cursor = (slot + 1) % f.positions.length := by
  have hlength := congrArg List.length (assigned_take h hslot records last)
  rw [assigned, assigned, List.length_map, List.length_map] at hlength
  rw [← hlength]
  rfl

theorem lt_of_mem_slots : ∀ slot ∈ f.slots, slot < f.positions.length := by
  intro slot hslot
  obtain ⟨i, hi, rfl⟩ := List.mem_map.mp hslot
  exact Nat.mod_lt _ (Nat.lt_of_le_of_lt (Nat.zero_le i) (List.mem_range.mp hi))

/-- Every place is asked. -/
theorem mem_slots {slot : Nat} (h : slot < f.positions.length) : slot ∈ f.slots := by
  unfold slots
  generalize f.positions.length = n at h
  have hlt : f.cursor % n < n := Nat.mod_lt _ (by omega)
  -- it is asked behind the last place or behind the cursor
  rcases Nat.lt_or_ge slot (f.cursor % n) with hgt | hle
  · refine List.mem_map.mpr ⟨slot + n - f.cursor % n, List.mem_range.mpr (by omega), ?_⟩
    rw [← Nat.mod_add_mod, Nat.add_sub_cancel' (by omega), Nat.add_mod_right, Nat.mod_eq_of_lt h]
  · refine List.mem_map.mpr ⟨slot - f.cursor % n, List.mem_range.mpr (by omega), ?_⟩
    rw [← Nat.mod_add_mod, Nat.add_sub_cancel' hle, Nat.mod_eq_of_lt h]

end Fetch

namespace Consumer

variable {σ : Type} [LogStore σ]

/-- Fetch records, while others make calls in front of each read. -/
def fillAmid (k : Consumer) (others : List (List StoreCall)) (f : Fetch) (s : σ) : Fill σ :=
  let (result, f', b) := k.fill.on f ({ inner := s, others } : Busy σ)
  { before := (f, s), looks := b.looks, result, after := (f', b.inner) }

@[simp] theorem before_fillAmid (k : Consumer) (others : List (List StoreCall)) (f : Fetch)
    (s : σ) : (k.fillAmid others f s).before = (f, s) := rfl

/-- A fetch amid no calls of others is a fetch. -/
theorem fillAmid_nil (k : Consumer) (f : Fetch) (s : σ) :
    k.fill.on f s = ((k.fillAmid [] f s).result, (k.fillAmid [] f s).after) := by
  have hfill : Ensures k.fill (f, ({ inner := s } : Busy σ)) fun result x =>
      k.fill.on f s = (result, x.1, x.2.inner) := by
    unfold fill
    rw [ensures_bind, FetchM.ensures_fetch]
    have hplain : Ensures (k.fillFrom f.slots) (f, s) fun result x =>
        k.fill.on f s = (result, x) := rfl
    exact ensures_unnoted (b := { inner := s }) rfl hplain
  exact hfill

/-- What is known of a fetch of consumer `k`. -/
structure Fetches [StoreView σ] (k : Consumer) (x : Fill σ) : Prop where
  ascending : Fetch.Ascending x.before.1.positions
  sound : Sound x.before.2
  reached : Reached AnyCall x.before.2 x.after.2
  saw : ∀ l ∈ x.looks, k.Saw x.before.2 l
  asks : x.before.1.Asks x.before.1.slots x.looks x.result x.after.1

/-- Does a partition have a record that has not been fetched? -/
def Unread [RecordStore σ] (k : Consumer) (p : Int) (x : Fetch × σ) : Prop :=
  ∃ n ∈ x.1.position? p, ∃ r ∈ records x.2 k.topic p, n ≤ r.offset

instance [RecordStore σ] (k : Consumer) (p : Int) (x : Fetch × σ) : Decidable (k.Unread p x) :=
  inferInstanceAs (Decidable (∃ n ∈ x.1.position? p, ∃ r ∈ records x.2 k.topic p, n ≤ r.offset))

variable {k : Consumer} {f : Fetch} {s : σ}

/-- The partitions are asked in turn, beginning at the cursor. -/
theorem fetches_fillAmid [StoreView σ] (hf : Fetch.Ascending f.positions) (hs : Sound s)
    (others : List (List StoreCall)) : k.Fetches (k.fillAmid others f s) := by
  have hfill : Ensures k.fill (f, ({ inner := s, others } : Busy σ)) fun result x =>
      Reached AnyCall s x.2.inner ∧
        ∃ looks, x.2.looks = [] ++ looks ∧ (∀ l ∈ looks, k.Saw s l) ∧
          f.Asks f.slots looks result x.1 := by
    unfold fill
    rw [ensures_bind, FetchM.ensures_fetch]
    exact k.ensures_asks f.slots Fetch.lt_of_mem_slots _
  obtain ⟨hreached, looks, hlooks, hsaw, hasks⟩ := hfill
  rw [List.nil_append] at hlooks
  subst hlooks
  exact ⟨hf, hs, hreached, hsaw, hasks⟩

namespace Fetches

variable [ThoroughStore σ] {x : Fill σ}

theorem ascending_after (h : k.Fetches x) : Fetch.Ascending x.after.1.positions :=
  h.asks.ascending h.ascending

theorem sound_after (h : k.Fetches x) : Sound x.after.2 := h.reached.sound h.sound

/-- A fetch changes nothing, or takes over records. -/
theorem took (h : k.Fetches x) : x.after.1 = x.before.1 ∨ ∃ w slot, x.Took w slot := by
  by_cases hresult : x.result = .ok true
  case neg => exact .inl (h.asks.eq_of_ne_true hresult)
  have hasks := h.asks
  rw [hresult] at hasks
  obtain ⟨w, slot, l, records, last, hasked, hl, hslot, htold, hlast, htake, hvain⟩ :=
    hasks.found_of_true
  have hreturned : x.returned = records := by
    rw [Fill.returned, htake]
    exact List.drop_left
  have hne : records ≠ [] := fun hnil => by
    rw [hnil] at hlast
    cases hlast
  -- all that a read tells belongs to the partition that was asked
  have hpartition : ∀ r ∈ records, r.partition = l.partition := by
    have hsaw := h.saw l hl
    have hread := LawfulStore.read_consecutive k.topic l.partition l.start fetchBatch l.store
      (hsaw.reached.sound h.sound)
    rw [ensures_on, hsaw.told_eq] at hread
    exact fun r hr => (hread records htold).partition_of_mem hr
  refine .inr ⟨w, slot, hasked, ?_, ?_, fun p => ?_, fun p => ?_⟩
  · rw [htake, Fetch.cursor_take h.ascending hslot]
  · rw [htake, Fetch.assigned_take h.ascending hslot]
  · have hplace : x.before.1.assigned[slot]? = some l.partition := by
      simp [Fetch.assigned, hslot]
    rw [Fill.serves, hreturned, hplace, List.any_eq_true, Option.some_inj]
    constructor
    · rintro ⟨r, hr, hp⟩
      exact (hpartition r hr).symm.trans (beq_iff_eq.mp hp)
    · rintro rfl
      obtain ⟨r, hr⟩ := List.exists_mem_of_ne_nil records hne
      exact ⟨r, hr, beq_iff_eq.mpr (hpartition r hr)⟩
  · rw [← hvain p, Fill.passes, hreturned]
    simp [hne]

/-- Records of a partition are taken over from its place. -/
theorem took_of_serves (h : k.Fetches x) {p : Int} (hserves : x.serves p = true) :
    ∃ w slot, x.Took w slot ∧ x.before.1.assigned[slot]? = some p := by
  rcases h.took with heq | ⟨w, slot, htook⟩
  · rw [Fill.serves, Fill.returned_of_eq heq] at hserves
    cases hserves
  · exact ⟨w, slot, htook, (htook.serves_iff p).mp hserves⟩

/-- A look in vain has found nothing from the position on. -/
theorem offset_lt_start (h : k.Fetches x) {l : Look σ} (hl : l ∈ x.looks) (hvain : l.told = .ok []) :
    ∀ r ∈ records l.store k.topic l.partition, r.offset < l.start := by
  have hsaw := h.saw l hl
  have hread := ThoroughStore.read_nil k.topic l.partition l.start l.store
    (hsaw.reached.sound h.sound) (by decide : 0 < fetchBatch) (by decide)
  rw [ensures_on, hsaw.told_eq] at hread
  exact hread hvain

/-- A fetch that returns nothing changes nothing, and has found nothing from any position on. -/
theorem nothing_left (h : k.Fetches x) (hresult : x.result = .ok false) :
    x.after.1 = x.before.1 ∧ ∀ p n, (p, n) ∈ x.before.1.positions →
      ∃ l ∈ x.looks, l.partition = p ∧ l.start = n ∧
        ∀ r ∈ records l.store k.topic p, r.offset < n := by
  have hasks := h.asks
  rw [hresult] at hasks
  refine ⟨hasks.eq_of_ne_true (by simp), fun p n hp => ?_⟩
  obtain ⟨slot, hslot⟩ := List.mem_iff_getElem?.mp hp
  have hlt := (List.getElem?_eq_some_iff.mp hslot).1
  obtain ⟨l, hl, hplace, hvain⟩ := hasks.vain_of_false slot (Fetch.mem_slots hlt)
  obtain ⟨rfl, rfl⟩ := Prod.mk.inj (Option.some.inj (hslot.symm.trans hplace))
  exact ⟨l, hl, rfl, rfl, h.offset_lt_start hl hvain⟩

/-- A partition with unread records is not found empty, whatever others do meanwhile. -/
theorem not_passes_of_unread (h : k.Fetches x) {p : Int} (hp : k.Unread p x.before) :
    x.passes p = false := by
  refine Bool.eq_false_iff.mpr fun hpasses => ?_
  obtain ⟨l, hl, hlook⟩ := List.any_eq_true.mp (Bool.and_eq_true_iff.mp hpasses).2
  obtain ⟨hpartition, hvain⟩ := Bool.and_eq_true_iff.mp hlook
  obtain rfl := beq_iff_eq.mp hpartition
  obtain ⟨n, hn, r, hr, hle⟩ := hp
  have hstart : x.before.1.position? l.partition = some l.start :=
    Fetch.lookup_of_mem h.ascending (h.asks.mem_positions l hl)
  obtain rfl := Option.some.inj (hstart.symm.trans hn)
  have hstays := (h.saw l hl).reached.mem_records h.sound hr
  exact absurd (h.offset_lt_start hl (Look.vain_iff.mp hvain) r hstays) (Int.not_lt.mpr hle)

end Fetches

end Consumer

end WorkQueue
