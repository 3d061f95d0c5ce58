import Mathlib.Data.List.Nodup
import WorkQueue.Proofs.Consumer.Moments

/-!
# Fetching is fair

A fetch begins behind the partition that was fetched last, so a partition with unread records waits
for the others once each. How long it waits is told by the number of places that are asked in front
of it. Whoever has just been fetched from waits longest, and every fetch brings the others closer.

Of two partitions `p` and `q` it is therefore enough to know which one is asked first. Between two
fetches from `p` this changes whenever `q` is fetched from, which has to be one time more often than
it changes back; and it changes back when `p` is asked and has nothing to read.

## Main definitions

* `Fetch.wait`, `Fetch.ahead`: how long a partition waits, and which of two is asked first
* `Span`: the fetches between two that return records of one partition

## Main statements

* `Fill.Took.ahead_add`: what one fetch does to the order of two partitions
* `Consumer.countP_serves`: what any number of fetches do to it
* `Consumer.fetches_fairly`: how often others are fetched from between two fetches from one partition,
  and what is left to read when nothing is returned
-/

namespace WorkQueue

open StoreView RecordStore

/-! ## Whose turn it is -/

namespace Fetch

variable {f : Fetch}

/-- How many places are asked in front of a place. -/
def wait (f : Fetch) (slot : Nat) : Nat :=
  if f.cursor ≤ slot then slot - f.cursor else slot + f.positions.length - f.cursor

/-- One if the first of two places is asked in front of the second, or else zero. -/
def ahead (f : Fetch) (i j : Nat) : Nat := if f.wait i < f.wait j then 1 else 0

theorem wait_lt {slot : Nat} (hcursor : f.cursor < f.positions.length)
    (hslot : slot < f.positions.length) : f.wait slot < f.positions.length := by
  unfold wait
  split <;> omega

/-- Two places are not asked at once. -/
theorem wait_injective {i j : Nat} (hcursor : f.cursor < f.positions.length)
    (hi : i < f.positions.length) (hj : j < f.positions.length) (h : f.wait i = f.wait j) :
    i = j := by
  unfold wait at h
  split at h <;> split at h <;> omega

/-- The place that is asked as number `w` waits for so many others. -/
theorem wait_of_asked {w slot : Nat} (hcursor : f.cursor < f.positions.length)
    (h : f.slots[w]? = some slot) : slot < f.positions.length ∧ f.wait slot = w := by
  have hmem := lt_of_mem_slots slot (List.mem_of_getElem? h)
  refine ⟨hmem, ?_⟩
  rw [slots, List.getElem?_map, Option.map_eq_some_iff] at h
  obtain ⟨i, hi, hslot⟩ := h
  obtain ⟨hw, rfl⟩ := List.getElem?_eq_some_iff.mp hi
  rw [List.length_range] at hw
  rw [List.getElem_range] at hslot
  unfold wait
  rcases Nat.lt_or_ge (f.cursor + w) f.positions.length with hlt | hge
  · rw [Nat.mod_eq_of_lt hlt] at hslot
    rw [if_pos (by omega)]
    omega
  · rw [Nat.mod_eq_sub_mod hge, Nat.mod_eq_of_lt (by omega)] at hslot
    rw [if_neg (by omega)]
    omega

/-- Behind a fetch from place `slot` the places behind it come first, then those in front of it, and
last itself. -/
theorem wait_next {f' : Fetch} {slot i : Nat} (hcursor : f.cursor < f.positions.length)
    (hslot : slot < f.positions.length) (hi : i < f.positions.length)
    (hlength : f'.positions.length = f.positions.length)
    (hnext : f'.cursor = (slot + 1) % f.positions.length) :
    f'.wait i = if f.wait slot < f.wait i then f.wait i - f.wait slot - 1
      else f.wait i + f.positions.length - f.wait slot - 1 := by
  have hbehind : f'.cursor = if slot + 1 = f.positions.length then 0 else slot + 1 := by
    rw [hnext]
    split
    · next h => rw [h, Nat.mod_self]
    · exact Nat.mod_eq_of_lt (by omega)
  simp only [wait, hbehind, hlength]
  grind

/-- What a fetch from a place that waits for `w` others does to two places that wait for `a` and for
`b`, if the second one is not passed over and the first one not fetched from. -/
theorem order_next {n a b w : Nat} (ha : a < n) (hb : b < n) (hab : a ≠ b) (haw : a ≠ w)
    (hle : w ≤ b) :
    (if w = b then 1 else 0) + (if a < b then 1 else 0) =
      (if a < w then 1 else 0) +
        (if (if w < a then a - w - 1 else a + n - w - 1) <
          (if w < b then b - w - 1 else b + n - w - 1) then 1 else 0) := by
  grind

theorem nodup_assigned (h : Ascending f.positions) : f.assigned.Nodup := by
  refine List.pairwise_map.mpr (h.imp fun hlt => ?_)
  exact Int.ne_of_lt hlt

/-- A partition has one place. -/
theorem place_unique (h : Ascending f.positions) {i j : Nat} {p : Int}
    (hi : f.assigned[i]? = some p) (hj : f.assigned[j]? = some p) : i = j := by
  obtain ⟨hlt, rfl⟩ := List.getElem?_eq_some_iff.mp hi
  obtain ⟨hlt', heq⟩ := List.getElem?_eq_some_iff.mp hj
  exact ((nodup_assigned h).getElem_inj_iff.mp heq).symm

/-- A partition with a position has a place. -/
theorem exists_place {p n : Int} (h : f.position? p = some n) :
    ∃ i : Nat, f.assigned[i]? = some p := by
  obtain ⟨front, rest, hpositions, -⟩ := List.lookup_eq_some_iff.mp h
  refine List.mem_iff_getElem?.mp (List.mem_map.mpr ⟨(p, n), ?_, rfl⟩)
  rw [hpositions]
  exact List.mem_append_right _ List.mem_cons_self

theorem place_lt {i : Nat} {p : Int} (hi : f.assigned[i]? = some p) : i < f.positions.length := by
  rw [← length_assigned]
  exact (List.getElem?_eq_some_iff.mp hi).1

end Fetch

namespace Fill.Took

variable {σ : Type} {x : Fill σ} {w slot i j : Nat} {p q : Int}

/-- The partitions found empty are those that wait for fewer places. -/
theorem passes_iff_wait (h : x.Took w slot) (hf : Fetch.Ascending x.before.1.positions)
    (hcursor : x.before.1.cursor < x.before.1.positions.length)
    (hi : x.before.1.assigned[i]? = some p) :
    x.passes p = true ↔ x.before.1.wait i < x.before.1.wait slot := by
  rw [h.passes_iff, (Fetch.wait_of_asked hcursor h.asked).2]
  constructor
  · rintro ⟨v, hv, slot', hasked, hslot'⟩
    obtain rfl := Fetch.place_unique hf hi hslot'
    rw [(Fetch.wait_of_asked hcursor hasked).2]
    exact hv
  · intro hlt
    obtain ⟨v, hasked⟩ := List.mem_iff_getElem?.mp (Fetch.mem_slots (Fetch.place_lt hi))
    rw [(Fetch.wait_of_asked hcursor hasked).2] at hlt
    exact ⟨v, hlt, i, hasked, hi⟩

/-- A partition that is not found empty waits no less than the one that is fetched from. -/
theorem wait_le (h : x.Took w slot) (hf : Fetch.Ascending x.before.1.positions)
    (hcursor : x.before.1.cursor < x.before.1.positions.length)
    (hj : x.before.1.assigned[j]? = some q) (hpasses : x.passes q = false) :
    x.before.1.wait slot ≤ x.before.1.wait j := by
  refine Nat.not_lt.mp fun hlt => ?_
  rw [(h.passes_iff_wait hf hcursor hj).mpr hlt] at hpasses
  cases hpasses

/-- A fetch that returns no records of `p`, and does not find `q` empty: `q` comes behind `p` if it is
fetched from, and `p` comes behind `q` if it is found empty. -/
theorem ahead_add (h : x.Took w slot) (hf : Fetch.Ascending x.before.1.positions)
    (hcursor : x.before.1.cursor < x.before.1.positions.length)
    (hi : x.before.1.assigned[i]? = some p) (hj : x.before.1.assigned[j]? = some q) (hpq : q ≠ p)
    (hserves : x.serves p = false) (hpasses : x.passes q = false) :
    (if x.serves q then 1 else 0) + x.before.1.ahead i j =
      (if x.passes p then 1 else 0) + x.after.1.ahead i j := by
  obtain ⟨hslot, -⟩ := Fetch.wait_of_asked hcursor h.asked
  have hnext := fun (i : Nat) hi =>
    Fetch.wait_next (i := i) hcursor hslot hi h.length_eq h.cursor_eq
  have hij : x.before.1.wait i ≠ x.before.1.wait j := fun heq => hpq <| by
    obtain rfl := Fetch.wait_injective hcursor (Fetch.place_lt hi) (Fetch.place_lt hj) heq
    exact Option.some.inj (hj.symm.trans hi)
  have hislot : x.before.1.wait i ≠ x.before.1.wait slot := fun heq => by
    obtain rfl := Fetch.wait_injective hcursor (Fetch.place_lt hi) hslot heq
    rw [(h.serves_iff p).mpr hi] at hserves
    cases hserves
  have hle := h.wait_le hf hcursor hj hpasses
  have hq : x.serves q = true ↔ x.before.1.wait slot = x.before.1.wait j := by
    rw [h.serves_iff]
    constructor
    · intro hplace
      rw [Fetch.place_unique hf hplace hj]
    · intro heq
      rw [Fetch.wait_injective hcursor hslot (Fetch.place_lt hj) heq, hj]
  simp only [Fetch.ahead, hq, h.passes_iff_wait hf hcursor hi, hnext i (Fetch.place_lt hi),
    hnext j (Fetch.place_lt hj)]
  exact Fetch.order_next (Fetch.wait_lt hcursor (Fetch.place_lt hi))
    (Fetch.wait_lt hcursor (Fetch.place_lt hj)) hij hislot hle

/-- Whoever has just been fetched from comes last. -/
theorem ahead_after (h : x.Took w slot) (hj : j < x.before.1.positions.length) :
    x.after.1.ahead slot j = 0 := by
  have hslot := Fetch.lt_of_mem_slots slot (List.mem_of_getElem? h.asked)
  have hlast : x.after.1.wait slot = x.before.1.positions.length - 1 := by
    unfold Fetch.wait
    rw [h.length_eq, h.cursor_eq]
    rcases Nat.lt_or_eq_of_le (Nat.succ_le_of_lt hslot) with hlt | heq
    · rw [Nat.mod_eq_of_lt hlt, if_neg (by omega)]
      omega
    · rw [← Nat.succ_eq_add_one, heq, Nat.mod_self, if_pos (Nat.zero_le _)]
      omega
  have hwait := Fetch.wait_lt h.cursor_lt (h.length_eq ▸ hj)
  rw [h.length_eq] at hwait
  exact if_neg (by omega)

/-- A partition that is not found empty comes behind the one that is fetched from. -/
theorem ahead_before (h : x.Took w slot) (hf : Fetch.Ascending x.before.1.positions)
    (hcursor : x.before.1.cursor < x.before.1.positions.length)
    (hj : x.before.1.assigned[j]? = some q) (hne : j ≠ slot) (hpasses : x.passes q = false) :
    x.before.1.ahead slot j = 1 := by
  obtain ⟨hslot, -⟩ := Fetch.wait_of_asked hcursor h.asked
  have hle := h.wait_le hf hcursor hj hpasses
  refine if_pos (Nat.lt_of_le_of_ne hle fun heq => hne ?_)
  exact (Fetch.wait_injective hcursor hslot (Fetch.place_lt hj) heq).symm

end Fill.Took

/-! ## Fetches one after the other -/

/-- Two fetches that return records of a partition, and those in between, which do not. -/
structure Span {σ : Type} (fills : List (Fill σ)) (p : Int) (first : Fill σ)
    (between : List (Fill σ)) (last : Fill σ) : Prop where
  split : ∃ earlier later, fills = earlier ++ first :: (between ++ last :: later)
  first_serves : first.serves p = true
  between_serves : ∀ x ∈ between, x.serves p = false
  last_serves : last.serves p = true

namespace Consumer

variable {σ : Type} [LogStore σ] [ThoroughStore σ] {k : Consumer} {f : Fetch} {s : σ} {p q : Int}
  {i j : Nat}

/-- What one fetch does to the order of two partitions, the second of which is not found empty. -/
theorem Fetches.ahead_add {x : Fill σ} (h : k.Fetches x)
    (hcursor : x.before.1.cursor < x.before.1.positions.length)
    (hi : x.before.1.assigned[i]? = some p) (hj : x.before.1.assigned[j]? = some q) (hpq : q ≠ p)
    (hserves : x.serves p = false) (hunread : k.Unread q x.before) :
    (if x.serves q then 1 else 0) + x.before.1.ahead i j =
      (if x.passes p then 1 else 0) + x.after.1.ahead i j := by
  rcases h.took with heq | ⟨w, slot, htook⟩
  · have hreturned := Fill.returned_of_eq heq
    simp [Fill.serves, Fill.passes, hreturned, heq]
  · exact htook.ahead_add h.ascending hcursor hi hj hpq hserves (h.not_passes_of_unread hunread)

/-- Until a fetch, partition `q` has been fetched from as often as it came behind `p`, and `p` has
been passed over as often as it came behind `q`. -/
theorem countP_serves (hf : Fetch.Ascending f.positions) (hs : Sound s)
    (hcursor : f.cursor < f.positions.length) (hi : f.assigned[i]? = some p)
    (hj : f.assigned[j]? = some q) (hpq : q ≠ p) {moments : List Moment}
    {between later : List (Fill σ)} {last : Fill σ}
    (h : k.fills moments f s = between ++ last :: later)
    (hserves : ∀ x ∈ between, x.serves p = false) (hunread : ∀ x ∈ between, k.Unread q x.before) :
    between.countP (·.serves q) + f.ahead i j =
      between.countP (·.passes p) + last.before.1.ahead i j := by
  induction moments generalizing f s between with
  | nil => simp [fills] at h
  | cons moment rest ih =>
    cases moment with
    | call call => exact ih hf (call.sound_on hs) hcursor hi hj h hserves hunread
    | elsewhere generation buffer =>
      exact ih (f := { f with generation, buffer }) hf hs hcursor hi hj h hserves hunread
    | fetch others =>
      have hfetches := k.fetches_fillAmid hf hs others
      cases between with
      | nil =>
        obtain ⟨rfl, rfl⟩ := List.cons.inj h
        rfl
      | cons x between =>
        obtain ⟨rfl, hrest⟩ := List.cons.inj h
        obtain ⟨hserves₀, hserves⟩ := List.forall_mem_cons.mp hserves
        obtain ⟨hunread₀, hunread⟩ := List.forall_mem_cons.mp hunread
        have hassigned := hfetches.assigned_eq
        have hstep := hfetches.ahead_add hcursor hi hj hpq hserves₀ hunread₀
        have hcount := ih hfetches.ascending_after hfetches.sound_after
          (hfetches.cursor_lt hcursor) (hassigned ▸ hi) (hassigned ▸ hj) hrest hserves hunread
        rw [List.countP_cons, List.countP_cons]
        simp only [before_fillAmid] at hstep
        omega

/-- Between two fetches that return records of `p`, any other partition that has unread records all
the time is fetched from one time more often than `p` is passed over because it is found empty. And
a fetch returns nothing only if nothing is there to be read from any position on, as it finds when
it asks; then it changes nothing. -/
theorem fetches_fairly (k : Consumer) (hf : Fetch.Ascending f.positions) (hs : Sound s)
    (moments : List Moment) :
    (∀ p q first between last, Span (k.fills moments f s) p first between last → q ≠ p →
      (∀ x ∈ between ++ [last], k.Unread q x.before) →
      between.countP (·.serves q) = between.countP (·.passes p) + 1) ∧
    ∀ x ∈ k.fills moments f s, x.result = .ok false →
      x.after.1 = x.before.1 ∧ ∀ p n, (p, n) ∈ x.before.1.positions →
        ∃ l ∈ x.looks, l.partition = p ∧ l.start = n ∧
          ∀ r ∈ records l.store k.topic p, r.offset < n := by
  constructor
  · intro p q first between last hspan hpq hunread
    obtain ⟨hbetween, hlast⟩ := List.forall_mem_append.mp hunread
    replace hlast := hlast last (List.mem_singleton_self last)
    obtain ⟨earlier, later, hsplit⟩ := hspan.split
    obtain ⟨hfirst, -, -, moments', hmore⟩ := fetches_of_fills hf hs hsplit
    obtain ⟨hfetches, hassigned, hcursor, -⟩ :=
      fetches_of_fills hfirst.ascending_after hfirst.sound_after hmore.symm
    obtain ⟨w, i, htook, hi⟩ := hfirst.took_of_serves hspan.first_serves
    obtain ⟨w', i', htook', hi'⟩ := hfetches.took_of_serves hspan.last_serves
    obtain ⟨n, hn, hrecord⟩ := hlast
    obtain ⟨j, hj⟩ := Fetch.exists_place hn
    -- both partitions keep their places
    have hsame := hassigned.trans hfirst.assigned_eq
    obtain rfl : i' = i := Fetch.place_unique hfetches.ascending hi' (hsame ▸ hi)
    have hne : j ≠ i' := fun heq => hpq (Option.some.inj ((heq ▸ hj).symm.trans hi'))
    -- the first fetch leaves `p` behind `q`, and the last one finds it in front
    have hbehind := htook.ahead_after (Fetch.place_lt (hsame ▸ hj))
    have hfront := htook'.ahead_before hfetches.ascending (hcursor htook.cursor_lt) hj hne
      (hfetches.not_passes_of_unread ⟨n, hn, hrecord⟩)
    have hcount := countP_serves hfirst.ascending_after hfirst.sound_after htook.cursor_lt
      (hassigned ▸ hi') (hassigned ▸ hj) hpq hmore.symm hspan.between_serves hbetween
    omega
  · intro x hx hresult
    obtain ⟨earlier, later, hsplit⟩ := List.append_of_mem hx
    exact (fetches_of_fills hf hs hsplit).1.nothing_left hresult

/-! ### A partition that is passed over -/

/-- A topic with one record in a partition, and in the other more than two fetches take. -/
def lopsided : MemoryLog :=
  { topics := [("t", #[#[("", .empty)], Array.replicate (2 * fetchBatch + 1) ("", .empty)])] }

def lopsidedReader : Consumer :=
  { id := 1, broker := 0, group := "g", topic := "t", partitions := 2 }

/-- The first partition gets a second record once the other one has been fetched from twice, and a
third one just after the last fetch has asked for it. -/
def lopsidedMoments : List Moment :=
  [.fetch [], .fetch [], .fetch [], .call (.append "t" 0 "" .empty), .fetch [], .fetch [],
    .fetch [[], [.append "t" 0 "" .empty]]]

/-- The fetches of a consumer that begins to read the topic. -/
def lopsidedFills : List (Fill MemoryLog) :=
  lopsidedReader.fills lopsidedMoments { positions := [(0, 0), (1, 0)] } lopsided

/-- Which partition each fetch is from, whether it passes over the first one, and whether the second
one has unread records before and after. -/
theorem lopsidedFills_eq : (lopsidedFills.map fun x =>
    (x.serves 0, x.serves 1, x.passes 0, decide (lopsidedReader.Unread 1 x.before),
      decide (lopsidedReader.Unread 1 x.after))) =
    [(true, false, false, true, true), (false, true, false, true, true),
      (false, true, true, true, true), (true, false, false, true, true),
      (false, true, false, true, false), (false, false, false, false, false)] := by
  decide +kernel

theorem exists_lopsidedSpan : ∃ first between last, Span lopsidedFills 0 first between last ∧
    (∀ x ∈ first :: between, lopsidedReader.Unread 1 x.after) ∧
    (∀ x ∈ between ++ [last], lopsidedReader.Unread 1 x.before) ∧
    between.map (fun x => (x.serves 1, x.passes 0)) = [(true, false), (true, true)] := by
  have hfills := lopsidedFills_eq
  obtain ⟨first, x, y, last, rest, hsplit⟩ :
      ∃ first x y last rest, lopsidedFills = first :: ([x, y] ++ last :: rest) :=
    ⟨_, _, _, _, _, rfl⟩
  rw [hsplit] at hfills
  simp only [List.cons_append, List.nil_append, List.map_cons, List.cons.injEq, Prod.mk.injEq,
    decide_eq_true_eq] at hfills
  obtain ⟨hfirst, hx, hy, hlast, -⟩ := hfills
  refine ⟨first, [x, y], last, ⟨⟨[], rest, hsplit⟩, hfirst.1, ?_, hlast.1⟩, ?_, ?_, ?_⟩
  · simp [hx, hy]
  · simp [hfirst, hx, hy]
  · simp [hx, hy, hlast]
  · simp [hx, hy]

/-- A partition may be fetched from twice in between, though it has unread records all the time. -/
theorem serves_twice_between : ∃ first between last, Span lopsidedFills 0 first between last ∧
    (∀ x ∈ first :: between, lopsidedReader.Unread 1 x.after) ∧
    (∀ x ∈ between ++ [last], lopsidedReader.Unread 1 x.before) ∧
    between.countP (·.serves 1) ≠ 1 := by
  obtain ⟨first, between, last, hspan, hafter, hbefore, hbetween⟩ := exists_lopsidedSpan
  refine ⟨first, between, last, hspan, hafter, hbefore, ?_⟩
  have hcount := congrArg (List.countP (·.1)) hbetween
  rw [List.countP_map] at hcount
  exact fun hone => by cases hone.symm.trans hcount

/-- It is fetched from once more than the other one is passed over, and in the end nothing is left. -/
theorem fetches_fairly_lopsided :
    Fetch.Ascending [(0, 0), (1, 0)] ∧ Sound lopsided ∧
    (∃ first between last, Span lopsidedFills 0 first between last ∧ (1 : Int) ≠ 0 ∧
      (∀ x ∈ between ++ [last], lopsidedReader.Unread 1 x.before) ∧
      between.countP (·.serves 1) = between.countP (·.passes 0) + 1) ∧
    ∃ x ∈ lopsidedFills, x.result = .ok false ∧ x.after.1 = x.before.1 ∧
      ∀ p n, (p, n) ∈ x.before.1.positions → ∃ l ∈ x.looks, l.partition = p ∧ l.start = n ∧
        ∀ r ∈ records l.store "t" p, r.offset < n := by
  have hascending : Fetch.Ascending [(0, 0), (1, 0)] := by
    unfold Fetch.Ascending
    decide
  have hfair := fetches_fairly lopsidedReader (f := { positions := [(0, 0), (1, 0)] })
    (s := lopsided) hascending trivial lopsidedMoments
  obtain ⟨first, between, last, hspan, -, hbefore, -⟩ := exists_lopsidedSpan
  have hcount := hfair.1 0 1 first between last hspan (by decide) hbefore
  obtain ⟨x, hx, hresult⟩ : ∃ x ∈ lopsidedFills, x.result.toOption = some false := by
    decide +kernel
  have hfalse : x.result = .ok false := by
    cases hdone : x.result with
    | error e => simp [hdone, Except.toOption] at hresult
    | ok filled => simpa [hdone, Except.toOption] using hresult
  exact ⟨hascending, trivial, ⟨first, between, last, hspan, by decide, hbefore, hcount⟩, x, hx,
    hfalse, hfair.2 x hx hfalse⟩

end Consumer

end WorkQueue
