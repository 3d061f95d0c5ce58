import WorkQueue.Proofs.Json.Numbers

/-!
# How numbers are written

A number is written as digits with no zero in front of others, maybe a fraction and maybe an
exponent. That whole numbers are is plain. A double is laid out in four ways, and all of them keep
to this because its digits are not zero: no point of its interval is.

## Main definitions

* `Reader.Unsigned`, `Reader.Numeral`: the grammar of numbers

## Main statements

* `Binary64.shortest_eq_zero`: the digits of a double other than zero
* `Reader.numeral_int`, `Reader.numeral_text`: what is printed for a number keeps to the grammar
-/

namespace WorkQueue

/-! ## The digits of doubles -/

namespace Binary64

theorem pow10_pos (k : Nat) : 0 < pow10 k := Nat.pow_pos (by decide)

theorem pow2_pos (k : Nat) : 0 < pow2 k := Nat.pow_pos (by decide)

/-- Zero lies in no interval that begins above it. -/
theorem Interval.holds_zero {i : Interval} {den : Nat} (hlow : 0 < i.low) (hden : 0 < den) :
    i.holds den 0 = false := by
  have hpos : 0 < i.low * den := Nat.mul_pos hlow hden
  unfold Interval.holds
  split
  · rw [decide_eq_false (by omega), Bool.false_and]
  · rw [decide_eq_false (by omega), Bool.false_and]

theorem low_interval_pos {x : Binary64} (h : x.mantissa ≠ 0) : 0 < x.interval.low := by
  simp only [interval]
  split <;> omega

/-- A point of the grid that reads back as a double other than zero is not zero. -/
theorem gridPoint?_ne_zero {i : Interval} {unitNum unitDen d : Nat} {k : Int} (hlow : 0 < i.low)
    (hunit : 0 < unitNum) (h : gridPoint? i unitNum unitDen k = some d) : d ≠ 0 := by
  have hten : 0 < (tenTo k).2 := by
    unfold tenTo
    split
    · exact Nat.one_pos
    · exact pow10_pos _
  have hden : 0 < unitNum * (tenTo k).2 := Nat.mul_pos hunit hten
  unfold gridPoint? at h
  simp only at h
  generalize i.value * (unitNum * (tenTo k).2) / ((tenTo k).1 * unitDen) = below at h
  -- the neighbour below is taken only if it lies in the interval
  have hbelow : i.holds (unitNum * (tenTo k).2) (below * ((tenTo k).1 * unitDen)) = true →
      below ≠ 0 := by
    rintro hhit rfl
    rw [Nat.zero_mul, Interval.holds_zero hlow hden] at hhit
    cases hhit
  split at h
  · cases h
  · next hhit _ => exact Option.some.inj h ▸ hbelow hhit
  · exact Option.some.inj h ▸ Nat.succ_ne_zero below
  · next hhit _ =>
    have hne := hbelow hhit
    split at h
    · exact Option.some.inj h ▸ hne
    split at h
    · exact Option.some.inj h ▸ Nat.succ_ne_zero below
    · have hd := Option.some.inj h
      omega

theorem stripZeros_ne_zero (fuel : Nat) {d : Nat} (k : Int) (h : d ≠ 0) :
    (stripZeros fuel d k).1 ≠ 0 := by
  induction fuel generalizing d k with
  | zero => exact h
  | succ fuel ih =>
    unfold stripZeros
    split
    · exact ih _ (by omega)
    · exact h

/-- The digits of a double other than zero are zero only where no digits are found at all. -/
theorem shortest_eq_zero {x : Binary64} (hx : x.mantissa ≠ 0) (h : x.shortest.1 = 0) :
    x.shortest.2 = 0 := by
  have hunit : 0 < (shifted 1 1 (2 - x.exponent)).1 := by
    unfold shifted
    split
    · exact Nat.one_pos
    · exact Nat.mul_pos Nat.one_pos (pow2_pos _)
  unfold shortest at h ⊢
  simp only at h ⊢
  split
  · next d k hfound =>
    rw [hfound] at h
    obtain ⟨n, -, hn⟩ := List.exists_of_findSome?_eq_some hfound
    obtain ⟨point, hpoint, heq⟩ := Option.map_eq_some_iff.mp hn
    obtain ⟨rfl, -⟩ := Prod.mk.inj heq
    exact absurd h (stripZeros_ne_zero _ _ (gridPoint?_ne_zero (low_interval_pos hx) hunit hpoint))
  · rfl

end Binary64

namespace Reader

/-! ## The grammar of numbers -/

/-- Digits, at least one. -/
structure Digits (ds : List UInt8) : Prop where
  ne_nil : ds ≠ []
  all : ∀ b ∈ ds, Byte.isDigit b = true

/-- Digits without a zero in front of others. -/
structure Whole (ds : List UInt8) : Prop extends Digits ds where
  no_zero : ¬ (ds.head? = some (Byte.ofChar '0') ∧ ds.length > 1)

/-- A point with digits, if anything. -/
inductive Fraction : List UInt8 → Prop where
  | none : Fraction []
  | digits {ds : List UInt8} : Digits ds → Fraction (Byte.ofChar '.' :: ds)

/-- An exponent with a sign, if anything. -/
inductive Exponent : List UInt8 → Prop where
  | none : Exponent []
  | digits {sign : UInt8} {ds : List UInt8} : sign = Byte.ofChar '-' ∨ sign = Byte.ofChar '+' →
      Digits ds → Exponent (Byte.ofChar 'e' :: sign :: ds)

/-- A number without its sign. -/
inductive Unsigned : List UInt8 → Prop where
  | parts {whole fraction exponent : List UInt8} : Whole whole → Fraction fraction →
      Exponent exponent → Unsigned (whole ++ (fraction ++ exponent))

/-- A number. -/
inductive Numeral : List UInt8 → Prop where
  | unsigned {s : List UInt8} : Unsigned s → Numeral s
  | negative {s : List UInt8} : Unsigned s → Numeral (Byte.ofChar '-' :: s)

variable {ds s : List UInt8}

/-- A number begins with its sign or a digit. -/
theorem Unsigned.head (h : Unsigned s) : ∃ b tail, s = b :: tail ∧ Byte.isDigit b = true := by
  obtain @⟨whole, fraction, exponent, hwhole, -, -⟩ := h
  obtain ⟨b, tail, rfl⟩ := List.exists_cons_of_ne_nil hwhole.ne_nil
  exact ⟨b, _, rfl, hwhole.all b List.mem_cons_self⟩

theorem Numeral.head (h : Numeral s) :
    ∃ b tail, s = b :: tail ∧ (b = Byte.ofChar '-' ∨ Byte.isDigit b = true) := by
  cases h with
  | unsigned h =>
    obtain ⟨b, tail, rfl, hb⟩ := h.head
    exact ⟨b, tail, rfl, .inr hb⟩
  | negative h => exact ⟨_, _, rfl, .inl rfl⟩

/-! ## Whole numbers -/

theorem digits_decimal (n : Nat) : Digits (decimal n) :=
  ⟨decimal_ne_nil n, fun _ hb => isDigit_of_mem_decimal hb⟩

theorem whole_decimal (n : Nat) : Whole (decimal n) := ⟨digits_decimal n, no_leading_zero n⟩

theorem unsigned_decimal (n : Nat) : Unsigned (decimal n) := by
  have h := Unsigned.parts (whole_decimal n) .none .none
  rwa [List.append_nil, List.append_nil] at h

theorem numeral_int (n : Int) : Numeral (wholeBytes n) := by
  cases n with
  | ofNat n => exact .unsigned (unsigned_decimal n)
  | negSucc n => exact .negative (unsigned_decimal (n + 1))

/-! ## Pieces of digits -/

theorem Digits.append {ds' : List UInt8} (h : Digits ds) (h' : ∀ b ∈ ds', Byte.isDigit b = true) :
    Digits (ds ++ ds') :=
  ⟨List.append_ne_nil_of_left_ne_nil h.ne_nil _,
    fun b hb => (List.mem_append.mp hb).elim (h.all b) (h' b)⟩

theorem Digits.prepend {ds' : List UInt8} (h : Digits ds) (h' : ∀ b ∈ ds', Byte.isDigit b = true) :
    Digits (ds' ++ ds) :=
  ⟨List.append_ne_nil_of_right_ne_nil _ h.ne_nil,
    fun b hb => (List.mem_append.mp hb).elim (h' b) (h.all b)⟩

theorem Digits.take (h : Digits ds) {n : Nat} (hn : 0 < n) : Digits (ds.take n) :=
  ⟨by simpa [List.take_eq_nil_iff] using ⟨Nat.ne_of_gt hn, h.ne_nil⟩,
    fun b hb => h.all b (List.mem_of_mem_take hb)⟩

theorem Digits.drop (h : Digits ds) {n : Nat} (hn : n < ds.length) : Digits (ds.drop n) :=
  ⟨by simpa [List.drop_eq_nil_iff] using hn, fun b hb => h.all b (List.mem_of_mem_drop hb)⟩

/-- Digits that begin with no zero. -/
theorem Digits.whole (h : Digits ds) (hhead : ds.head? ≠ some (Byte.ofChar '0')) : Whole ds :=
  ⟨h, fun hzero => hhead hzero.1⟩

theorem isDigit_of_mem_zeros {n : Nat} : ∀ b ∈ List.replicate n (Byte.ofChar '0'),
    Byte.isDigit b = true := by
  intro b hb
  rw [List.eq_of_mem_replicate hb]
  decide

/-! ## Doubles -/

/-- The bytes of digits. -/
theorem utf8_digits {l : List Char} (h : ∀ c ∈ l, c.isDigit = true) :
    utf8 (String.ofList l) = l.map Byte.ofChar := by
  have hascii : ∀ c ∈ l, String.utf8EncodeChar c = [Byte.ofChar c] := by
    intro c hc
    have hrange := isDigit_iff.mp (h c hc)
    exact utf8EncodeChar_of_le (by omega)
  rw [utf8_ofList, List.flatMap_congr hascii, List.map_eq_flatMap]

theorem toList_toString_nat (d : Nat) : (toString d).toList = Nat.toDigits 10 d := by
  rw [Nat.toString_eq_ofList_toDigits, String.toList_ofList]

theorem isDigit_of_mem_toList {d : Nat} {c : Char} (hc : c ∈ (toString d).toList) :
    c.isDigit = true := by
  rw [toList_toString_nat] at hc
  exact Nat.isDigit_of_mem_toDigits (by decide) (by decide) hc

theorem length_toString_nat (d : Nat) : (toString d).length = (decimal d).length := by
  rw [← String.length_toList, toList_toString_nat, decimal, List.length_map]

theorem utf8_take (d n : Nat) : utf8 ((toString d).take n).toString = (decimal d).take n := by
  have hlist : ((toString d).take n).toString.toList = (toString d).toList.take n :=
    String.toList_copy_take
  rw [← String.ofList_toList (s := ((toString d).take n).toString), hlist,
    utf8_digits fun c hc => isDigit_of_mem_toList (List.mem_of_mem_take hc), List.map_take,
    toList_toString_nat]
  rfl

theorem utf8_drop (d n : Nat) : utf8 ((toString d).drop n).toString = (decimal d).drop n := by
  have hlist : ((toString d).drop n).toString.toList = (toString d).toList.drop n :=
    String.toList_copy_drop
  rw [← String.ofList_toList (s := ((toString d).drop n).toString), hlist,
    utf8_digits fun c hc => isDigit_of_mem_toList (List.mem_of_mem_drop hc), List.map_drop,
    toList_toString_nat]
  rfl

theorem utf8_zeros (n : Nat) : utf8 ("".pushn '0' n) = List.replicate n (Byte.ofChar '0') := by
  have hlist : ("".pushn '0' n).toList = List.replicate n '0' := by
    rw [String.pushn_eq_repeat_push]
    induction n with
    | zero => rfl
    | succ n ih => rw [Nat.repeat, String.toList_push, ih, List.replicate_succ']
  rw [← String.ofList_toList (s := "".pushn '0' n), hlist,
    utf8_digits (fun c hc => by rw [List.eq_of_mem_replicate hc]; decide), List.map_replicate]

/-- Digits with zeros behind them and a fraction of zero. -/
theorem unsigned_padded {d n : Nat} (h : d = 0 → n = 0) :
    Unsigned
      (decimal d ++ (List.replicate n (Byte.ofChar '0') ++ Byte.ofChar '.' :: decimal 0)) := by
  have hwhole : Whole (decimal d ++ List.replicate n (Byte.ofChar '0')) := by
    by_cases hzero : d = 0
    · rw [h hzero]
      simpa using whole_decimal d
    · refine ((digits_decimal d).append isDigit_of_mem_zeros).whole ?_
      rw [List.head?_append_of_ne_nil _ (decimal_ne_nil d)]
      exact head?_decimal hzero
  simpa using Unsigned.parts hwhole (.digits (digits_decimal 0)) .none

/-- Digits with a point between two of them. -/
theorem unsigned_pointed {d n : Nat} (hd : d ≠ 0) (hpos : 0 < n) (hlt : n < (decimal d).length) :
    Unsigned ((decimal d).take n ++ Byte.ofChar '.' :: (decimal d).drop n) := by
  have hwhole : Whole ((decimal d).take n) := by
    refine ((digits_decimal d).take hpos).whole ?_
    rw [List.head?_take, if_neg (Nat.ne_of_gt hpos)]
    exact head?_decimal hd
  simpa using Unsigned.parts hwhole (.digits ((digits_decimal d).drop hlt)) .none

/-- Digits behind the point, with zeros in front of them. -/
theorem unsigned_small (d n : Nat) : Unsigned
    (decimal 0 ++ Byte.ofChar '.' :: (List.replicate n (Byte.ofChar '0') ++ decimal d)) := by
  simpa using Unsigned.parts (whole_decimal 0)
    (.digits ((digits_decimal d).prepend isDigit_of_mem_zeros)) .none

/-- One digit, a point in front of the others if there are any, and an exponent. -/
theorem unsigned_scientific (d : Nat) {fraction exponent : List UInt8}
    (hfraction : fraction = if (decimal d).drop 1 = [] then []
      else Byte.ofChar '.' :: (decimal d).drop 1)
    (hexponent : Exponent exponent) :
    Unsigned ((decimal d).take 1 ++ (fraction ++ exponent)) := by
  have hwhole : Whole ((decimal d).take 1) :=
    ⟨(digits_decimal d).take Nat.one_pos, fun h => by
      have hlength := List.length_take_le 1 (decimal d)
      omega⟩
  refine .parts hwhole ?_ hexponent
  rw [hfraction]
  split
  · exact .none
  · next hne => exact .digits ⟨hne, fun b hb => (digits_decimal d).all b (List.mem_of_mem_drop hb)⟩

theorem exponent_int (e : Int) : Exponent (Byte.ofChar 'e' ::
    (utf8 (if e < 0 then "-" else "+") ++ decimal e.natAbs)) := by
  split
  · exact .digits (.inl rfl) (digits_decimal _)
  · exact .digits (.inr rfl) (digits_decimal _)

theorem isEmpty_iff_utf8 {t : String} : t.isEmpty = true ↔ utf8 t = [] := by
  rw [String.isEmpty_iff]
  exact ⟨fun h => by rw [h]; rfl, fun h => utf8_injective (t := "") h⟩

/-- However digits are laid out, they make a number, unless they are zero and more zeros would come
behind. -/
theorem unsigned_renderDigits (style : Binary64.Layout) {d : Nat} {k : Int} (hd : d = 0 → k = 0) :
    Unsigned (utf8 (Binary64.renderDigits style d k)) := by
  have hcount : 0 < (decimal d).length := List.length_pos_of_ne_nil (decimal_ne_nil d)
  have hpoint : utf8 "." = [Byte.ofChar '.'] := rfl
  unfold Binary64.renderDigits
  dsimp only
  rw [length_toString_nat]
  split
  case isTrue =>
    split
    case isTrue hk =>
      have hbytes : utf8 ".0" = Byte.ofChar '.' :: decimal 0 := rfl
      rw [utf8_append, utf8_append, utf8_toString_nat, utf8_zeros, hbytes, List.append_assoc]
      exact unsigned_padded fun hzero => by rw [hd hzero]; rfl
    case isFalse hk =>
      split
      case isTrue he =>
        have hzero : d ≠ 0 := fun hzero => hk (Int.le_of_eq (hd hzero).symm)
        rw [utf8_append, utf8_append, utf8_take, utf8_drop, hpoint, List.append_assoc]
        exact unsigned_pointed hzero (by omega) (by omega)
      case isFalse he =>
        have hbytes : utf8 "0." = decimal 0 ++ [Byte.ofChar '.'] := rfl
        rw [utf8_append, utf8_append, utf8_toString_nat, utf8_zeros, hbytes, List.append_assoc,
          List.append_assoc]
        exact unsigned_small d _
  case isFalse =>
    have hletter : utf8 "e" = [Byte.ofChar 'e'] := rfl
    simp only [utf8_append, utf8_take, utf8_toString_nat, hletter, isEmpty_iff_utf8, utf8_drop,
      List.append_assoc]
    refine unsigned_scientific d ?_ (exponent_int _)
    split
    · rfl
    · rw [utf8_append, utf8_drop, hpoint]
      rfl

theorem numeral_text (x : Binary64) : Numeral (utf8 x.text) := by
  have hmagnitude : Unsigned (utf8 (if x.mantissa = 0 then "0.0"
      else Binary64.renderDigits Binary64.standardLayout x.shortest.1 x.shortest.2)) := by
    split
    case isTrue =>
      exact .parts (whole_decimal 0) (.digits (digits_decimal 0)) .none
    case isFalse hx => exact unsigned_renderDigits _ (Binary64.shortest_eq_zero hx)
  unfold Binary64.text
  dsimp only
  split
  · rw [utf8_append]
    exact .negative hmagnitude
  · exact .unsigned hmagnitude

end Reader

end WorkQueue
