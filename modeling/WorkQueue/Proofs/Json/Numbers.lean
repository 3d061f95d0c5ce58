import Mathlib.Data.List.Basic
import WorkQueue.Proofs.Json.Text

/-!
# Whole numbers read back

A whole number that fits a 64-bit word is read as itself, from its decimal digits and a sign. What
follows it must not go on with the number: neither a digit nor a fraction nor an exponent.

## Main definitions

* `Reader.Ends`: what may stand behind a number
* `Reader.decimal`: the digits of a natural as bytes

## Main statements

* `Reader.number_int`: a whole number is read as itself
-/

namespace WorkQueue

namespace Reader

/-- What stands here does not go on with a number. -/
def Ends (s : List UInt8) : Prop :=
  ∀ b, s.head? = some b → Byte.isDigit b = false ∧
    b ≠ Byte.ofChar '.' ∧ b ≠ Byte.ofChar 'e' ∧ b ≠ Byte.ofChar 'E'

/-! ## Digits -/

/-- The digits of a natural. -/
def decimal (n : Nat) : List UInt8 := (Nat.toDigits 10 n).map Byte.ofChar

/-- A digit is one of ten characters. -/
theorem isDigit_iff {c : Char} : c.isDigit = true ↔ 48 ≤ c.toNat ∧ c.toNat ≤ 57 := by
  simp only [Char.isDigit, Bool.and_eq_true, decide_eq_true_eq, ge_iff_le, Char.toNat,
    UInt32.le_iff_toNat_le]
  rfl

theorem toNat_ofChar {c : Char} (h : c.toNat ≤ 0x7f) : (Byte.ofChar c).toNat = c.toNat := by
  simp only [Byte.ofChar, Nat.toUInt8_eq, UInt8.toNat_ofNat']
  omega

theorem isDigit_ofChar {c : Char} (h : c.isDigit = true) : Byte.isDigit (Byte.ofChar c) = true := by
  have hrange := isDigit_iff.mp h
  have hbyte := toNat_ofChar (c := c) (by omega)
  simp only [Byte.isDigit, Bool.and_eq_true, decide_eq_true_eq, UInt8.le_iff_toNat_le, hbyte]
  exact hrange

theorem digitValue_ofChar {c : Char} (h : c.isDigit = true) :
    Byte.digitValue (Byte.ofChar c) = c.toNat - '0'.toNat := by
  have hrange := isDigit_iff.mp h
  simp only [Byte.digitValue, toNat_ofChar (c := c) (by omega)]
  rfl

theorem isDigit_of_mem_decimal {n : Nat} {b : UInt8} (hb : b ∈ decimal n) :
    Byte.isDigit b = true := by
  obtain ⟨c, hc, rfl⟩ := List.mem_map.mp hb
  exact isDigit_ofChar (Nat.isDigit_of_mem_toDigits (by decide) (by decide) hc)

theorem decimal_ne_nil (n : Nat) : decimal n ≠ [] := by
  simp [decimal, Nat.toDigits_ne_nil]

theorem utf8_toString_nat (n : Nat) : utf8 (toString n) = decimal n := by
  have hascii : ∀ c ∈ Nat.toDigits 10 n, String.utf8EncodeChar c = [Byte.ofChar c] := by
    intro c hc
    have hrange := isDigit_iff.mp (Nat.isDigit_of_mem_toDigits (by decide) (by decide) hc)
    exact utf8EncodeChar_of_le (by omega)
  rw [Nat.toString_eq_ofList_toDigits, utf8_ofList, List.flatMap_congr hascii, decimal,
    List.map_eq_flatMap]

/-- The number that digits stand for, behind digits that stand for `n`. -/
def appendDigits (n : Nat) (ds : List UInt8) : Nat :=
  ds.foldl (fun n b => n * 10 + Byte.digitValue b) n

theorem le_appendDigits (n : Nat) (ds : List UInt8) : n ≤ appendDigits n ds := by
  induction ds generalizing n with
  | nil => exact Nat.le_refl n
  | cons b rest ih =>
    have hle := ih (n * 10 + Byte.digitValue b)
    show n ≤ appendDigits (n * 10 + Byte.digitValue b) rest
    omega

theorem appendDigits_map {l : List Char} (h : ∀ c ∈ l, c.isDigit = true) (n : Nat) :
    appendDigits n (l.map Byte.ofChar) = Nat.ofDigitChars 10 l n := by
  induction l generalizing n with
  | nil => rfl
  | cons c rest ih =>
    have hrest := ih fun d hd => h d (List.mem_cons_of_mem _ hd)
    rw [Nat.ofDigitChars_cons, ← hrest, ← digitValue_ofChar (h c List.mem_cons_self), Nat.mul_comm]
    rfl

theorem appendDigits_decimal (n : Nat) : appendDigits 0 (decimal n) = n := by
  have hdigits : ∀ c ∈ Nat.toDigits 10 n, c.isDigit = true := fun c hc =>
    Nat.isDigit_of_mem_toDigits (by decide) (by decide) hc
  rw [decimal, appendDigits_map hdigits, Nat.ofDigitChars_ten_toDigits]

/-- Digits whose number fits a word are all taken. -/
theorem absorb_eq {ds : List UInt8} {n : Nat} (h : appendDigits n ds ≤ maxWord64) :
    absorb n ds = (appendDigits n ds, []) := by
  induction ds generalizing n with
  | nil => rfl
  | cons b rest ih =>
    have hle := le_appendDigits (n * 10 + Byte.digitValue b) rest
    have hfits : n * 10 + Byte.digitValue b ≤ maxWord64 := Nat.le_trans hle h
    unfold absorb
    rw [if_pos hfits]
    exact ih h

/-- Only zero begins with a zero. -/
theorem head?_toDigits {n : Nat} (h : n ≠ 0) : (Nat.toDigits 10 n).head? ≠ some '0' := by
  have hdigit : ∀ n < 10, n ≠ 0 → n.digitChar ≠ '0' := by decide
  induction n using Nat.strongRecOn with
  | ind n ih =>
    by_cases hlt : n < 10
    · rw [Nat.toDigits_of_lt_base hlt]
      simpa using hdigit n hlt h
    · rw [Nat.toDigits_of_base_le (by decide) (by omega),
        List.head?_append_of_ne_nil _ Nat.toDigits_ne_nil]
      exact ih (n / 10) (by omega) (by omega)

theorem head?_decimal {n : Nat} (h : n ≠ 0) : (decimal n).head? ≠ some (Byte.ofChar '0') := by
  intro hhead
  obtain ⟨c, rest, hdigits⟩ := List.exists_cons_of_ne_nil (Nat.toDigits_ne_nil (n := n) (b := 10))
  have hc : c.isDigit = true := Nat.isDigit_of_mem_toDigits (b := 10) (n := n) (by decide)
    (by decide) (hdigits ▸ List.mem_cons_self)
  have hrange := isDigit_iff.mp hc
  refine head?_toDigits h ?_
  rw [decimal, hdigits, List.map_cons, List.head?_cons, Option.some.injEq] at hhead
  have hbyte := toNat_ofChar (c := c) (by omega)
  rw [hhead] at hbyte
  rw [hdigits, List.head?_cons, Option.some.injEq]
  exact Char.toNat_inj.mp hbyte.symm

/-- There is no leading zero in front of other digits. -/
theorem no_leading_zero (n : Nat) :
    ¬ ((decimal n).head? = some (Byte.ofChar '0') ∧ (decimal n).length > 1) := by
  rintro ⟨hhead, hlength⟩
  by_cases hn : n = 0
  · subst hn
    simp [decimal] at hlength
  · exact head?_decimal hn hhead

/-! ## Numbers -/

variable {s rest : List UInt8}

/-- Digits are taken up to the first byte that is none. -/
theorem takeWhile_digits {ds : List UInt8} (hds : ∀ b ∈ ds, Byte.isDigit b = true)
    (hstop : ∀ b, rest.head? = some b → Byte.isDigit b = false) :
    (ds ++ rest).takeWhile Byte.isDigit = ds ∧ (ds ++ rest).dropWhile Byte.isDigit = rest := by
  have hrest : rest.takeWhile Byte.isDigit = [] ∧ rest.dropWhile Byte.isDigit = rest := by
    cases rest with
    | nil => exact ⟨rfl, rfl⟩
    | cons b tail =>
      have hb := hstop b rfl
      simp [hb]
  rw [List.takeWhile_append_of_pos hds, List.dropWhile_append_of_pos hds, hrest.1, hrest.2,
    List.append_nil]
  exact ⟨rfl, rfl⟩

theorem takeWhile_decimal (n : Nat) (h : Ends rest) :
    (decimal n ++ rest).takeWhile Byte.isDigit = decimal n ∧
      (decimal n ++ rest).dropWhile Byte.isDigit = rest :=
  takeWhile_digits (fun _ hb => isDigit_of_mem_decimal hb) fun b hb => (h b hb).1

/-- Behind a number there is no mark with which it could go on. -/
theorem Ends.no_mark (h : Ends rest) {c : Char} (hc : c ∈ ['.', 'e', 'E']) :
    (rest.head? == some (Byte.ofChar c)) = false := by
  rw [beq_eq_false_iff_ne]
  intro heq
  obtain ⟨-, hdot, he, hE⟩ := h _ heq
  simp only [List.mem_cons, List.not_mem_nil, or_false] at hc
  rcases hc with rfl | rfl | rfl
  · exact hdot rfl
  · exact he rfl
  · exact hE rfl

/-- Without a fraction or an exponent a number is whole. -/
theorem numberTail_ends (negative : Bool) (significand dropped : Nat) (whole : Reader Json)
    (h : Ends rest) : numberTail negative significand dropped whole rest = whole rest := by
  simp only [numberTail, bind_apply, peek?, h.no_mark (c := '.') (by simp),
    h.no_mark (c := 'e') (by simp), h.no_mark (c := 'E') (by simp), Bool.or_self,
    Bool.false_eq_true, if_false]

/-- Digits are read as the number they stand for, as far as words go. -/
theorem unsignedNumber_decimal (negative : Bool) {n : Nat} (hn : n ≤ maxWord64) (h : Ends rest) :
    unsignedNumber negative (decimal n ++ rest) = wholeNumber negative n 0 rest := by
  obtain ⟨htake, hdrop⟩ := takeWhile_decimal n h
  obtain ⟨b, tail, hb⟩ := List.exists_cons_of_ne_nil (decimal_ne_nil n)
  have hdigit : Byte.isDigit b = true := isDigit_of_mem_decimal (n := n) (hb ▸ List.mem_cons_self)
  have hhead : (decimal n ++ rest).head? = some b := by rw [hb]; rfl
  have hzero : ¬ (b = Byte.ofChar '0' ∧ (decimal n).length > 1) := by
    rintro ⟨rfl, hlength⟩
    exact no_leading_zero n ⟨by rw [hb]; rfl, hlength⟩
  have habsorb : absorb 0 (decimal n) = (n, []) := by
    rw [absorb_eq (by rwa [appendDigits_decimal]), appendDigits_decimal]
  simp only [unsignedNumber, bind_apply, peek?, digits, hhead, hdigit, htake, hdrop, if_neg hzero,
    habsorb, not_true, if_false, List.length_nil, numberTail_ends _ _ _ _ h]

/-- The sign and the digits of a whole number. -/
def wholeBytes : Int → List UInt8
  | .ofNat n => decimal n
  | .negSucc n => Byte.ofChar '-' :: decimal (n + 1)

theorem utf8_toString_int (n : Int) : utf8 (toString n) = wholeBytes n := by
  cases n with
  | ofNat n => exact utf8_toString_nat n
  | negSucc n =>
    show utf8 ("-" ++ toString (n + 1)) = _
    rw [utf8_append, utf8_toString_nat]
    rfl

theorem wholeBytes_head (n : Int) : ∃ b tail, wholeBytes n = b :: tail ∧
    (b = Byte.ofChar '-' ∨ Byte.isDigit b = true) := by
  cases n with
  | ofNat n =>
    obtain ⟨b, tail, hb⟩ := List.exists_cons_of_ne_nil (decimal_ne_nil n)
    exact ⟨b, tail, hb, .inr (isDigit_of_mem_decimal (n := n) (hb ▸ List.mem_cons_self))⟩
  | negSucc n => exact ⟨_, _, rfl, .inl rfl⟩

/-- A whole number is read as itself. -/
theorem number_int {n : Int} (hn : Json.fitsWord n = true) (h : Ends rest) {b : UInt8}
    {tail : List UInt8} (hb : wholeBytes n = b :: tail) :
    number b (wholeBytes n ++ rest) = .ok (.int n, rest) := by
  simp only [Json.fitsWord, Bool.and_eq_true, decide_eq_true_eq, minSigned64] at hn
  cases n with
  | ofNat n =>
    have hdigit : Byte.isDigit b = true :=
      isDigit_of_mem_decimal (n := n) (show b ∈ wholeBytes (.ofNat n) from hb ▸ List.mem_cons_self)
    have hsign : b ≠ Byte.ofChar '-' := by
      rintro rfl
      exact absurd hdigit (by decide)
    have hfits : n ≤ maxWord64 := by
      have hle : ((n : Nat) : Int) ≤ maxWord64 := hn.2
      omega
    rw [number, if_neg hsign]
    exact unsignedNumber_decimal false hfits h
  | negSucc n =>
    obtain ⟨rfl, -⟩ := List.cons.inj hb
    have hfits : n + 1 ≤ maxWord64 := by
      simp only [maxWord64]
      omega
    have hinside : ¬ (-((n + 1 : Nat) : Int) = 0 ∨ -((n + 1 : Nat) : Int) < minSigned64) := by
      simp only [minSigned64]
      omega
    have hread := unsignedNumber_decimal true hfits h
    simp only [number, if_true, bind_apply, skip, wholeBytes, List.cons_append, List.tail_cons,
      hread, wholeNumber, not_true, if_false, if_neg hinside]
    rfl

end Reader

end WorkQueue
