import WorkQueue.Number.Word

/-!
# Finite double-precision numbers

A `Binary64` is the exact dyadic value `± mantissa · 2 ^ exponent` of a finite double.
Arithmetic is done on exact quotients of naturals and rounded once, to the nearest double
with ties going to the even mantissa; a result beyond the largest finite double is `none`.

## Main definitions

* `Binary64.ofRatio?`: the double nearest to a quotient
* `Binary64.mul?`, `Binary64.div?`: rounded product and quotient of magnitudes
* `Binary64.scale?`: a whole number times a power of ten, rounded step by step
-/

namespace WorkQueue

/-- A finite double. `mantissa < 2 ^ 53`, and `mantissa ≥ 2 ^ 52` unless the exponent is the
smallest one, -1074. -/
structure Binary64 where
  negative : Bool
  mantissa : Nat
  exponent : Int
  deriving DecidableEq, Repr, Inhabited

namespace Binary64

/-! ## §1 Rounding -/

/-- Numerator and denominator of `(num / den) · 2 ^ (-e)`. -/
def shifted (num den : Nat) (e : Int) : Nat × Nat :=
  if e ≥ 0 then (num, den * pow2 e.toNat) else (num * pow2 (-e).toNat, den)

/-- The natural nearest to `num / den`, a tie going to the even one. -/
def roundEven (num den : Nat) : Nat :=
  let q := num / den
  let twice := 2 * (num % den)
  if twice < den then q
  else if den < twice then q + 1
  else q + q % 2

/-- The exponent that puts `num / den` between `2 ^ 52` and `2 ^ 53`, never below -1074. -/
def exponentOf (num den : Nat) : Int :=
  let guess : Int := (Nat.log2 num : Int) - Nat.log2 den - 52
  let (n, d) := shifted num den guess
  max (if n < pow2 52 * d then guess - 1 else guess) (-1074)

/-- The nonnegative double nearest to `num / den`; `none` if it exceeds the largest one. -/
def ofRatio? (num den : Nat) : Option Binary64 :=
  if num = 0 then some ⟨false, 0, -1074⟩
  else
    let e := exponentOf num den
    let (n, d) := shifted num den e
    let m := roundEven n d
    let (m, e) := if m = pow2 53 then (pow2 52, e + 1) else (m, e)
    if e > 971 then none else some ⟨false, m, e⟩

/-- The nonnegative double nearest to a natural. -/
def ofNat? (n : Nat) : Option Binary64 := ofRatio? n 1

/-! ## §2 Arithmetic on magnitudes -/

/-- Rounded product of the magnitudes. -/
def mul? (x y : Binary64) : Option Binary64 :=
  let (n, d) := shifted (x.mantissa * y.mantissa) 1 (-(x.exponent + y.exponent))
  ofRatio? n d

/-- Rounded quotient of the magnitudes, for a divisor that is not zero. -/
def div? (x y : Binary64) : Option Binary64 :=
  let (n, d) := shifted x.mantissa y.mantissa (y.exponent - x.exponent)
  ofRatio? n d

/-- The same magnitude with the given sign. -/
def withSign (x : Binary64) (negative : Bool) : Binary64 := { x with negative }

/-- The double nearest to `10 ^ k`. -/
def powerOfTen? (k : Nat) : Option Binary64 := ofNat? (pow10 k)

/-- `x · 10 ^ e`, with one rounding per factor: the factor is the double nearest to a power of
ten with an exponent of at most 308, so a smaller exponent is worked off 308 at a time. -/
def scale? (x : Binary64) (e : Int) : Option Binary64 :=
  if e < -308 then
    if x.mantissa = 0 then some x
    else (powerOfTen? 308).bind fun p => (x.div? p).bind fun y => scale? y (e + 308)
  else if e < 0 then (powerOfTen? (-e).toNat).bind x.div?
  else if e ≤ 308 then (powerOfTen? e.toNat).bind x.mul?
  else if x.mantissa = 0 then some x
  else none
termination_by (-e).toNat
decreasing_by omega

/-! ## §3 Examples -/

example : ofNat? 1 = some ⟨false, pow2 52, -52⟩ := by decide +kernel

example : ofNat? (pow2 53 + 1) = some ⟨false, pow2 52, 1⟩ := by decide +kernel

example : ofRatio? 1 (pow2 1075) = some ⟨false, 0, -1074⟩ := by decide +kernel

example : ofNat? (pow2 1024) = none := by decide +kernel

end Binary64

end WorkQueue
