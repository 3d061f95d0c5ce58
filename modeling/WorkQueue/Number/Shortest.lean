import WorkQueue.Number.Binary64

/-!
# The fewest digits that read back

Every double owns the interval of reals that round to it. The digits chosen for it are those of
the coarsest decimal grid with a point in that interval, and of two such points the nearer one
(an exact tie goes to the even digit). The search is exact: all comparisons are between naturals.

## Main definitions

* `Binary64.shortest`: the digits, as a natural, and the power of ten they are multiplied by
* `Binary64.text`: the written form, positional or with an exponent
-/

namespace WorkQueue

namespace Binary64

/-! ## §1 The interval of a double -/

/-- A double and the ends of its interval, in quarters of the unit `2 ^ exponent`. The gap below a
power of two is half as wide as the gap above it. -/
structure Interval where
  low : Nat
  value : Nat
  high : Nat
  /-- The ends round to the double as well. -/
  closed : Bool

/-- The interval of a positive double. -/
def interval (x : Binary64) : Interval where
  low := 4 * x.mantissa - (if x.mantissa = pow2 52 ∧ x.exponent > -1074 then 1 else 2)
  value := 4 * x.mantissa
  high := 4 * x.mantissa + 2
  closed := x.mantissa % 2 == 0

/-- Does `point`, written in the same unit as the interval times `den`, lie in it? -/
def Interval.holds (i : Interval) (den point : Nat) : Bool :=
  if i.closed then decide (i.low * den ≤ point) && decide (point ≤ i.high * den)
  else decide (i.low * den < point) && decide (point < i.high * den)

/-! ## §2 Decimal grids -/

/-- `10 ^ k` as a quotient of naturals. -/
def tenTo (k : Int) : Nat × Nat :=
  if k ≥ 0 then (pow10 k.toNat, 1) else (1, pow10 (-k).toNat)

/-- The largest `k` with `10 ^ k ≤ num / den`. -/
def decimalExponent (num den : Nat) : Int :=
  let guess := ((Nat.log2 num : Int) - Nat.log2 den - 1) * 30103 / 100000
  let fits (k : Int) : Bool := let (a, b) := tenTo k; decide (a * den ≤ num * b)
  match [guess + 2, guess + 1, guess].find? fits with
  | some k => k
  | none => guess - 1

/-- The multiple of `10 ^ k` that reads back as the double of interval `i`, whose unit is
`unitNum / unitDen`: of the two neighbours of the value on that grid the nearer one. -/
def gridPoint? (i : Interval) (unitNum unitDen : Nat) (k : Int) : Option Nat :=
  let (a, b) := tenTo k
  -- a point `n · 10 ^ k` is `n * step` in units of `1 / den` quarters
  let step := a * unitDen
  let den := unitNum * b
  let below := i.value * den / step
  let excess := i.value * den - below * step
  let lowHit := i.holds den (below * step)
  let highHit := i.holds den ((below + 1) * step)
  match lowHit, highHit with
  | false, false => none
  | true, false => some below
  | false, true => some (below + 1)
  | true, true =>
    if 2 * excess < step then some below
    else if step < 2 * excess then some (below + 1)
    else some (below + below % 2)

/-- Drop trailing zeros, raising the exponent. -/
def stripZeros : Nat → Nat → Int → Nat × Int
  | 0, digits, k => (digits, k)
  | fuel + 1, digits, k =>
    if digits % 10 = 0 then stripZeros fuel (digits / 10) (k + 1) else (digits, k)

/-- Digits and power of ten of a positive double: seventeen digits always suffice. -/
def shortest (x : Binary64) : Nat × Int :=
  let (unitNum, unitDen) := shifted 1 1 (2 - x.exponent)
  let i := x.interval
  let top := decimalExponent (i.value * unitNum) unitDen
  match (List.range 17).findSome? fun (n : Nat) =>
      (gridPoint? i unitNum unitDen (top - n)).map fun d => (d, top - (n : Int)) with
  | some (d, k) => stripZeros 20 d k
  | none => (0, 0)

/-! ## §3 Written form -/

/-- Where the positional form ends: `leastPositional ≤ e ≤ greatestPositional` for the exponent `e`
of the first digit. -/
structure Layout where
  leastPositional : Int
  greatestPositional : Int

/-- Numbers are positional from `0.00001` up to sixteen digits before the point. -/
def standardLayout : Layout := ⟨-5, 15⟩

/-- Text of the digits `d · 10 ^ k`: a positional number keeps a point, an exponent has a sign. -/
def renderDigits (style : Layout) (d : Nat) (k : Int) : String :=
  let digits := toString d
  let count := digits.length
  let e := k + count - 1
  if style.leastPositional ≤ e ∧ e ≤ style.greatestPositional then
    if k ≥ 0 then digits ++ "".pushn '0' k.toNat ++ ".0"
    else if e ≥ 0 then
      let whole := (e + 1).toNat
      (digits.take whole).toString ++ "." ++ (digits.drop whole).toString
    else "0." ++ "".pushn '0' (-e - 1).toNat ++ digits
  else
    let tail := (digits.drop 1).toString
    let mantissa := (digits.take 1).toString ++ (if tail.isEmpty then "" else "." ++ tail)
    mantissa ++ "e" ++ (if e < 0 then "-" else "+") ++ toString e.natAbs

/-- The written form of a double: `1.0`, `0.001`, `1e+16`, `-0.0`. -/
def text (x : Binary64) : String :=
  let magnitude :=
    if x.mantissa = 0 then "0.0"
    else let (d, k) := x.shortest; renderDigits standardLayout d k
  if x.negative then "-" ++ magnitude else magnitude

end Binary64

end WorkQueue
