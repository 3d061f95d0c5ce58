/-!
# Powers and words

Powers of two and ten, and the numbers that fit into words of a fixed width. A number that does not
fit a signed word is stored modulo the number of words, as the word with the same low bits.

## Main definitions

* `pow2`, `pow10`: powers in the natural numbers
* `maxWord32`, `maxWord64`, `minSigned64`, `maxSigned64`: the ends of the ranges
* `toWord`, `ofWord`: between a number and the signed 64-bit word it is stored as
-/

namespace WorkQueue

/-- The `k`-th power of two. -/
def pow2 (k : Nat) : Nat := Nat.pow 2 k

/-- The `k`-th power of ten. -/
def pow10 (k : Nat) : Nat := Nat.pow 10 k

/-- The largest unsigned 32-bit word. -/
abbrev maxWord32 : Nat := 4294967295

/-- The largest unsigned 64-bit word. -/
abbrev maxWord64 : Nat := 18446744073709551615

/-- The smallest signed 64-bit word. -/
abbrev minSigned64 : Int := -9223372036854775808

/-- The largest signed 64-bit word. -/
abbrev maxSigned64 : Int := 9223372036854775807

/-- The low 64 bits of a natural. -/
def lowWord (n : Nat) : Nat := n % 18446744073709551616

/-- A number as a signed 64-bit word. -/
def toWord (n : Int) : Int := Int.bmod n 18446744073709551616

/-- A signed 64-bit word as an unsigned number. -/
def ofWord (n : Int) : Nat := (n % 18446744073709551616).toNat

/-- A number that fits a signed word is stored as it is. -/
theorem toWord_eq_self {n : Int} (low : minSigned64 ≤ n) (high : n ≤ maxSigned64) :
    toWord n = n := by
  simp only [toWord, minSigned64, maxSigned64, Int.bmod] at *
  omega

example : pow2 64 = maxWord64 + 1 ∧ toWord (maxWord64 : Int) = -1 ∧ ofWord (-1) = maxWord64 := by
  decide +kernel

end WorkQueue
