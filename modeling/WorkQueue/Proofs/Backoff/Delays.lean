import Mathlib.Algebra.Order.Ring.Nat
import WorkQueue.Backoff.Policy

/-!
# Waits that double

An exponential policy computes its waits in words: a power that stops at the largest word, a product
that does so too, and a cap. None of this can be seen in the waits. A product too large for a word
is larger than any cap that is a word, so what is left of it behind the cap is what would have been
left of the number itself. So the waits are those of the arithmetic of naturals: they double from
attempt to attempt, up to the cap.

A span of 2 ^ 64 milliseconds or more counts by the low bits of its milliseconds, so with such spans
waits may be shorter than asked for. They still double up to what is taken for the cap, which is
never more than the cap.

## Main definitions

* `Policy.doubled`: an initial wait doubled from attempt to attempt up to a cap

## Main statements

* `Policy.capped_saturating`: stopping at the largest word does not show behind a cap
* `Policy.delay?_exponential`: the waits of an exponential policy
* `Policy.delay?_doubles`: they ascend up to the cap, and are exact
-/

namespace WorkQueue

/-! ## Words of milliseconds -/

namespace Duration

variable {d : Duration}

theorem millisWord_le (d : Duration) : d.millisWord ≤ maxWord64 := by
  unfold millisWord lowWord maxWord64
  omega

/-- Low bits are never more than the number. -/
theorem millisWord_le_toMillis (d : Duration) : d.millisWord ≤ d.toMillis := Nat.mod_le _ _

/-- A number that fits a word is its own low bits. -/
theorem millisWord_eq (h : d.toMillis ≤ maxWord64) : d.millisWord = d.toMillis :=
  Nat.mod_eq_of_lt (Nat.lt_succ_of_le h)

/-- So many whole milliseconds fit into a span. -/
theorem ofMillis_le {n : Nat} (h : n ≤ d.toMillis) : (ofMillis n).nanos ≤ d.nanos :=
  (Nat.le_div_iff_mul_le (by decide)).mp h

theorem ofMillis_mono {m n : Nat} (h : m ≤ n) : (ofMillis m).nanos ≤ (ofMillis n).nanos :=
  Nat.mul_le_mul_right _ h

end Duration

namespace Policy

/-! ## Doubling -/

/-- An initial wait doubled from attempt to attempt, up to a cap. -/
def doubled (initial cap attempt : Nat) : Nat := min (initial * 2 ^ (attempt - 1)) cap

theorem doubled_le (initial cap attempt : Nat) : doubled initial cap attempt ≤ cap :=
  Nat.min_le_right _ _

theorem doubled_mono (initial cap : Nat) {a b : Nat} (h : a ≤ b) :
    doubled initial cap a ≤ doubled initial cap b := by
  have hpower : 2 ^ (a - 1) ≤ 2 ^ (b - 1) :=
    Nat.pow_le_pow_right (by decide) (Nat.sub_le_sub_right h 1)
  have hproduct : initial * 2 ^ (a - 1) ≤ initial * 2 ^ (b - 1) := Nat.mul_le_mul_left _ hpower
  exact le_min (Nat.le_trans (Nat.min_le_left _ _) hproduct) (Nat.min_le_right _ _)

/-! ## Stopping at the largest word -/

theorem saturatingPower_eq (k : Nat) : saturatingPower k = min (2 ^ k) maxWord64 := by
  have hwords : maxWord64 + 1 = 2 ^ 64 := rfl
  unfold saturatingPower
  split
  case isTrue hk =>
    have hlt : 2 ^ k < 2 ^ 64 := Nat.pow_lt_pow_right (by decide) hk
    rw [Nat.min_eq_left (by omega)]
    rfl
  case isFalse hk =>
    have hle : 2 ^ 64 ≤ 2 ^ k := Nat.pow_le_pow_right (by decide) (Nat.le_of_not_lt hk)
    exact (Nat.min_eq_right (by omega)).symm

/-- A power and a product that stop at the largest word leave behind a cap what the numbers
themselves would leave. -/
theorem capped_saturating {initial cap : Nat} (hcap : cap ≤ maxWord64) (k : Nat) :
    min (min (initial * saturatingPower k) maxWord64) cap = min (initial * 2 ^ k) cap := by
  rw [saturatingPower_eq, Nat.min_assoc, Nat.min_eq_right hcap]
  rcases Nat.le_total (2 ^ k) maxWord64 with hsmall | hlarge
  · rw [Nat.min_eq_left hsmall]
  -- the power has stopped: unless nothing is multiplied, both products exceed the cap
  rw [Nat.min_eq_right hlarge]
  rcases Nat.eq_zero_or_pos initial with rfl | hpos
  · rw [Nat.zero_mul, Nat.zero_mul]
  · have hstopped : cap ≤ initial * maxWord64 :=
      Nat.le_trans hcap (Nat.le_mul_of_pos_left _ hpos)
    have hexact : cap ≤ initial * 2 ^ k :=
      Nat.le_trans hstopped (Nat.mul_le_mul_left _ hlarge)
    rw [Nat.min_eq_right hstopped, Nat.min_eq_right hexact]

/-! ## Waits -/

variable {attempts : Nat} {initial cap : Duration}

/-- The waits of an exponential policy, whatever its spans: those of their low bits. -/
theorem delay?_exponential {attempt : Nat} (h : attempt ≤ attempts) :
    (exponential attempts initial cap).delay? attempt =
      some (.ofMillis (doubled initial.millisWord cap.millisWord attempt)) := by
  simp only [delay?, if_pos h, doubled, capped_saturating cap.millisWord_le]

/-- **Waits double.** Within the attempts of an exponential policy every attempt has a wait, later
attempts have no shorter ones, and none exceeds the cap; behind them there is none. As long as both
spans are below 2 ^ 64 milliseconds, the wait of attempt `a` is the initial one doubled `a - 1`
times or the cap, whichever is less, in whole milliseconds and without any bound on the numbers.
Attempts count from one; asked for attempt zero, the policy answers as for the first. -/
theorem delay?_doubles {a b : Nat} (hab : a ≤ b) (hb : b ≤ attempts) :
    (∃ wait wait', (exponential attempts initial cap).delay? a = some wait ∧
      (exponential attempts initial cap).delay? b = some wait' ∧
      wait.nanos ≤ wait'.nanos ∧ wait'.nanos ≤ cap.nanos) ∧
    (∀ later, attempts < later → (exponential attempts initial cap).delay? later = none) ∧
    (initial.toMillis < 2 ^ 64 → cap.toMillis < 2 ^ 64 →
      (exponential attempts initial cap).delay? a =
        some (.ofMillis (min (initial.toMillis * 2 ^ (a - 1)) cap.toMillis))) := by
  refine ⟨⟨_, _, delay?_exponential (Nat.le_trans hab hb), delay?_exponential hb, ?ascend, ?capped⟩,
    fun later hlater => if_neg (Nat.not_le.mpr hlater), fun hinitial hcap => ?exact⟩
  case ascend => exact Duration.ofMillis_mono (doubled_mono _ _ hab)
  case capped =>
    have hword : doubled initial.millisWord cap.millisWord b ≤ cap.millisWord := doubled_le _ _ _
    exact Duration.ofMillis_le (Nat.le_trans hword cap.millisWord_le_toMillis)
  case exact =>
    rw [delay?_exponential (Nat.le_trans hab hb),
      Duration.millisWord_eq (Nat.le_of_lt_succ hinitial),
      Duration.millisWord_eq (Nat.le_of_lt_succ hcap)]
    rfl

/-- Three milliseconds and a bit, doubled up to the longest span that a word of milliseconds holds:
the sixty-third attempt is the last one whose wait fits a word, and the product of the sixty-sixth
has stopped at its power already. -/
theorem delay?_doubles_edge :
    let initial : Duration := ⟨3999999⟩
    let cap : Duration := .ofMillis maxWord64
    63 ≤ 66 ∧ 66 ≤ maxWord32 ∧ initial.toMillis < 2 ^ 64 ∧ cap.toMillis < 2 ^ 64 ∧
      (exponential maxWord32 initial cap).delay? 63 = some (.ofMillis (3 * 2 ^ 62)) ∧
      (exponential maxWord32 initial cap).delay? 66 = some cap ∧
      (exponential maxWord32 initial cap).delay? (maxWord32 + 1) = none := by
  intro initial cap
  have hinitial : initial.toMillis < 2 ^ 64 := by decide +kernel
  have hcap : cap.toMillis < 2 ^ 64 := by decide +kernel
  have hbound : 66 ≤ maxWord32 := by decide +kernel
  obtain ⟨-, hnone, hfits⟩ := @delay?_doubles maxWord32 initial cap 63 66 (by decide) hbound
  obtain ⟨-, -, hstops⟩ := @delay?_doubles maxWord32 initial cap 66 66 (Nat.le_refl 66) hbound
  have hdoubled : min (initial.toMillis * 2 ^ (63 - 1)) cap.toMillis = 3 * 2 ^ 62 := by
    decide +kernel
  have hcapped : min (initial.toMillis * 2 ^ (66 - 1)) cap.toMillis = maxWord64 := by
    decide +kernel
  refine ⟨by decide, hbound, hinitial, hcap, ?_, ?_, hnone _ (Nat.lt_succ_self _)⟩
  · rw [hfits hinitial hcap, hdoubled]
  · rw [hstops hinitial hcap, hcapped]

end Policy

end WorkQueue
