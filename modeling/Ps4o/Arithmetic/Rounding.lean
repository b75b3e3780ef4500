import Mathlib.Data.Int.Log
import Mathlib.Data.Rat.Floor
import Mathlib.Tactic.Linarith
import Mathlib.Tactic.Positivity
import Mathlib.Tactic.Ring

/-!
# Rounding to a number of binary places

Floating point numbers with `p` significant bits, taken as rational numbers: what rounding to
nearest, ties to even, makes of a number. Exponents are unbounded, so nothing overflows and nothing
is subnormal.

## What is proved

* `abs_roundEven_sub_le` — the nearest integer is half an integer away at most.
* `abs_round_sub_le` — the error of a rounded number is relative to the number.
* `round_nonneg`, `round_le` — rounding keeps the sign, and how much larger it makes a number.
-/

namespace Ps4o.Arithmetic

/-- The nearest integer; of two that are equally near, the even one. -/
def roundEven (x : ℚ) : ℤ :=
  if Int.fract x < 1 / 2 then ⌊x⌋
  else if 1 / 2 < Int.fract x then ⌊x⌋ + 1
  else if ⌊x⌋ % 2 = 0 then ⌊x⌋
  else ⌊x⌋ + 1

/-- The unit in the last of `p` places of `x`. -/
def lastPlace (p : ℕ) (x : ℚ) : ℚ := 2 ^ (Int.log 2 |x| - (p - 1))

/-- The nearest number with `p` places. -/
def round (p : ℕ) (x : ℚ) : ℚ := roundEven (x / lastPlace p x) * lastPlace p x

/-- What a `double` makes of a number. -/
def toDouble : ℚ → ℚ := round 53

theorem abs_roundEven_sub_le (x : ℚ) : |roundEven x - x| ≤ 1 / 2 := by
  have hfract := Int.floor_add_fract x
  have hnonneg := Int.fract_nonneg x
  have hlt := Int.fract_lt_one x
  rw [abs_le, roundEven]
  split_ifs <;> push_cast <;> constructor <;> linarith

theorem lastPlace_pos (p : ℕ) (x : ℚ) : 0 < lastPlace p x := zpow_pos (by norm_num) _

/-- A number is at least as large as the first of its places. -/
theorem lastPlace_mul_le (p : ℕ) {x : ℚ} (hx : x ≠ 0) : lastPlace p x * 2 ^ p ≤ 2 * |x| := by
  have hlog : (2 : ℚ) ^ Int.log 2 |x| ≤ |x| := by
    exact_mod_cast Int.zpow_log_le_self one_lt_two (abs_pos.mpr hx)
  calc lastPlace p x * 2 ^ p = 2 * 2 ^ Int.log 2 |x| := by
        rw [lastPlace, ← zpow_natCast, ← zpow_add₀ (by norm_num), ← zpow_one_add₀ (by norm_num)]
        congr 1
        ring
    _ ≤ 2 * |x| := by linarith

/-- The relative error of rounding. -/
theorem abs_round_sub_le (p : ℕ) (x : ℚ) : |round p x - x| ≤ |x| / 2 ^ p := by
  rcases eq_or_ne x 0 with rfl | hx
  · simp [round, roundEven]
  · have hpos := lastPlace_pos p x
    have hunit := lastPlace_mul_le p hx
    rw [le_div_iff₀ (by positivity)]
    calc |round p x - x| * 2 ^ p
        = |roundEven (x / lastPlace p x) - x / lastPlace p x| * (lastPlace p x * 2 ^ p) := by
          rw [← mul_assoc, ← abs_of_pos hpos, ← abs_mul, abs_of_pos hpos, sub_mul,
            div_mul_cancel₀ _ hpos.ne', round]
      _ ≤ 1 / 2 * (lastPlace p x * 2 ^ p) :=
          mul_le_mul_of_nonneg_right (abs_roundEven_sub_le _) (by positivity)
      _ ≤ |x| := by linarith

theorem roundEven_nonneg {x : ℚ} (hx : 0 ≤ x) : 0 ≤ roundEven x := by
  have hfloor : 0 ≤ ⌊x⌋ := Int.floor_nonneg.mpr hx
  rw [roundEven]
  split_ifs <;> omega

theorem round_nonneg (p : ℕ) {x : ℚ} (hx : 0 ≤ x) : 0 ≤ round p x := by
  have hpos := lastPlace_pos p x
  have hdiv := roundEven_nonneg (div_nonneg hx hpos.le)
  exact mul_nonneg (by exact_mod_cast hdiv) hpos.le

/-- A rounded number is at most so much larger. -/
theorem round_le (p : ℕ) {x : ℚ} (hx : 0 ≤ x) : round p x ≤ x * (1 + 1 / 2 ^ p) := by
  have herror := (abs_le.mp (abs_round_sub_le p x)).2
  rw [abs_of_nonneg hx] at herror
  calc round p x ≤ x + x / 2 ^ p := by linarith
    _ = x * (1 + 1 / 2 ^ p) := by ring

end Ps4o.Arithmetic
