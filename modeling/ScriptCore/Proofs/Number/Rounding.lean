import Mathlib.Algebra.Order.Field.Power
import Mathlib.Data.Int.Log
import Mathlib.Data.Rat.Floor
import Mathlib.Tactic.FieldSimp
import Mathlib.Tactic.Linarith
import Mathlib.Tactic.NormNum
import Mathlib.Tactic.Positivity
import Mathlib.Tactic.Ring
import ScriptCore.Proofs.Number.Written

/-!
# Number — rounding to decimal digits

`Decimal.rounded` counts in naturals on a grid of powers of ten.  Here it is compared with rounding
on the rationals: the leading digit is at the logarithm of the value, the count is the nearest
integer, and the decimal exponent is the logarithm of what was rounded.  Rounding up across a power
of ten gives a one with zeros behind it, which is on the next grid as well.

* `leading_eq_log`, `cast_roundHalfEven`: the two steps of rounding.
* `exponent_rounded`: the decimal exponent after rounding.
* `rounded_again`: a second rounding, on the grid of the exponent after the first one, comes to the
  same, and has as many digits as were asked for.
-/

namespace ScriptCore

/-- The nearest integer, of two the even one. -/
def halfEven (x : ℚ) : ℤ :=
  if x - ⌊x⌋ < 1 / 2 then ⌊x⌋
  else if 1 / 2 < x - ⌊x⌋ then ⌊x⌋ + 1
  else if ⌊x⌋ % 2 = 0 then ⌊x⌋ else ⌊x⌋ + 1

/-- A number to so many significant digits. -/
def toPlaces (places : ℕ) (x : ℚ) : ℚ :=
  halfEven (x / 10 ^ (Int.log 10 x - (places - 1 : ℕ))) * 10 ^ (Int.log 10 x - (places - 1 : ℕ))

namespace Decimal
variable {n d k places : ℕ} {e : ℤ}

/-! ### The grid and the leading digit -/

theorem onGrid_cast (n d : ℕ) (e : ℤ) :
    ((onGrid n d e).1 : ℚ) / (onGrid n d e).2 = n / d / 10 ^ e := by
  rw [onGrid]
  split
  · next above =>
    obtain ⟨m, rfl⟩ := Int.eq_ofNat_of_zero_le above
    simp [div_div]
  · next below =>
    obtain ⟨m, hm⟩ := Int.eq_ofNat_of_zero_le (show 0 ≤ -e by omega)
    obtain rfl : e = -m := by omega
    simp [div_eq_mul_inv]
    ring

/-- The leading digit is a digit. -/
theorem onGrid_leading_lt (hn : 0 < n) (hd : 0 < d) :
    (onGrid n d (leading n d)).1 < 10 * (onGrid n d (leading n d)).2 := by
  by_cases le : d ≤ n
  · have digits := width_pos (n / d)
    have exponent : ((width (n / d) : ℤ) - 1).toNat + 1 = width (n / d) := by omega
    rw [leading, if_pos le, onGrid, if_pos (by omega)]
    dsimp only
    rw [Nat.pow_eq, Nat.mul_left_comm, ← Nat.pow_succ', Nat.succ_eq_add_one, exponent]
    rw [Nat.mul_comm]
    exact (Nat.div_lt_iff_lt_mul hd).mp (lt_pow_width (n / d))
  · -- `m` is the least multiplier that reaches `d`, so one less does not.
    generalize hm : (d + n - 1) / n = m
    have low : (m - 1) * n < d := by
      have := Nat.div_mul_le_self (d + n - 1) n
      rw [hm] at this
      have := Nat.sub_mul m 1 n
      omega
    have two : 0 < m - 1 := by
      have : 1 * n < m * n := by
        have := Nat.lt_div_mul_add (a := d + n - 1) hn
        rw [hm] at this
        omega
      have := Nat.lt_of_mul_lt_mul_right this
      omega
    have digits := width_pos (m - 1)
    have reached := pow_width_le two
    rw [leading, if_neg le, hm, onGrid, if_neg (by omega), Int.neg_neg, Int.toNat_natCast]
    dsimp only
    obtain ⟨w, hw⟩ := Nat.exists_eq_succ_of_ne_zero (Nat.ne_of_gt digits)
    rw [hw, Nat.succ_sub_one] at reached
    rw [hw, Nat.pow_eq, Nat.pow_succ]
    calc n * (10 ^ w * 10) = 10 * (10 ^ w * n) := by ring
      _ ≤ 10 * ((m - 1) * n) := by gcongr
      _ < 10 * d := by omega

theorem log_eq_of_bounds {x : ℚ} (low : 10 ^ e ≤ x) (high : x < 10 ^ (e + 1)) :
    Int.log 10 x = e := by
  have positive : 0 < x := lt_of_lt_of_le (by positivity) low
  have above : e ≤ Int.log 10 x := (Int.zpow_le_iff_le_log (by norm_num) positive).mp low
  have below : Int.log 10 x < e + 1 := (Int.lt_zpow_iff_log_lt (by norm_num) positive).mp high
  omega

/-- **The leading digit** of a quotient is at its logarithm. -/
theorem leading_eq_log (hn : 0 < n) (hd : 0 < d) : leading n d = Int.log 10 (n / d : ℚ) := by
  have cast := onGrid_cast n d (leading n d)
  have low := onGrid_leading hn hd
  have high := onGrid_leading_lt hn hd
  have grid : (0 : ℚ) < (onGrid n d (leading n d)).2 := by exact_mod_cast onGrid_pos hd
  symm
  apply log_eq_of_bounds
  · rw [← one_le_div (by positivity), ← cast, one_le_div grid]
    exact_mod_cast low
  · rw [zpow_add_one₀ (by norm_num), mul_comm, ← div_lt_iff₀ (by positivity), ← cast,
      div_lt_iff₀ grid]
    exact_mod_cast high

/-! ### The nearest count -/

theorem cast_roundHalfEven (n : ℕ) (hd : 0 < d) :
    (Binary64.roundHalfEven n d : ℤ) = halfEven (n / d : ℚ) := by
  have floor : ⌊(n / d : ℚ)⌋ = (n / d : ℕ) := by
    rw [Rat.floor_natCast_div_natCast]
    rfl
  have rest : (n / d : ℚ) - (n / d : ℕ) = (n % d : ℕ) / d := by
    have cast : (d : ℚ) ≠ 0 := by positivity
    field_simp
    have := Nat.div_add_mod n d
    rw [sub_eq_iff_eq_add]
    exact_mod_cast (by omega : n = n % d + d * (n / d))
  have positive : (0 : ℚ) < d := by exact_mod_cast hd
  have less : ((n % d : ℕ) / d : ℚ) < 1 / 2 ↔ 2 * (n % d) < d := by
    rw [div_lt_div_iff₀ positive (by norm_num), one_mul, mul_comm]
    exact_mod_cast Iff.rfl
  have more : (1 / 2 : ℚ) < (n % d : ℕ) / d ↔ d < 2 * (n % d) := by
    rw [div_lt_div_iff₀ (by norm_num) positive, one_mul, mul_comm _ (2 : ℚ)]
    exact_mod_cast Iff.rfl
  rw [halfEven, floor, Int.cast_natCast, rest]
  simp only [less, more, Binary64.roundHalfEven]
  split <;> split <;> (try split) <;> (try split) <;> omega

/-- The nearest integer is at most a half away. -/
theorem halfEven_bounds (x : ℚ) : (halfEven x : ℚ) - 1 / 2 ≤ x ∧ x ≤ halfEven x + 1 / 2 := by
  have low := Int.floor_le x
  have high := Int.lt_floor_add_one x
  rw [halfEven]
  split
  · constructor <;> linarith
  · split
    · push_cast
      constructor <;> linarith
    · split <;> push_cast <;> constructor <;> linarith

/-- An integer less than a half away is the nearest one. -/
theorem halfEven_eq {x : ℚ} {m : ℤ} (low : m - 1 / 2 < x) (high : x < m + 1 / 2) :
    halfEven x = m := by
  obtain ⟨above, below⟩ := halfEven_bounds x
  have up : (halfEven x : ℚ) < (m + 1 : ℤ) := by push_cast; linarith
  have down : ((m - 1 : ℤ) : ℚ) < halfEven x := by push_cast; linarith
  have := Int.cast_lt.mp up
  have := Int.cast_lt.mp down
  omega

theorem roundHalfEven_le (h : n < k * d) : Binary64.roundHalfEven n d ≤ k := by
  have := Nat.div_lt_of_lt_mul (Nat.mul_comm k d ▸ h)
  rw [Binary64.roundHalfEven]
  split <;> omega

/-! ### So many digits -/

/-- The count of steps on the grid where the leading digit has so many places. -/
def steps (places n d : ℕ) (top : ℤ) : ℕ :=
  Binary64.roundHalfEven (onGrid n d (top - (places - 1 : ℕ))).1
    (onGrid n d (top - (places - 1 : ℕ))).2

theorem cast_steps (places n : ℕ) (hd : 0 < d) (top : ℤ) :
    (steps places n d top : ℤ) = halfEven (n / d / 10 ^ (top - (places - 1 : ℕ)) : ℚ) := by
  rw [steps, cast_roundHalfEven _ (onGrid_pos hd), onGrid_cast]

theorem toPlaces_eq (hn : 0 < n) (hd : 0 < d) (places : ℕ) : toPlaces places (n / d : ℚ) =
    steps places n d (leading n d) * 10 ^ (leading n d - (places - 1 : ℕ)) := by
  rw [toPlaces, ← leading_eq_log hn hd, ← cast_steps places n hd, Int.cast_natCast]

theorem le_steps (hn : 0 < n) (hd : 0 < d) (places : ℕ) :
    10 ^ (places - 1) ≤ steps places n d (leading n d) :=
  le_roundHalfEven (onGrid_pos hd) (onGrid_sub (onGrid_leading hn hd) (places - 1))

/-- Rounding may go up to the next power of ten. -/
theorem steps_le (hn : 0 < n) (hd : 0 < d) (some : 0 < places) :
    steps places n d (leading n d) ≤ 10 ^ places := by
  have positive : (0 : ℚ) < (onGrid n d (leading n d - (places - 1 : ℕ))).2 := by
    exact_mod_cast onGrid_pos hd
  have exponent : leading n d + 1 = (leading n d - (places - 1 : ℕ)) + places := by omega
  have below := Int.lt_zpow_succ_log_self (b := 10) (by norm_num) (n / d : ℚ)
  rw [← leading_eq_log hn hd, exponent, Nat.cast_ofNat, zpow_add₀ (by norm_num), mul_comm,
    ← div_lt_iff₀ (by positivity), ← onGrid_cast, div_lt_iff₀ positive, zpow_natCast] at below
  exact roundHalfEven_le (by exact_mod_cast below)

theorem exponent_ofSteps (k : ℕ) (e : ℤ) : (ofSteps k e).exponent = e + width k - 1 := rfl

theorem width_eq (low : 10 ^ (places - 1) ≤ k) (high : k < 10 ^ places) (some : 0 < places) :
    width k = places := by
  have := (width_le_iff some).mpr high
  have := lt_width low
  omega

theorem width_pow (m : ℕ) : width (10 ^ m) = m + 1 :=
  width_eq (Nat.le_refl _) (Nat.pow_lt_pow_right (by decide) (Nat.lt_succ_self m)) (Nat.succ_pos m)

theorem log_ofSteps (pos : 0 < k) (e : ℤ) :
    Int.log 10 (k * 10 ^ e : ℚ) = (ofSteps k e).exponent := by
  have digits := width_pos k
  have base : (10 : ℚ) ≠ 0 := by norm_num
  rw [exponent_ofSteps]
  apply log_eq_of_bounds
  · have low : (10 ^ (width k - 1) : ℚ) ≤ k := by exact_mod_cast pow_width_le pos
    rw [show e + width k - 1 = ((width k - 1 : ℕ) : ℤ) + e by omega, zpow_add₀ base, zpow_natCast]
    gcongr
  · have high : (k : ℚ) < 10 ^ width k := by exact_mod_cast lt_pow_width k
    rw [show e + width k - 1 + 1 = (width k : ℤ) + e by omega, zpow_add₀ base, zpow_natCast]
    gcongr

/-- **The decimal exponent** after rounding. -/
theorem exponent_rounded (hn : 0 < n) (hd : 0 < d) (places : ℕ) :
    (rounded places n d).exponent = Int.log 10 (toPlaces places (n / d : ℚ)) := by
  have positive : 0 < steps places n d (leading n d) :=
    Nat.lt_of_lt_of_le (Nat.pow_pos (by decide)) (le_steps hn hd places)
  rw [toPlaces_eq hn hd, log_ofSteps positive]
  rfl

/-- A zero at the end of the digits is on the next grid. -/
theorem ofSteps_mul_ten (pos : 0 < k) (e : ℤ) : ofSteps (k * 10) e = ofSteps k (e + 1) := by
  have digits := decimalDigits_mul_pow pos 1
  rw [Nat.pow_one] at digits
  rw [ofSteps, ofSteps, digits]
  rw [trimZeros_append_zeros, List.length_append, List.length_replicate]
  congr 1
  omega

/-- Rounding that does not reach the next power of ten leaves the leading digit where it was. -/
theorem exponent_fits (hn : 0 < n) (hd : 0 < d) (some : 0 < places)
    (fits : steps places n d (leading n d) < 10 ^ places) :
    (rounded places n d).exponent = leading n d := by
  show (ofSteps (steps places n d (leading n d)) (leading n d - (places - 1 : ℕ))).exponent = _
  rw [exponent_ofSteps, width_eq (le_steps hn hd places) fits some]
  omega

/-- Rounding up to the next power of ten moves the leading digit, and on the grid that goes with it
rounding gives that power of ten again. -/
theorem steps_carried {m : ℕ} (hd : 0 < d)
    (carried : steps (m + 1) n d (leading n d) = 10 ^ (m + 1)) :
    (rounded (m + 1) n d).exponent = leading n d + 1 ∧
    steps (m + 1) n d (leading n d + 1) = 10 ^ m ∧
    rounded (m + 1) n d = ofSteps (10 ^ m) (leading n d + 1 - m) := by
  have next : rounded (m + 1) n d = ofSteps (10 ^ m) (leading n d + 1 - m) := by
    show ofSteps (steps (m + 1) n d (leading n d)) (leading n d - (m + 1 - 1 : ℕ)) = _
    rw [carried, Nat.pow_succ, ofSteps_mul_ten (Nat.pow_pos (by decide))]
    congr 1
    omega
  refine ⟨?_, ?_, next⟩
  · rw [next, exponent_ofSteps, width_pow]
    omega
  · have counted := cast_steps (m + 1) n hd (leading n d)
    rw [carried] at counted
    obtain ⟨above, below⟩ := halfEven_bounds (n / d / 10 ^ (leading n d - (m + 1 - 1 : ℕ)) : ℚ)
    rw [← counted] at above below
    push_cast at above below
    rw [pow_succ] at above below
    -- The distance from the power of ten is a tenth of what it was.
    have coarser : (n / d / 10 ^ (leading n d + 1 - (m + 1 - 1 : ℕ)) : ℚ) =
        n / d / 10 ^ (leading n d - (m + 1 - 1 : ℕ)) / 10 := by
      rw [add_sub_right_comm, zpow_add_one₀ (by norm_num), div_mul_eq_div_div]
    suffices (steps (m + 1) n d (leading n d + 1) : ℤ) = (10 ^ m : ℕ) by exact_mod_cast this
    rw [cast_steps (m + 1) n hd, coarser]
    apply halfEven_eq <;> push_cast <;> linarith

/-- **Rounding twice.**  On the grid of the exponent after rounding, the count has as many digits as
were asked for, and it gives what the first rounding gave. -/
theorem rounded_again (hn : 0 < n) (hd : 0 < d) (some : 0 < places) :
    10 ^ (places - 1) ≤ steps places n d (rounded places n d).exponent ∧
    steps places n d (rounded places n d).exponent < 10 ^ places ∧
    rounded places n d = ofSteps (steps places n d (rounded places n d).exponent)
      ((rounded places n d).exponent - (places - 1 : ℕ)) := by
  rcases Nat.lt_or_eq_of_le (steps_le hn hd some) with fits | carried
  · rw [exponent_fits hn hd some fits]
    exact ⟨le_steps hn hd places, fits, rfl⟩
  · obtain ⟨m, rfl⟩ := Nat.exists_eq_add_one.mpr some
    obtain ⟨top, again, next⟩ := steps_carried hd carried
    rw [top, again]
    exact ⟨Nat.le_refl _, Nat.pow_lt_pow_right (by decide) (Nat.lt_succ_self m), next⟩

end Decimal

end ScriptCore
