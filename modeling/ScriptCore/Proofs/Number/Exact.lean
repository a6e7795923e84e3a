import Mathlib.Algebra.Group.Nat.Defs
import Mathlib.Tactic.Common
import ScriptCore.Number.Binary64

/-!
# Number — integers that a datum holds exactly

A datum whose value is an integer that 64 bits hold gives that integer, and is the datum nearest to
it.  Negative zero alone is lost: as an integer it is the zero that has no sign.

* `toInt_toInt64`: the integer is the value.
* `ofInt_toInt64`: to an integer and back.
-/

namespace ScriptCore.Binary64
variable {f : Binary64} {m n d : Nat} {e : Int}

/-! ### Fields -/

theorem eq_ofFields (f : Binary64) :
    f = ofFields f.isNegative (f.exponentField * Nat.pow 2 52 + f.fractionField) := by
  have bits : f.bits.toNat < 2 ^ 64 := f.bits.toNat_lt
  have whole : (if f.isNegative then Nat.pow 2 63 else 0) +
      (f.exponentField * Nat.pow 2 52 + f.fractionField) = f.bits.toNat := by
    simp only [isNegative, exponentField, fractionField, decide_eq_true_eq, Nat.pow_eq]
    split <;> omega
  rw [ofFields, whole, UInt64.ofNat_toNat]

theorem fractionField_lt (f : Binary64) : f.fractionField < 2 ^ 52 := Nat.mod_lt _ (by decide)

theorem exponentField_lt (finite : f.isFinite = true) : f.exponentField < 2047 := by
  have field : f.exponentField < 2 ^ 11 := Nat.mod_lt _ (by decide)
  have : f.exponentField ≠ 2047 := by simpa [isFinite] using finite
  omega

theorem eq_zero_of_isZero (zero : f.isZero = true) : f = .zero f.isNegative := by
  simp only [isZero, Bool.and_eq_true, decide_eq_true_eq] at zero
  conv_lhs => rw [eq_ofFields f, zero.1, zero.2]
  rw [Binary64.zero, Nat.zero_mul]

theorem ratio_pos (f : Binary64) : 0 < f.ratio.2 := by
  rw [ratio]
  split
  · exact Nat.one_pos
  · exact Nat.two_pow_pos _

/-- A datum that is not zero has a mantissa that is none. -/
theorem mantissa_pos (nonzero : f.isZero = false) : 0 < f.mantissa := by
  rw [mantissa]
  split
  · rename_i least
    simp only [isZero, least, decide_true, Bool.true_and, decide_eq_false_iff_not] at nonzero
    exact Nat.pos_of_ne_zero nonzero
  · exact Nat.add_pos_left (Nat.two_pow_pos 52) _

/-! ### A quotient that is a mantissa on its binade -/

theorem scale_pos (n : Nat) (e : Int) : 0 < (scale n 1 e).2 := by
  rw [scale]
  split
  · exact Nat.mul_pos Nat.one_pos (Nat.two_pow_pos _)
  · exact Nat.one_pos

theorem pos_of_scale (pos : 0 < m) (exact : (scale n 1 e).1 = m * (scale n 1 e).2) : 0 < n := by
  refine Nat.pos_of_ne_zero fun none => ?_
  have positive := Nat.mul_pos pos (scale_pos n e)
  rw [← exact, none, scale] at positive
  split at positive <;> simp at positive

/-- One binade down, the mantissa is twice as large. -/
theorem scale_pred (exact : (scale n 1 e).1 = m * (scale n 1 e).2) :
    (scale n 1 (e - 1)).1 = 2 * m * (scale n 1 (e - 1)).2 := by
  by_cases above : 0 ≤ e - 1
  · have up : e.toNat = (e - 1).toNat + 1 := by omega
    rw [scale, if_pos (by omega)] at exact
    rw [scale, if_pos above]
    simp only [up, Nat.pow_eq, Nat.one_mul] at exact ⊢
    rw [exact, Nat.pow_succ', Nat.mul_left_comm, Nat.mul_assoc]
  · have down : (-(e - 1)).toNat = (-e).toNat + 1 := by omega
    have same : (scale n 1 e).1 = n * 2 ^ (-e).toNat ∧ (scale n 1 e).2 = 1 := by
      rw [scale]
      split
      · have : e = 0 := by omega
        subst this
        simp
      · exact ⟨rfl, rfl⟩
    rw [same.1, same.2, Nat.mul_one] at exact
    rw [scale, if_neg above]
    simp only [down, Nat.pow_eq, Nat.pow_succ]
    rw [← Nat.mul_assoc, exact, Nat.mul_one, Nat.mul_comm]

theorem log2_of_scale (low : 2 ^ 52 ≤ m) (high : m < 2 ^ 53) (least : -52 ≤ e)
    (exact : (scale n 1 e).1 = m * (scale n 1 e).2) : (n.log2 : Int) = 52 + e := by
  have positive : 0 < n := pos_of_scale (by omega) exact
  suffices n.log2 = (52 + e).toNat by omega
  rw [Nat.log2_eq_iff (Nat.ne_of_gt positive)]
  rw [scale] at exact
  split at exact
  · rename_i above
    simp only [Nat.pow_eq, Nat.one_mul] at exact
    rw [exact, show (52 + e).toNat = 52 + e.toNat by omega, Nat.pow_add,
      show 52 + e.toNat + 1 = 53 + e.toNat by omega, Nat.pow_add]
    exact ⟨Nat.mul_le_mul_right _ low, Nat.mul_lt_mul_of_pos_right high (Nat.two_pow_pos _)⟩
  · simp only [Nat.pow_eq, Nat.mul_one] at exact
    have rest : (52 + e).toNat + (-e).toNat = 52 := by omega
    have scaled (k : Nat) : 2 ^ k * 2 ^ (-e).toNat = 2 ^ (k + (-e).toNat) := (Nat.pow_add ..).symm
    have unit := Nat.two_pow_pos (-e).toNat
    constructor
    · refine Nat.le_of_mul_le_mul_right ?_ unit
      rw [exact, scaled, rest]
      exact low
    · refine Nat.lt_of_mul_lt_mul_right (a := 2 ^ (-e).toNat) ?_
      rw [exact, scaled, show (52 + e).toNat + 1 + (-e).toNat = 53 by omega]
      exact high

theorem roundHalfEven_mul (pos : 0 < d) : roundHalfEven (m * d) d = m := by
  simp [roundHalfEven, Nat.mul_div_cancel m pos, Nat.mul_mod_left, Nat.ne_of_lt pos]

/-- **Rounding what is exact.**  A mantissa of 53 bits is kept with its power of two. -/
theorem ofRatio_exact (negative : Bool) (low : 2 ^ 52 ≤ m) (high : m < 2 ^ 53) (least : -52 ≤ e)
    (exact : (scale n 1 e).1 = m * (scale n 1 e).2) :
    ofRatio negative n 1 =
      ofFields negative (min ((e + 1074).toNat * Nat.pow 2 52 + m) (2047 * Nat.pow 2 52)) := by
  have log := log2_of_scale low high least exact
  have nonzero : n ≠ 0 := Nat.ne_of_gt (pos_of_scale (by omega) exact)
  have binade : binade n 1 = e := by
    have start : max ((n.log2 : Int) - (Nat.log2 1 : Nat) - 53) (-1074) = e - 1 := by
      rw [log, show Nat.log2 1 = 0 by decide]
      omega
    have wide : Nat.pow 2 53 ≤ (scale n 1 (e - 1)).1 / (scale n 1 (e - 1)).2 := by
      rw [scale_pred exact, Nat.mul_div_cancel _ (scale_pos n _), Nat.pow_eq]
      omega
    simp only [Binary64.binade, start, wide, if_true]
    omega
  simp only [ofRatio, if_neg nonzero, binade, exact, roundHalfEven_mul (scale_pos n e)]

/-! ### Integers -/

/-- The integer part of a magnitude. -/
def whole (f : Binary64) : Nat := f.ratio.1 / f.ratio.2

theorem truncate_eq (f : Binary64) :
    f.truncate = if f.isNegative then -(f.whole : Int) else (f.whole : Int) := rfl

theorem isInt64_iff : f.isInt64 = true ↔ f.isFinite = true ∧ f.ratio.1 % f.ratio.2 = 0 ∧
    leastInt64 ≤ f.truncate ∧ f.truncate ≤ greatestInt64 := by
  simp [isInt64, and_assoc]

/-- An integral value is the whole part, on the binade of the datum. -/
theorem scale_whole (integral : f.ratio.1 % f.ratio.2 = 0) :
    (scale f.whole 1 f.exponent).1 = f.mantissa * (scale f.whole 1 f.exponent).2 := by
  rw [whole]
  by_cases above : 0 ≤ f.exponent
  · simp [ratio, scale, above]
  · have divides : Nat.pow 2 (-f.exponent).toNat ∣ f.mantissa := by
      rw [ratio, if_neg above] at integral
      exact Nat.dvd_of_mod_eq_zero integral
    simp only [ratio, scale, above, if_false, Nat.div_mul_cancel divides, Nat.mul_one]

/-- An integral value is zero, or that of a datum with a mantissa of 53 bits. -/
theorem normal_of_integral (integral : f.ratio.1 % f.ratio.2 = 0) (nonzero : f.isZero = false) :
    f.exponentField ≠ 0 ∧ -52 ≤ f.exponent := by
  have positive := mantissa_pos nonzero
  have fraction := fractionField_lt f
  by_contra low
  have deep : 53 ≤ (-f.exponent).toNat := by
    by_cases least : f.exponentField = 0
    · simp [exponent, least]
    · have := not_and.mp low least
      omega
  have high : f.mantissa < 2 ^ 53 := by
    rw [mantissa]
    simp only [Nat.pow_eq]
    split <;> omega
  have bound : f.mantissa < Nat.pow 2 (-f.exponent).toNat :=
    Nat.lt_of_lt_of_le high (Nat.pow_le_pow_right (by decide) deep)
  rw [ratio, if_neg (by omega), Nat.mod_eq_of_lt bound] at integral
  omega

theorem whole_pos (integral : f.ratio.1 % f.ratio.2 = 0) (nonzero : f.isZero = false) :
    0 < f.whole :=
  pos_of_scale (mantissa_pos nonzero) (scale_whole integral)

theorem whole_zero (negative : Bool) : (zero negative).whole = 0 := by
  cases negative <;> decide +kernel

/-- The integer that is read off an integral datum is its value. -/
theorem toInt_toInt64 (h : f.isInt64 = true) : f.toInt64.toInt = f.truncate := by
  obtain ⟨finite, -, least, greatest⟩ := isInt64_iff.mp h
  have field := exponentField_lt finite
  have proper : f.exponentField ≠ 2047 := by omega
  rw [toInt64, if_neg (by simp [isNaN, proper]), if_neg (by simp [isInfinite, proper]),
    Int.min_eq_right greatest, Int.max_eq_right least]
  simp only [leastInt64, greatestInt64] at least greatest
  exact Int64.toInt_ofInt_of_le (by omega) (by omega)

/-- **To an integer and back.**  Only the sign of negative zero is lost. -/
theorem ofInt_toInt64 (h : f.isInt64 = true) (signed : f ≠ .zero true) :
    .ofInt f.toInt64.toInt = f := by
  rw [toInt_toInt64 h, truncate_eq]
  by_cases zero : f.isZero = true
  · have plain : f = .zero false := by
      have := eq_zero_of_isZero zero
      cases hs : f.isNegative <;> rw [hs] at this
      · exact this
      · exact absurd this signed
    rw [plain, whole_zero]
    decide +kernel
  · rw [Bool.not_eq_true] at zero
    obtain ⟨finite, integral, -, -⟩ := isInt64_iff.mp h
    obtain ⟨normal, least⟩ := normal_of_integral integral zero
    have positive := whole_pos integral zero
    have fraction := fractionField_lt f
    have field := exponentField_lt finite
    have mantissa : f.mantissa = 2 ^ 52 + f.fractionField := if_neg normal
    have exponent : f.exponent = (f.exponentField : Int) - 1075 := if_neg normal
    have rounded := ofRatio_exact f.isNegative (by omega) (by omega) least (scale_whole integral)
    have fields : min ((f.exponent + 1074).toNat * Nat.pow 2 52 + f.mantissa)
        (2047 * Nat.pow 2 52) = f.exponentField * Nat.pow 2 52 + f.fractionField := by
      rw [mantissa, exponent]
      simp only [Nat.pow_eq]
      omega
    rw [fields, ← eq_ofFields] at rounded
    rw [ofInt]
    cases hs : f.isNegative <;> simp [hs, positive] at rounded ⊢ <;> exact rounded

end ScriptCore.Binary64
