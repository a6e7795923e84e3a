import Mathlib.Data.List.TakeWhile
import ScriptCore.Number.Decimal
import ScriptCore.Proofs.Number.Exact

/-!
# Number — the text of integral data

A datum is written with fifteen significant digits.  An integer of at most fifteen digits comes out
as its digits, a larger one with an exponent.

* `format_integral`: an integral datum below `10 ^ 15` is written as its integer part.
* `e_mem_format`: from there on an exponent is written.
* `format_ne`: only zero is written as the text that counts as false.
-/

namespace ScriptCore
variable {n d k : Nat} {e : Int} {c : Char} {ds : List Char}

/-! ### Digits -/

theorem decimalDigits_mul_pow (pos : 0 < n) (k : Nat) :
    decimalDigits (n * 10 ^ k) = decimalDigits n ++ List.replicate k '0' := by
  induction k with
  | zero => simp
  | succ k ih =>
    have step := Nat.toDigits_append_toDigits (b := 10) (n := n * 10 ^ k) (d := 0) (by decide)
      (Nat.mul_pos pos (Nat.pow_pos (by decide))) (by decide)
    rw [Nat.add_zero, Nat.mul_left_comm, ← Nat.pow_succ', Nat.toDigits_zero] at step
    rw [decimalDigits, ← step, ← decimalDigits, ih, List.append_assoc, List.replicate_succ']

/-- A positive number is written without a zero in front. -/
theorem head?_decimalDigits (pos : 0 < n) : (decimalDigits n).head? ≠ some '0' := by
  induction n using Nat.strongRecOn with
  | ind n ih =>
    rw [decimalDigits, Nat.toDigits_eq_if (by decide)]
    split
    · simpa using Nat.ne_of_gt pos
    · have shorter := ih (n / 10) (by omega) (by omega)
      rw [List.head?_append]
      cases hd : Nat.toDigits 10 (n / 10) with
      | nil => exact absurd hd Nat.toDigits_ne_nil
      | cons c cs =>
        rw [decimalDigits, hd] at shorter
        simpa using shorter

theorem decimalDigits_ne_nil (n : Nat) : decimalDigits n ≠ [] := Nat.toDigits_ne_nil

theorem isDigit_of_mem (h : c ∈ decimalDigits n) : c.isDigit = true :=
  Nat.isDigit_of_mem_toDigits (by decide) (by decide) h

namespace Decimal

theorem width_pos (n : Nat) : 0 < width n := Nat.length_toDigits_pos

theorem lt_pow_width (n : Nat) : n < 10 ^ width n :=
  (Nat.length_toDigits_le_iff (by decide) (width_pos n)).mp (Nat.le_refl _)

theorem width_le_iff (pos : 0 < k) : width n ≤ k ↔ n < 10 ^ k :=
  Nat.length_toDigits_le_iff (by decide) pos

/-- The leading digit of a positive number counts. -/
theorem pow_width_le (pos : 0 < n) : 10 ^ (width n - 1) ≤ n := by
  by_cases one : width n = 1
  · rwa [one]
  · have positive := width_pos n
    refine Nat.le_of_not_lt fun less => ?_
    have := (width_le_iff (by omega)).mpr less
    omega

theorem lt_width (h : 10 ^ k ≤ n) : k < width n := by
  refine Nat.lt_of_not_le fun short => ?_
  have digits := width_pos n
  have := (width_le_iff (by omega)).mp short
  omega

/-! ### Digits without the zeros at their end -/

theorem trimZeros_append_zeros (ds : List Char) (k : Nat) :
    trimZeros (ds ++ List.replicate k '0') = trimZeros ds := by
  rw [trimZeros, List.reverse_append, List.reverse_replicate,
    List.dropWhile_append_of_pos (by simp), trimZeros]

theorem exists_trimZeros (ds : List Char) :
    ∃ k, ds = trimZeros ds ++ List.replicate k '0' := by
  have zeros : ∀ c ∈ ds.reverse.takeWhile (· = '0'), c = '0' := fun c hc => by
    simpa using List.mem_takeWhile_imp hc
  refine ⟨(ds.reverse.takeWhile (· = '0')).length, ?_⟩
  calc ds = (ds.reverse.takeWhile (· = '0') ++ ds.reverse.dropWhile (· = '0')).reverse := by
        rw [List.takeWhile_append_dropWhile, List.reverse_reverse]
    _ = trimZeros ds ++ (ds.reverse.takeWhile (· = '0')).reverse := by
        rw [List.reverse_append, trimZeros]
    _ = _ := by
        conv_lhs => rw [List.eq_replicate_iff.mpr ⟨rfl, zeros⟩, List.reverse_replicate]

theorem trimZeros_ne_nil (pos : 0 < n) : trimZeros (decimalDigits n) ≠ [] := by
  intro none
  obtain ⟨k, hk⟩ := exists_trimZeros (decimalDigits n)
  rw [none, List.nil_append] at hk
  have head := head?_decimalDigits pos
  have some := decimalDigits_ne_nil n
  cases k with
  | zero => exact some hk
  | succ k => exact head (by rw [hk, List.replicate_succ, List.head?_cons])

theorem head?_trimZeros (pos : 0 < n) : (trimZeros (decimalDigits n)).head? ≠ some '0' := by
  obtain ⟨k, hk⟩ := exists_trimZeros (decimalDigits n)
  have head := head?_decimalDigits pos
  rw [hk, List.head?_append] at head
  cases hd : (trimZeros (decimalDigits n)).head? with
  | none => simp
  | some c => simpa [hd] using head

/-! ### The grid -/

/-- On a grid ten times as fine there are ten times as many steps. -/
theorem onGrid_pred (h : k * (onGrid n d e).2 ≤ (onGrid n d e).1) :
    k * 10 * (onGrid n d (e - 1)).2 ≤ (onGrid n d (e - 1)).1 := by
  by_cases above : 0 ≤ e - 1
  · have up : e.toNat = (e - 1).toNat + 1 := by omega
    rw [onGrid, if_pos (by omega), up] at h
    rw [onGrid, if_pos above]
    simp only [Nat.pow_eq, Nat.pow_succ'] at h ⊢
    rwa [Nat.mul_assoc, Nat.mul_left_comm 10]
  · have down : (-(e - 1)).toNat = (-e).toNat + 1 := by omega
    have same : (onGrid n d e).1 = n * 10 ^ (-e).toNat ∧ (onGrid n d e).2 = d := by
      rw [onGrid]
      split
      · have : e = 0 := by omega
        subst this
        simp
      · exact ⟨rfl, rfl⟩
    rw [same.1, same.2] at h
    rw [onGrid, if_neg above, down]
    simp only [Nat.pow_eq, Nat.pow_succ]
    calc k * 10 * d = k * d * 10 := Nat.mul_right_comm ..
      _ ≤ n * 10 ^ (-e).toNat * 10 := Nat.mul_le_mul_right 10 h
      _ = _ := Nat.mul_assoc ..

theorem onGrid_sub (h : (onGrid n d e).2 ≤ (onGrid n d e).1) (k : Nat) :
    10 ^ k * (onGrid n d (e - k)).2 ≤ (onGrid n d (e - k)).1 := by
  induction k with
  | zero => simpa using h
  | succ k ih =>
    have finer := onGrid_pred ih
    rwa [← Nat.pow_succ, show e - k - 1 = e - (k + 1 : Nat) by omega] at finer

theorem onGrid_pos (pos : 0 < d) : 0 < (onGrid n d e).2 := by
  rw [onGrid]
  split
  · exact Nat.mul_pos pos (Nat.pow_pos (by decide))
  · exact pos

/-- The leading digit of a quotient counts. -/
theorem onGrid_leading (hn : 0 < n) (hd : 0 < d) :
    (onGrid n d (leading n d)).2 ≤ (onGrid n d (leading n d)).1 := by
  by_cases le : d ≤ n
  · have whole : 0 < n / d := Nat.div_pos le hd
    have digits := width_pos (n / d)
    rw [leading, if_pos le, onGrid, if_pos (by omega),
      show ((width (n / d) : Int) - 1).toNat = width (n / d) - 1 by omega, Nat.mul_comm]
    exact (Nat.le_div_iff_mul_le hd).mp (pow_width_le whole)
  · have ceil : d ≤ n * ((d + n - 1) / n) := by
      have := Nat.mod_add_div (d + n - 1) n
      have := Nat.mod_lt (d + n - 1) hn
      omega
    have below := lt_pow_width ((d + n - 1) / n - 1)
    have digits := width_pos ((d + n - 1) / n - 1)
    rw [leading, if_neg le, onGrid, if_neg (by omega), Int.neg_neg, Int.toNat_natCast]
    exact Nat.le_trans ceil (Nat.mul_le_mul_left n (by simp only [Nat.pow_eq]; omega))

theorem le_roundHalfEven (pos : 0 < d) (h : k * d ≤ n) : k ≤ Binary64.roundHalfEven n d := by
  have := (Nat.le_div_iff_mul_le pos).mpr h
  rw [Binary64.roundHalfEven]
  split <;> omega

/-! ### Fifteen digits -/

/-- **Rounding** to so many digits takes at least so many. -/
theorem exists_steps (hn : 0 < n) (hd : 0 < d) (places : Nat) :
    ∃ steps, 10 ^ (places - 1) ≤ steps ∧
      rounded places n d = ofSteps steps (leading n d - (places - 1 : Nat)) :=
  ⟨_, le_roundHalfEven (onGrid_pos hd) (onGrid_sub (onGrid_leading hn hd) (places - 1)), rfl⟩

theorem leading_le_exponent (hn : 0 < n) (hd : 0 < d) (places : Nat) :
    leading n d ≤ (rounded places n d).exponent := by
  obtain ⟨steps, wide, eq⟩ := exists_steps hn hd places
  have digits := lt_width wide
  have exponent : (ofSteps steps (leading n d - (places - 1 : Nat))).exponent =
      leading n d - (places - 1 : Nat) + width steps - 1 := rfl
  rw [eq, exponent]
  omega

theorem digits_rounded (hn : 0 < n) (hd : 0 < d) (places : Nat) :
    (rounded places n d).digits ≠ [] ∧ (rounded places n d).digits.head? ≠ some '0' := by
  obtain ⟨steps, wide, eq⟩ := exists_steps hn hd places
  have positive : 0 < steps := Nat.lt_of_lt_of_le (Nat.pow_pos (by decide)) wide
  rw [eq]
  exact ⟨trimZeros_ne_nil positive, head?_trimZeros positive⟩

/-- An integer of so many digits is not rounded. -/
theorem rounded_integral (hn : 0 < n) (hd : 0 < d) {places : Nat} (fits : width n ≤ places) :
    rounded places (n * d) d = ⟨trimZeros (decimalDigits n), (width n : Int) - 1⟩ := by
  have digits := width_pos n
  have leads : leading (n * d) d = (width n : Int) - 1 := by
    rw [leading, if_pos (Nat.le_mul_of_pos_left d hn), Nat.mul_div_cancel n hd]
  have steps : Binary64.roundHalfEven
      (onGrid (n * d) d ((width n : Int) - 1 - (places - 1 : Nat))).1
      (onGrid (n * d) d ((width n : Int) - 1 - (places - 1 : Nat))).2 =
        n * 10 ^ (places - width n) := by
    rw [onGrid]
    split
    · have same : width n = places := by omega
      have none : ((width n : Int) - 1 - (places - 1 : Nat)).toNat = 0 := by omega
      rw [none, same, Nat.sub_self, Nat.pow_eq, Nat.pow_zero, Nat.mul_one, Nat.mul_one]
      exact Binary64.roundHalfEven_mul hd
    · have zeros : (-((width n : Int) - 1 - (places - 1 : Nat))).toNat = places - width n := by
        omega
      simp only [zeros, Nat.pow_eq]
      rw [Nat.mul_right_comm, Binary64.roundHalfEven_mul hd]
  have length : (decimalDigits (n * 10 ^ (places - width n))).length = places := by
    rw [decimalDigits_mul_pow hn, List.length_append, List.length_replicate]
    exact Nat.add_sub_of_le fits
  rw [rounded, leads]
  simp only [steps, ofSteps]
  rw [length, decimalDigits_mul_pow hn, trimZeros_append_zeros]
  congr 1
  omega

/-! ### In writing -/

/-- Digits that end before the point are written out. -/
theorem general_integral (fits : width n ≤ 15) :
    general ⟨trimZeros (decimalDigits n), (width n : Int) - 1⟩ = decimalDigits n := by
  have digits := width_pos n
  obtain ⟨k, hk⟩ := exists_trimZeros (decimalDigits n)
  have length : width n = (trimZeros (decimalDigits n)).length + k := by
    rw [width]
    conv_lhs => rw [hk, List.length_append, List.length_replicate]
  have places : ((width n : Int) - 1).toNat + 1 = width n := by omega
  have whole : trimZeros (decimalDigits n) ++
      List.replicate (width n - (trimZeros (decimalDigits n)).length) '0' = decimalDigits n := by
    conv_rhs => rw [hk]
    rw [length, Nat.add_sub_cancel_left]
  rw [general, if_pos (by constructor <;> simp only <;> omega), split,
    if_pos (by simp only; omega)]
  simp only [places, whole]
  rw [List.take_of_length_le (Nat.le_refl (width n)), List.drop_of_length_le (by omega), point,
    if_pos rfl]

/-- Digits that start with no zero are written as no text that counts as false. -/
theorem general_ne {d : Decimal} (more : d.digits ≠ []) (head : d.digits.head? ≠ some '0') :
    general d ≠ [] ∧ general d ≠ ['0'] := by
  obtain ⟨c, cs, hd⟩ := List.exists_cons_of_ne_nil more
  have apart : c ≠ '0' := by simpa [hd] using head
  rw [general]
  by_cases positional : -4 ≤ d.exponent ∧ d.exponent < 15
  · rw [if_pos positional, split]
    by_cases below : 0 ≤ d.exponent
    · simp only [point, hd, if_pos below]
      split <;> simp [apart]
    · simp [point, hd, below]
  · rw [if_neg positional]
    by_cases one : cs = [] <;> simp [point, hd, one]

/-- From `10 ^ 15` on an exponent is written. -/
theorem e_mem_general {d : Decimal} (large : 15 ≤ d.exponent) : 'e' ∈ general d := by
  rw [general, if_neg (by omega)]
  simp

end Decimal

namespace Binary64
variable {f : Binary64}

theorem format_of_finite (finite : f.isFinite = true) (nonzero : f.isZero = false) :
    f.format = f.signed (Decimal.rounded 15 f.ratio.1 f.ratio.2).general := by
  have proper : f.exponentField ≠ 2047 := Nat.ne_of_lt (exponentField_lt finite)
  simp [format, isNaN, isInfinite, proper, nonzero]

theorem numerator_pos (nonzero : f.isZero = false) : 0 < f.ratio.1 := by
  rw [ratio]
  split
  · exact Nat.mul_pos (mantissa_pos nonzero) (Nat.two_pow_pos _)
  · exact mantissa_pos nonzero

/-- **Integers of fifteen digits** are written as they are. -/
theorem format_integral (h : f.isInt64 = true) (nonzero : f.isZero = false)
    (small : f.whole < 10 ^ 15) : f.format = f.signed (decimalDigits f.whole) := by
  obtain ⟨finite, integral, -, -⟩ := isInt64_iff.mp h
  have value : f.ratio.1 = f.whole * f.ratio.2 :=
    (Nat.div_mul_cancel (Nat.dvd_of_mod_eq_zero integral)).symm
  have fits : Decimal.width f.whole ≤ 15 := (Decimal.width_le_iff (by decide)).mpr small
  rw [format_of_finite finite nonzero, value,
    Decimal.rounded_integral (whole_pos integral nonzero) (ratio_pos f) fits,
    Decimal.general_integral fits]

/-- **Larger integers** are written with an exponent. -/
theorem e_mem_format (h : f.isInt64 = true) (large : 10 ^ 15 ≤ f.whole) : 'e' ∈ f.format := by
  obtain ⟨finite, integral, -, -⟩ := isInt64_iff.mp h
  have nonzero : f.isZero = false := by
    by_contra zero
    have none : f.whole = 0 := by
      have zero : f = .zero f.isNegative := eq_zero_of_isZero (by simpa using zero)
      rw [zero, whole_zero]
    omega
  have value : f.ratio.1 = f.whole * f.ratio.2 :=
    (Nat.div_mul_cancel (Nat.dvd_of_mod_eq_zero integral)).symm
  have leads : 15 ≤ Decimal.leading f.ratio.1 f.ratio.2 := by
    have digits : 15 < Decimal.width f.whole := Decimal.lt_width large
    rw [Decimal.leading, if_pos (value ▸ Nat.le_mul_of_pos_left _ (by omega)), ← whole]
    omega
  have exponent := Decimal.leading_le_exponent (numerator_pos nonzero) (ratio_pos f) 15
  have written := Decimal.e_mem_general (Int.le_trans leads exponent)
  rw [format_of_finite finite nonzero, signed]
  split
  · exact List.mem_cons_of_mem _ written
  · exact written

/-- **Only zero** is written as the text that counts as false. -/
theorem format_ne (nonzero : f.isZero = false) : f.format ≠ [] ∧ f.format ≠ ['0'] := by
  by_cases finite : f.isFinite = true
  · have digits := Decimal.digits_rounded (numerator_pos nonzero) (ratio_pos f) 15
    have written := Decimal.general_ne digits.1 digits.2
    rw [format_of_finite finite nonzero, signed]
    split
    · simp
    · exact written
  · have special : f.exponentField = 2047 := by simpa [isFinite] using finite
    by_cases fraction : f.fractionField = 0
    · cases hs : f.isNegative <;>
        simp [format, isNaN, isInfinite, special, fraction, signed, hs]
    · simp [format, isNaN, special, fraction]

theorem format_zero (negative : Bool) :
    (zero negative).format = if negative then ['-', '0'] else ['0'] := by
  cases negative <;> decide +kernel

end Binary64

end ScriptCore
