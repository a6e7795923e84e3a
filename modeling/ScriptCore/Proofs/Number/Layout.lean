import ScriptCore.Proofs.Number.Integers
import ScriptCore.Proofs.Number.Rounding

/-!
# Number — how floats are laid out in text

A finite datum is written as a sign, digits with at most one point and, if the decimal exponent
after rounding is far from zero, that exponent.  `Laid` says what the parts look like, and from that
the text is a numeral of the grammar.

* `Normal.laid`: the digits of a decimal around a point.
* `Laid.written`: what is laid out like that is a spelling of a numeral.
* `format_reads_back`: the text of every datum.
* `format_again`: the digits may as well be rounded a second time, to the decimals that the
  exponent leaves, and lose their zeros as text.
-/

namespace ScriptCore

open Computability

/-! ### Zeros at the end -/

namespace Decimal
variable {n d : ℕ} {e : ℤ} {ds whole fraction power : List Char} {c : Char}

theorem getLast?_trimZeros (ds : List Char) : (trimZeros ds).getLast? ≠ some '0' := by
  intro last
  rw [trimZeros, List.getLast?_reverse] at last
  have not := List.head?_dropWhile_not (fun c : Char => decide (c = '0')) ds.reverse
  rw [last] at not
  simp at not

theorem trimZeros_of_getLast? (h : ds.getLast? ≠ some '0') : trimZeros ds = ds := by
  obtain ⟨k, hk⟩ := exists_trimZeros ds
  cases k with
  | zero => simpa using hk.symm
  | succ k =>
    rw [hk, List.replicate_succ', ← List.append_assoc, List.getLast?_concat] at h
    exact absurd rfl h

theorem getLast?_drop (h : ds.getLast? ≠ some '0') (k : ℕ) : (ds.drop k).getLast? ≠ some '0' := by
  rw [List.getLast?_drop]
  split
  · simp
  · exact h

/-- Zeros at the end are behind whatever stands in front. -/
theorem trimZeros_drop (ds : List Char) (k : ℕ) :
    trimZeros (ds.drop k) = (trimZeros ds).drop k := by
  obtain ⟨z, hz⟩ := exists_trimZeros ds
  conv_lhs => rw [hz, List.drop_append, List.drop_replicate]
  rw [trimZeros_append_zeros, trimZeros_of_getLast? (getLast?_drop (getLast?_trimZeros ds) k)]

/-! ### The parts of a text -/

/-- Digits before and after a point and an exponent as fifteen significant digits of a number with
the decimal exponent `e` are laid out. -/
structure Laid (e : ℤ) (whole fraction power : List Char) : Prop where
  nonempty : whole ≠ []
  digits : ∀ c ∈ whole ++ fraction, c.isDigit = true
  /-- No zero ends the fraction. -/
  trimmed : fraction.getLast? ≠ some '0'
  significant : ((whole ++ fraction).dropWhile (· = '0')).length ≤ 15
  unraised : ¬(e < -4 ∨ 15 ≤ e) → power = []
  /-- The exponent has a sign and two digits or more, which denote it. -/
  raised : e < -4 ∨ 15 ≤ e → ∃ ds, power = 'e' :: (if e < 0 then '-' else '+') :: ds ∧
    2 ≤ ds.length ∧ (∀ c ∈ ds, c.isDigit = true) ∧ Numeral.valueOf (Text.bytes ds) = e.natAbs

/-- Fifteen digits at most, without zeros around them. -/
structure Normal (d : Decimal) : Prop where
  nonempty : d.digits ≠ []
  digits : ∀ c ∈ d.digits, c.isDigit = true
  head : d.digits.head? ≠ some '0'
  last : d.digits.getLast? ≠ some '0'
  length : d.digits.length ≤ 15

theorem dropWhile_of_head? (h : ds.head? ≠ some '0') : ds.dropWhile (· = '0') = ds := by
  cases ds with
  | nil => rfl
  | cons c ds => exact List.dropWhile_cons_of_neg (by simpa using h)

theorem isDigit_of_mem_zeros {k : ℕ} (h : c ∈ List.replicate k '0') : c.isDigit = true := by
  rw [List.eq_of_mem_replicate h]
  decide

/-- Zeros in front do not count. -/
theorem valueOf_zeros (k : ℕ) (ds : List Char) :
    Numeral.valueOf (Text.bytes (List.replicate k '0' ++ ds)) =
      Numeral.valueOf (Text.bytes ds) := by
  induction k with
  | zero => rfl
  | succ k ih =>
    rw [List.replicate_succ, List.cons_append, ← ih]
    rfl

/-- Digits that reach as far as the point, with zeros if need be. -/
theorem Normal.laid_above {d : Decimal} (h : d.Normal) (some : 0 < n) (few : n ≤ 15)
    (near : ¬(e < -4 ∨ 15 ≤ e)) :
    Laid e ((d.digits ++ List.replicate (n - d.digits.length) '0').take n) (d.digits.drop n)
      [] := by
  have one : 0 < d.digits.length := List.length_pos_iff.mpr h.nonempty
  have all : (d.digits ++ List.replicate (n - d.digits.length) '0').take n ++ d.digits.drop n =
      d.digits ++ List.replicate (n - d.digits.length) '0' := by
    by_cases short : d.digits.length ≤ n
    · rw [List.take_of_length_le (by simp; omega), List.drop_of_length_le short, List.append_nil]
    · rw [show n - d.digits.length = 0 by omega]
      simp
  refine ⟨List.ne_nil_of_length_pos (by simp; omega), ?_, getLast?_drop h.last n, ?_, fun _ => rfl,
    fun far => absurd far near⟩
  · rw [all]
    intro c hc
    rcases List.mem_append.mp hc with hc | hc
    · exact h.digits c hc
    · exact isDigit_of_mem_zeros hc
  · have length := h.length
    rw [all]
    refine Nat.le_trans (List.dropWhile_suffix _).length_le ?_
    simp
    omega

/-- Digits behind the point, with zeros between. -/
theorem Normal.laid_below {d : Decimal} (h : d.Normal) (k : ℕ) (near : ¬(e < -4 ∨ 15 ≤ e)) :
    Laid e ['0'] (List.replicate k '0' ++ d.digits) [] := by
  have zeros : (['0'] ++ (List.replicate k '0' ++ d.digits)).dropWhile (· = '0') = d.digits := by
    rw [← List.append_assoc, List.dropWhile_append_of_pos (by simp), dropWhile_of_head? h.head]
  refine ⟨by simp, ?_, ?_, ?_, fun _ => rfl, fun far => absurd far near⟩
  · intro c hc
    rcases List.mem_append.mp hc with hc | hc
    · rw [List.mem_singleton.mp hc]
      decide
    · rcases List.mem_append.mp hc with hc | hc
      · exact isDigit_of_mem_zeros hc
      · exact h.digits c hc
  · rw [List.getLast?_append_of_ne_nil _ h.nonempty]
    exact h.last
  · rw [zeros]
    exact h.length

/-- Digits with a power of ten behind them. -/
theorem Normal.laid_far {d : Decimal} (h : d.Normal) (far : e < -4 ∨ 15 ≤ e) :
    Laid e (d.digits.take 1) (d.digits.drop 1) ('e' :: (if e < 0 then '-' else '+') ::
      (List.replicate (2 - (decimalDigits e.natAbs).length) '0' ++ decimalDigits e.natAbs)) := by
  have one : 0 < d.digits.length := List.length_pos_iff.mpr h.nonempty
  refine ⟨List.ne_nil_of_length_pos (by simp; omega), ?_, getLast?_drop h.last 1, ?_,
    fun near => absurd far near, fun _ => ⟨_, rfl, ?_, ?_, ?_⟩⟩
  · rw [List.take_append_drop]
    exact h.digits
  · rw [List.take_append_drop, dropWhile_of_head? h.head]
    exact h.length
  · simp
    omega
  · intro c hc
    rcases List.mem_append.mp hc with hc | hc
    · exact isDigit_of_mem_zeros hc
    · exact isDigit_of_mem hc
  · rw [valueOf_zeros, Numeral.valueOf_decimalDigits]

/-- **Digits around a point.** -/
theorem Normal.laid {d : Decimal} (h : d.Normal) :
    ∃ whole fraction power, general d = point whole fraction ++ power ∧
      Laid d.exponent whole fraction power := by
  rw [general]
  split
  · next near =>
    have close : ¬(d.exponent < -4 ∨ 15 ≤ d.exponent) := by omega
    refine ⟨d.split.1, d.split.2, [], (List.append_nil _).symm, ?_⟩
    rw [Decimal.split]
    split
    · exact h.laid_above (by omega) (by omega) close
    · exact h.laid_below _ close
  · next far => exact ⟨_, _, _, rfl, h.laid_far (by omega)⟩

/-- **Fifteen digits** are left after rounding. -/
theorem normal_rounded (hn : 0 < n) (hd : 0 < d) : (rounded 15 n d).Normal := by
  obtain ⟨low, high, same⟩ := rounded_again hn hd (show 0 < 15 by decide)
  obtain ⟨nonempty, head⟩ := digits_rounded hn hd 15
  have width := width_eq low high (by decide)
  have digits : (rounded 15 n d).digits =
      trimZeros (decimalDigits (steps 15 n d (rounded 15 n d).exponent)) := by
    conv_lhs => rw [same, ofSteps]
  obtain ⟨z, hz⟩ := exists_trimZeros (decimalDigits (steps 15 n d (rounded 15 n d).exponent))
  rw [← digits] at hz
  refine ⟨nonempty, fun c hc => ?_, head, ?_, ?_⟩
  · have mem : c ∈ decimalDigits (steps 15 n d (rounded 15 n d).exponent) := by
      rw [hz]
      exact List.mem_append_left _ hc
    exact isDigit_of_mem mem
  · rw [digits]
    exact getLast?_trimZeros _
  · have lengths := congrArg List.length hz
    rw [List.length_append] at lengths
    rw [Decimal.width] at width
    omega

/-! ### Reading back -/

theorem lt_of_isDigit (h : c.isDigit = true) : c.toNat < 0x80 :=
  Nat.lt_of_le_of_lt (Numeral.bounds_of_isDigit h).2 (by decide)

theorem Laid.ascii (h : Laid e whole fraction power) :
    ∀ c ∈ point whole fraction ++ power, c.toNat < 0x80 := by
  have digits : ∀ c ∈ whole ++ fraction, c.toNat < 0x80 := fun c hc => lt_of_isDigit (h.digits c hc)
  have pointed : ∀ c ∈ point whole fraction, c.toNat < 0x80 := by
    rw [point]
    split
    · exact fun c hc => digits c (List.mem_append_left _ hc)
    · simp only [List.mem_append, List.mem_cons]
      rintro c (hc | rfl | hc)
      · exact digits c (List.mem_append_left _ hc)
      · decide
      · exact digits c (List.mem_append_right _ hc)
  have raised : ∀ c ∈ power, c.toNat < 0x80 := by
    by_cases far : e < -4 ∨ 15 ≤ e
    · obtain ⟨ds, rfl, -, hds, -⟩ := h.raised far
      simp only [List.mem_cons]
      rintro c (rfl | rfl | hc)
      · decide
      · split <;> decide
      · exact lt_of_isDigit (hds c hc)
    · simp [h.unraised far]
  intro c hc
  rcases List.mem_append.mp hc with hc | hc
  · exact pointed c hc
  · exact raised c hc

theorem Laid.raises (h : Laid e whole fraction power) :
    ∃ ex, Numeral.Raises ex (Text.bytes power) := by
  by_cases far : e < -4 ∨ 15 ≤ e
  · obtain ⟨ds, rfl, long, hds, -⟩ := h.raised far
    have signs : Numeral.Signs (e < 0) (Text.bytes [if e < 0 then '-' else '+']) := by
      by_cases below : e < 0
      · rw [if_pos below, decide_eq_true below]
        exact .minus
      · rw [if_neg below, decide_eq_false below]
        exact .plus
    have digits : Text.bytes ds ≠ [] := by
      refine mt List.map_eq_nil_iff.mp (List.ne_nil_of_length_pos ?_)
      omega
    exact ⟨_, .some (e := 0x65) (by decide) signs digits (Numeral.isDigit_bytes hds)⟩
  · rw [h.unraised far]
    exact ⟨none, .none⟩

/-- A fraction is spelt with the point in front of it. -/
theorem Laid.pointed (h : Laid e whole fraction power) : ∃ frac : Option Bytes,
    (∀ d ∈ frac.getD [], Numeral.isDigit d = true) ∧
      Text.bytes (point whole fraction) = Text.bytes whole ++ Numeral.pointed frac := by
  have digits := Numeral.isDigit_bytes fun c hc => h.digits c (List.mem_append_right whole hc)
  by_cases bare : fraction = []
  · refine ⟨none, by simp, ?_⟩
    rw [point, if_pos bare, Numeral.pointed, List.append_nil]
  · refine ⟨some (Text.bytes fraction), digits, ?_⟩
    rw [point, if_neg bare, Text.bytes_append]
    rfl

/-- **What is laid out** is a spelling of a numeral. -/
theorem Laid.written (h : Laid e whole fraction power) (minus : Bool) :
    ∃ body, Numeral.Written minus body (Text.bytes
      ((if minus then ['-'] else []) ++ (point whole fraction ++ power))) := by
  obtain ⟨ex, raises⟩ := h.raises
  obtain ⟨frac, behind, spelt⟩ := h.pointed
  have before := Numeral.isDigit_bytes fun c hc => h.digits c (List.mem_append_left fraction hc)
  have nonempty : Text.bytes whole ≠ [] := mt List.map_eq_nil_iff.mp h.nonempty
  have signs : Numeral.Signs minus (Text.bytes (if minus then ['-'] else [])) := by
    cases minus with
    | true => exact .minus
    | false => exact .none
  refine ⟨_, _, _, signs, .digits before behind (.inl nonempty) raises, ?_⟩
  rw [Text.bytes_append, Text.bytes_append, spelt, List.append_assoc]

/-! ### Rounding once more -/

/-- Fifteen digits and the decimal exponent they start at.  Rounding that goes up to the next power
of ten leaves a zero too many. -/
def scientific (n d : ℕ) : ℕ × ℤ :=
  let top := leading n d
  let k := steps 15 n d top
  if k < 10 ^ 15 then (k, top) else (k / 10, top + 1)

/-- A quotient with so many decimals, all of them written. -/
def fixed (decimals n d : ℕ) : List Char :=
  let ds := decimalDigits (Binary64.roundHalfEven (n * 10 ^ decimals) d)
  let ds := List.replicate (decimals + 1 - ds.length) '0' ++ ds
  point (ds.take (ds.length - decimals)) (ds.drop (ds.length - decimals))

/-- Text without the zeros at the end of a fraction, and without a point that nothing follows. -/
def stripZeros (cs : List Char) : List Char :=
  if '.' ∈ cs then ((cs.reverse.dropWhile (· = '0')).dropWhile (· = '.')).reverse else cs

/-- A quotient in text by way of its fifteen digits: for the exponents from −4 to 14 it is rounded
again, to the decimals that are left. -/
def printed (n d : ℕ) : List Char :=
  let (k, e) := scientific n d
  if -4 ≤ e ∧ e < 15 then stripZeros (fixed (14 - e).toNat n d)
  else
    let ds := decimalDigits k
    let power := decimalDigits e.natAbs
    stripZeros (point (ds.take 1) (ds.drop 1)) ++
      'e' :: (if e < 0 then '-' else '+') :: (List.replicate (2 - power.length) '0' ++ power)

theorem scientific_eq (hn : 0 < n) (hd : 0 < d) : scientific n d =
    (steps 15 n d (rounded 15 n d).exponent, (rounded 15 n d).exponent) := by
  rw [scientific]
  split
  · next fits => rw [exponent_fits hn hd (by decide) fits]
  · next wide =>
    have carried : steps 15 n d (leading n d) = 10 ^ 15 :=
      Nat.le_antisymm (steps_le hn hd (by decide)) (Nat.not_lt.mp wide)
    obtain ⟨top, again, -⟩ := steps_carried hd carried
    rw [top, again, carried]
    norm_num

theorem ne_point (h : c.isDigit = true) : c ≠ '.' := by
  rintro rfl
  exact absurd h (by decide)

/-- Digits at the end are no point. -/
theorem dropWhile_reverse (nonempty : ds ≠ []) (digits : ∀ c ∈ ds, c.isDigit = true)
    (cs : List Char) : (ds.reverse ++ cs).dropWhile (· = '.') = ds.reverse ++ cs := by
  obtain ⟨c, ds', hds⟩ := List.exists_cons_of_ne_nil (mt List.reverse_eq_nil_iff.mp nonempty)
  have mem : c ∈ ds := List.mem_reverse.mp (hds ▸ List.mem_cons_self)
  rw [hds, List.cons_append, List.dropWhile_cons_of_neg]
  simpa using ne_point (digits c mem)

/-- Stripped of zeros, text keeps what stands before the point. -/
theorem stripZeros_point (nonempty : whole ≠ []) (before : ∀ c ∈ whole, c.isDigit = true)
    (behind : ∀ c ∈ fraction, c.isDigit = true) :
    stripZeros (point whole fraction) = point whole (trimZeros fraction) := by
  by_cases bare : fraction = []
  · have none : '.' ∉ whole := fun point => ne_point (before _ point) rfl
    subst bare
    rw [point, if_pos rfl, stripZeros, if_neg none]
    rfl
  · obtain ⟨k, hk⟩ := exists_trimZeros fraction
    have last := getLast?_trimZeros fraction
    have kept : ∀ c ∈ trimZeros fraction, c.isDigit = true := fun c hc =>
      behind c (hk ▸ List.mem_append_left _ hc)
    rw [point, if_neg bare, stripZeros, if_pos (by simp)]
    generalize trimZeros fraction = t at *
    have reversed : (whole ++ '.' :: fraction).reverse =
        List.replicate k '0' ++ (t.reverse ++ '.' :: whole.reverse) := by
      simp [hk]
    have head : (t.reverse ++ '.' :: whole.reverse).head? ≠ some '0' := by
      cases hl : t.getLast? with
      | none => simp [List.getLast?_eq_none_iff.mp hl]
      | some c => simpa [List.head?_append, hl] using last
    rw [reversed, List.dropWhile_append_of_pos (by simp), dropWhile_of_head? head, point]
    by_cases none : t = []
    · rw [if_pos none, none, List.reverse_nil, List.nil_append,
        List.dropWhile_cons_of_pos (by simp)]
      have whole' := dropWhile_reverse nonempty before []
      rw [List.append_nil] at whole'
      rw [whole', List.reverse_reverse]
    · rw [if_neg none, dropWhile_reverse none kept]
      simp

/-- The fifteen digits around a point, without zeros at their end. -/
theorem stripZeros_split {ds : List Char} {k : ℕ} (digits : ∀ c ∈ ds, c.isDigit = true)
    (some : 0 < k) (within : k ≤ ds.length) :
    stripZeros (point (ds.take k) (ds.drop k)) =
      point ((trimZeros ds ++ List.replicate (k - (trimZeros ds).length) '0').take k)
        ((trimZeros ds).drop k) := by
  have whole : ds.take k =
      (trimZeros ds ++ List.replicate (k - (trimZeros ds).length) '0').take k := by
    obtain ⟨z, hz⟩ := exists_trimZeros ds
    have lengths := congrArg List.length hz
    rw [List.length_append, List.length_replicate] at lengths
    conv_lhs => rw [hz]
    rw [List.take_append, List.take_append, List.take_replicate, List.take_replicate]
    congr 2
    omega
  rw [stripZeros_point, whole, trimZeros_drop]
  · exact List.ne_nil_of_length_pos (by simp; omega)
  · exact fun c hc => digits c (List.mem_of_mem_take hc)
  · exact fun c hc => digits c (List.mem_of_mem_drop hc)

/-- With the decimals that the exponent leaves, the grid is that of fifteen digits. -/
theorem roundHalfEven_fixed (n d : ℕ) (h : e < 15) :
    Binary64.roundHalfEven (n * 10 ^ (14 - e).toNat) d = steps 15 n d e := by
  rw [steps, onGrid]
  split
  · next last =>
    obtain rfl : e = 14 := by omega
    simp
  · next more =>
    have decimals : (-(e - (15 - 1 : ℕ))).toNat = (14 - e).toNat := by omega
    rw [decimals]
    rfl

/-- Zeros in front stay. -/
theorem trimZeros_zeros (k : ℕ) (some : trimZeros ds ≠ []) :
    trimZeros (List.replicate k '0' ++ ds) = List.replicate k '0' ++ trimZeros ds := by
  obtain ⟨z, hz⟩ := exists_trimZeros ds
  have last : (List.replicate k '0' ++ trimZeros ds).getLast? ≠ Option.some '0' := by
    rw [List.getLast?_append_of_ne_nil _ some]
    exact getLast?_trimZeros ds
  conv_lhs => rw [hz, ← List.append_assoc, trimZeros_append_zeros]
  exact trimZeros_of_getLast? last

/-- With the exponents from −4 to 14. -/
theorem stripZeros_fixed {k : ℕ} (counted : steps 15 n d e = k) (width : width k = 15)
    (positive : 0 < k) (low : -4 ≤ e) (high : e < 15) :
    stripZeros (fixed (14 - e).toNat n d) =
      point (Decimal.split ⟨trimZeros (decimalDigits k), e⟩).1
        (Decimal.split ⟨trimZeros (decimalDigits k), e⟩).2 := by
  have digits : ∀ c ∈ decimalDigits k, c.isDigit = true := fun _ => isDigit_of_mem
  have length : (decimalDigits k).length = 15 := width
  rw [fixed, roundHalfEven_fixed n d high, counted, Decimal.split]
  dsimp only
  rw [length]
  by_cases above : 0 ≤ e
  · have padding : (14 - e).toNat + 1 - 15 = 0 := by omega
    have whole : 15 - (14 - e).toNat = e.toNat + 1 := by omega
    rw [if_pos above, padding, List.replicate_zero, List.nil_append, length, whole]
    exact stripZeros_split digits (Nat.succ_pos _) (by omega)
  · obtain ⟨m, hm⟩ : ∃ m, (14 - e).toNat + 1 - 15 = m + 1 ∧ (-e - 1).toNat = m :=
      ⟨(-e - 1).toNat, by omega, rfl⟩
    have whole : m + 1 + 15 - (14 - e).toNat = 1 := by omega
    have kept := trimZeros_ne_nil positive
    rw [if_neg above, hm.1, hm.2, List.length_append, List.length_replicate, length, whole,
      List.replicate_succ]
    show stripZeros (point ['0'] (List.replicate m '0' ++ decimalDigits k)) = _
    rw [stripZeros_point (by simp) (by simp), trimZeros_zeros m kept]
    intro c hc
    rcases List.mem_append.mp hc with hc | hc
    · exact isDigit_of_mem_zeros hc
    · exact digits c hc

/-- **Rounded twice**, the text of a quotient is the same. -/
theorem printed_eq (hn : 0 < n) (hd : 0 < d) : printed n d = general (rounded 15 n d) := by
  obtain ⟨low, high, same⟩ := rounded_again hn hd (show 0 < 15 by decide)
  have width := width_eq low high (by decide)
  have positive := Nat.lt_of_lt_of_le (Nat.pow_pos (by decide)) low
  rw [printed, scientific_eq hn hd]
  generalize hk : steps 15 n d (rounded 15 n d).exponent = k at *
  have decimal : rounded 15 n d =
      ⟨trimZeros (decimalDigits k), (rounded 15 n d).exponent⟩ := by
    have exponent := congrArg Decimal.exponent same
    conv_lhs => rw [same]
    rw [ofSteps]
    congr 1
    exact exponent.symm
  generalize (rounded 15 n d).exponent = e at *
  rw [decimal, general]
  dsimp only
  split
  · next near => exact stripZeros_fixed hk width positive near.1 near.2
  · have one : 1 - (trimZeros (decimalDigits k)).length = 0 := by
      have := List.length_pos_iff.mpr (trimZeros_ne_nil positive)
      omega
    rw [stripZeros_split (fun _ => isDigit_of_mem) (by decide) (width_pos k), one,
      List.replicate_zero, List.append_nil]

end Decimal

namespace Binary64
variable {f : Binary64}

/-! ### Texts of data -/

/-- The decimal exponent of a magnitude that was rounded to fifteen significant digits. -/
def decimalExponent (f : Binary64) : ℤ := Int.log 10 (toPlaces 15 (f.ratio.1 / f.ratio.2))

theorem signed_eq (f : Binary64) (cs : List Char) :
    f.signed cs = (if f.isNegative then ['-'] else []) ++ cs := by
  rw [signed]
  split <;> rfl

theorem kinds (f : Binary64) : f.isNaN = true ∨ f.isInfinite = true ∨ f.isFinite = true := by
  by_cases special : f.exponentField = 2047 <;> by_cases bare : f.fractionField = 0 <;>
    simp [isNaN, isInfinite, isFinite, special, bare]

theorem format_of_isInfinite (infinite : f.isInfinite = true) :
    f.format = if f.isNegative then "-Inf".toList else "Inf".toList := by
  have fields : f.exponentField = 2047 ∧ f.fractionField = 0 := by
    simpa [isInfinite] using infinite
  rw [format, if_neg (by simp [isNaN, fields.2]), if_pos infinite, signed]
  rfl

theorem decimalExponent_of_isZero (zero : f.isZero = true) : f.decimalExponent = 0 := by
  simp only [isZero, Bool.and_eq_true, decide_eq_true_eq] at zero
  have none : f.mantissa = 0 := by rw [mantissa, if_pos zero.1, zero.2]
  have value : f.ratio.1 = 0 := by
    rw [ratio]
    split <;> simp [none]
  rw [decimalExponent, value]
  simp [toPlaces, halfEven]

theorem format_of_isZero (zero : f.isZero = true) : f.format = f.signed ['0'] := by
  have fields : f.exponentField = 0 ∧ f.fractionField = 0 := by simpa [isZero] using zero
  rw [format, if_neg (by simp [isNaN, fields.1]), if_neg (by simp [isInfinite, fields.1]),
    if_pos zero]

/-- **The text of a finite datum.** -/
theorem laid_format (finite : f.isFinite = true) : ∃ whole fraction power,
    f.format = (if f.isNegative then ['-'] else []) ++ (Decimal.point whole fraction ++ power) ∧
      Decimal.Laid f.decimalExponent whole fraction power := by
  cases zero : f.isZero with
  | true =>
    refine ⟨['0'], [], [], ?_, ⟨by simp, by simp, by simp, by decide, fun _ => rfl, ?_⟩⟩
    · rw [format_of_isZero zero, signed_eq]
      rfl
    · rw [decimalExponent_of_isZero zero]
      omega
  | false =>
    have hn := numerator_pos zero
    obtain ⟨whole, fraction, power, text, laid⟩ := (Decimal.normal_rounded hn (ratio_pos f)).laid
    rw [Decimal.exponent_rounded hn (ratio_pos f)] at laid
    exact ⟨whole, fraction, power, by rw [format_of_finite finite zero, signed_eq, text], laid⟩

/-- **Every text** is a numeral. -/
theorem format_mem_numeral (f : Binary64) :
    Text.encode (String.ofList f.format) ∈ Grammar.numeral := by
  rw [Numeral.mem_numeral]
  rcases f.kinds with nan | infinite | finite
  · rw [format, if_pos nan]
    exact ⟨false, .nan, [], _, .none, .nan rfl, rfl⟩
  · rw [format_of_isInfinite infinite]
    have word : Text.encode "Inf" ∈ Grammar.word "inf" + Grammar.word "infinity" := .inl rfl
    cases f.isNegative with
    | true => exact ⟨true, .infinity, _, _, .minus, .infinity word, rfl⟩
    | false => exact ⟨false, .infinity, _, _, .none, .infinity word, rfl⟩
  · obtain ⟨whole, fraction, power, text, laid⟩ := laid_format finite
    have ascii : ∀ c ∈ f.format, c.toNat < 0x80 := by
      rw [text]
      intro c hc
      rcases List.mem_append.mp hc with hc | hc
      · split at hc
        · rw [List.mem_singleton.mp hc]
          decide
        · cases hc
      · exact laid.ascii c hc
    obtain ⟨body, written⟩ := laid.written f.isNegative
    rw [← text, ← Text.encode_ascii ascii] at written
    exact ⟨_, body, written⟩

theorem head?_format (f : Binary64) :
    f.format.head? = some '-' ↔ f.isNegative = true ∧ f.isNaN = false := by
  rcases f.kinds with nan | infinite | finite
  · simp [format, nan]
  · have number : f.isNaN = false := by
      have fields : f.exponentField = 2047 ∧ f.fractionField = 0 := by
        simpa [isInfinite] using infinite
      simp [isNaN, fields.2]
    rw [format_of_isInfinite infinite]
    cases f.isNegative <;> simp [number]
  · have number : f.isNaN = false := by
      have field : f.exponentField ≠ 2047 := by simpa [isFinite] using finite
      simp [isNaN, field]
    obtain ⟨whole, fraction, power, text, laid⟩ := laid_format finite
    obtain ⟨c, cs, rfl⟩ := List.exists_cons_of_ne_nil laid.nonempty
    have digit : c ≠ '-' := by
      rintro rfl
      exact absurd (laid.digits _ List.mem_cons_self) (by decide)
    rw [text, Decimal.point]
    by_cases bare : fraction = [] <;> cases f.isNegative <;> simp [number, digit, bare]

/-- **Every formatted float reads back as a number.**  The text of any datum is all numeric.  It is
one of three words, or digits with at most one point and no zero or point at the end, of which at
most fifteen are significant, with an exponent of two digits or more exactly if the decimal exponent
after rounding is below −4 or at least 15.  A minus stands in front exactly if the datum is a number
and negative, negative zero included. -/
theorem format_reads_back (f : Binary64) :
    (looksLikeNumber (Text.encode (String.ofList f.format)) = true ∧
      ∃ s, Numeral.scan (Text.encode (String.ofList f.format)) = some s ∧ s.trailing = false) ∧
    (f.isNaN = true ∧ f.format = "NaN".toList ∨
      f.isInfinite = true ∧ f.format = (if f.isNegative then "-Inf".toList else "Inf".toList) ∨
      f.isFinite = true ∧ ∃ whole fraction power,
        f.format = (if f.isNegative then ['-'] else []) ++
          (Decimal.point whole fraction ++ power) ∧
        Decimal.Laid f.decimalExponent whole fraction power) ∧
    (f.format.head? = some '-' ↔ f.isNegative = true ∧ f.isNaN = false) := by
  have blank : [] ∈ Grammar.space∗ := Language.nil_mem_kstar _
  have numeric : Text.encode (String.ofList f.format) ∈
      Grammar.space∗ * Grammar.numeral * Grammar.space∗ :=
    ⟨_, ⟨[], blank, _, f.format_mem_numeral, rfl⟩, [], blank, List.append_nil _⟩
  refine ⟨⟨Numeral.looksLikeNumber_iff.mpr (.inr numeric), Numeral.exists_scan numeric⟩, ?_,
    f.head?_format⟩
  rcases f.kinds with nan | infinite | finite
  · exact .inl ⟨nan, if_pos nan⟩
  · exact .inr (.inl ⟨infinite, format_of_isInfinite infinite⟩)
  · exact .inr (.inr ⟨finite, laid_format finite⟩)

/-- **Rounded twice**, the text of a datum is the same: once for the exponent that decides how it is
laid out, and again for the decimals that this exponent leaves. -/
theorem format_again (finite : f.isFinite = true) (nonzero : f.isZero = false) :
    f.format = f.signed (Decimal.printed f.ratio.1 f.ratio.2) := by
  rw [format_of_finite finite nonzero, Decimal.printed_eq (numerator_pos nonzero) (ratio_pos f)]

end Binary64

end ScriptCore
