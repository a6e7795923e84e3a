import Mathlib.Data.Nat.Digits.Defs
import ScriptCore.Heap.Convert
import ScriptCore.Proofs.Number.Exact
import ScriptCore.Proofs.Number.Scanning
import ScriptCore.Proofs.Number.Written

/-!
# Number — integers in writing

Digits with a sign or none in front and white space around them are read as the integer they stand
for, if 64 bits hold it, and as the nearest float otherwise.  The scanner holds back what overflows
64 bits on the way, so a magnitude between the two bounds on `Int64` and 64 bits is told apart later
than a larger one.

* `parseNumber_integer`: what digits of any length are read as.
* `parseNumber_intText`: an integer is read back from its own text.
-/

namespace ScriptCore

open Computability

/-! ### Texts of one byte to a character -/

/-- Characters as bytes of the same numbers. -/
def Text.bytes (cs : List Char) : Bytes := cs.map fun c => UInt8.ofNat c.toNat

theorem Text.bytes_append (cs cs' : List Char) :
    Text.bytes (cs ++ cs') = Text.bytes cs ++ Text.bytes cs' := List.map_append

/-- Below U+0080 a character is one byte. -/
theorem Text.encode_ascii {cs : List Char} (ascii : ∀ c ∈ cs, c.toNat < 0x80) :
    Text.encode (String.ofList cs) = Text.bytes cs := by
  rw [Text.encode, String.toList_ofList]
  induction cs with
  | nil => rfl
  | cons c cs ih =>
    obtain ⟨small, rest⟩ := List.forall_mem_cons.mp ascii
    have one : String.utf8EncodeChar c = [UInt8.ofNat c.toNat] := by
      have value : c.val.toNat ≤ 0x7F := Nat.le_of_lt_succ small
      unfold String.utf8EncodeChar
      rw [if_pos value]
      rfl
    rw [List.flatMap_cons, one, ih rest]
    rfl

namespace Numeral
variable {b ds sp sp' sg : Bytes} {minus : Bool} {n : Nat} {c : Char}

/-! ### The value of digits -/

theorem valueOf_append (ds : Bytes) (d : UInt8) :
    valueOf (ds ++ [d]) = valueOf ds * 10 + (d.toNat - 0x30) := by
  rw [valueOf, List.foldl_append]
  rfl

/-- The number that digits denote, the first one counting most. -/
def denoted (ds : Bytes) : Nat := Nat.ofDigits 10 (ds.reverse.map fun d => d.toNat - 0x30)

theorem valueOf_eq (ds : Bytes) : valueOf ds = denoted ds := by
  induction ds using List.reverseRecOn with
  | nil => rfl
  | append_singleton ds d ih =>
    rw [valueOf_append, ih, denoted, denoted, List.reverse_append, List.reverse_singleton,
      List.singleton_append, List.map_cons, Nat.ofDigits_cons]
    omega

theorem bounds_of_isDigit (h : c.isDigit = true) : 0x30 ≤ c.toNat ∧ c.toNat ≤ 0x39 := by
  simp only [Char.isDigit, Bool.and_eq_true, decide_eq_true_eq] at h
  exact ⟨UInt32.le_iff_toNat_le.mp h.1, UInt32.le_iff_toNat_le.mp h.2⟩

theorem isDigit_byte (h : c.isDigit = true) : isDigit (UInt8.ofNat c.toNat) = true := by
  obtain ⟨low, high⟩ := bounds_of_isDigit h
  have value : (UInt8.ofNat c.toNat).toNat = c.toNat := 
    UInt8.toNat_ofNat_of_lt' (Nat.lt_of_le_of_lt high (by decide))
  simp only [isDigit, Bool.and_eq_true, decide_eq_true_eq, UInt8.le_iff_toNat_le, value]
  exact ⟨low, high⟩

theorem isDigit_bytes {cs : List Char} (digits : ∀ c ∈ cs, c.isDigit = true) :
    ∀ d ∈ Text.bytes cs, isDigit d = true := by
  intro d hd
  obtain ⟨c, hc, rfl⟩ := List.mem_map.mp hd
  exact isDigit_byte (digits c hc)

/-- The bytes of a number's digits denote it. -/
theorem valueOf_decimalDigits (n : Nat) : valueOf (Text.bytes (decimalDigits n)) = n := by
  induction n using Nat.strongRecOn with
  | ind n ih =>
    have last {d : Nat} (small : d < 10) :
        (UInt8.ofNat (Nat.digitChar d).toNat).toNat - 0x30 = d := by
      revert small
      revert d
      decide
    rw [decimalDigits, Nat.toDigits_eq_if (by decide)]
    split
    · next small => simpa [valueOf, Text.bytes] using last small
    · next large =>
      have front := ih (n / 10) (by omega)
      rw [decimalDigits] at front
      rw [Text.bytes_append, Text.bytes, Text.bytes, List.map_singleton, valueOf_append,
        ← Text.bytes, front, last (Nat.mod_lt n (by decide))]
      omega

/-! ### Digits and nothing else -/

theorem isDigit_of_isSpace {c : UInt8} (h : isSpace c = true) : isDigit c = false := by
  refine Bool.eq_false_iff.mpr fun digit => ?_
  rw [isSpace_of_le (le_of_isDigit digit)] at h
  exact Bool.noConfusion h

theorem readBody_whole (some : ds ≠ []) (digits : ∀ d ∈ ds, isDigit d = true)
    (blank : ∀ c ∈ sp, isSpace c = true) :
    readBody (ds ++ sp) = Option.some (.digits ds none none, sp) := by
  have ends : sp.takeWhile isDigit = [] ∧ sp.dropWhile isDigit = sp ∧
      fraction sp = (none, sp) ∧ exponent sp = (none, sp) := by
    cases sp with
    | nil => exact ⟨rfl, rfl, rfl, rfl⟩
    | cons c sp =>
      have space := blank c List.mem_cons_self
      have other : ¬isDigit c = true := by simp [isDigit_of_isSpace space]
      have point : c ≠ 0x2E := by
        rintro rfl
        exact absurd space (by decide)
      have letter : lower c ≠ 0x65 := by
        intro e
        have above : (0x2E : UInt8) ≤ c :=
          UInt8.le_trans (by decide) (le_of_le_lower (c := c) (by rw [e]; decide))
        rw [isSpace_of_le above] at space
        exact Bool.noConfusion space
      refine ⟨List.takeWhile_cons_of_neg other, List.dropWhile_cons_of_neg other,
        fraction_of_ne point, ?_⟩
      rw [exponent]
      exact if_neg letter
  obtain ⟨taken, left, unpointed, unraised⟩ := ends
  have before : (ds ++ sp).takeWhile isDigit = ds := by
    rw [List.takeWhile_append_of_pos digits, taken, List.append_nil]
  have behind : (ds ++ sp).dropWhile isDigit = sp := by
    rw [List.dropWhile_append_of_pos digits, left]
  rw [readBody_digits (.inl (by rwa [before])), before, behind, unpointed, unraised]

theorem scan_integer (blank : ∀ c ∈ sp, isSpace c = true) (blank' : ∀ c ∈ sp', isSpace c = true)
    (hsg : Signs minus sg) (some : ds ≠ []) (digits : ∀ d ∈ ds, isDigit d = true) :
    ∃ s, scan (sp ++ (sg ++ ds) ++ sp') = Option.some s ∧ s.minus = minus ∧
      s.body = .digits ds none none ∧ s.trailing = false := by
  have written : Written minus (.digits ds none none) (sg ++ ds) := by
    have spelt : Spells (.digits ds none none) (ds ++ (pointed none ++ [])) :=
      .digits digits (by simp) (.inl some) .none
    rw [pointed, List.nil_append, List.append_nil] at spelt
    exact ⟨sg, ds, hsg, spelt, rfl⟩
  obtain ⟨d, ds', rfl⟩ := List.exists_cons_of_ne_nil some
  have signed : sign (sg ++ (d :: ds') ++ sp') = (minus, d :: ds' ++ sp') := by
    rw [List.append_assoc]
    exact hsg.sign_append (le_of_isDigit (digits d List.mem_cons_self))
  have front := written.dropWhile_append blank sp'
  have read : readBody (sign ((sp ++ (sg ++ (d :: ds')) ++ sp').dropWhile isSpace)).2 =
      Option.some (.digits (d :: ds') none none, sp') := by
    rw [front, signed, readBody_whole some digits blank']
  refine ⟨_, congrArg (Option.map _) read, ?_, rfl, ?_⟩
  · show (sign ((sp ++ (sg ++ (d :: ds')) ++ sp').dropWhile isSpace)).1 = minus
    rw [front, signed]
  · simpa [List.dropWhile_eq_nil_iff] using blank'

/-! ### Floats of integers -/

/-- Beyond 310 digits there is only infinity. -/
theorem ofRatio_huge {k : Nat} (h : 310 ≤ k) (large : 10 ^ k ≤ n) :
    Binary64.ofRatio minus n 1 = .infinity minus := by
  have positive : n ≠ 0 := Nat.ne_of_gt (Nat.lt_of_lt_of_le (Nat.pow_pos (by decide)) large)
  have longer := Nat.pow_le_pow_right (n := 10) (by decide) h
  have log : 1026 ≤ n.log2 :=
    (Nat.le_log2 positive).mpr (Nat.le_trans (by decide +kernel) (Nat.le_trans longer large))
  have binade : 973 ≤ Binary64.binade n 1 := by
    rw [Binary64.binade, show Nat.log2 1 = 0 by decide]
    dsimp only
    split <;> omega
  rw [Binary64.ofRatio, if_neg positive]
  dsimp only
  rw [Binary64.infinity]
  congr 1
  refine Nat.min_eq_right ?_
  have field : 2047 ≤ (Binary64.binade n 1 + 1074).toNat := by omega
  exact Nat.le_trans (Nat.mul_le_mul_right (Nat.pow 2 52) field) (Nat.le_add_right _ _)

theorem scaled_whole (minus : Bool) (n : Nat) : scaled minus n 0 = .ofRatio minus n 1 := by
  rw [scaled]
  split
  · next zero => rw [zero, Binary64.ofRatio, if_pos rfl]
  · next nonzero =>
    dsimp only
    rw [Int.add_zero]
    split
    · next long =>
      have wide : 310 ≤ Decimal.width n - 1 := by omega
      rw [ofRatio_huge wide (Decimal.pow_width_le (Nat.pos_of_ne_zero nonzero))]
    · rw [if_neg (by omega), if_pos (Int.le_refl 0)]
      dsimp only
      rw [Int.toNat_zero, Nat.pow_eq, Nat.pow_zero, Nat.mul_one]

/-- The value of digits alone. -/
theorem number_integer {s : Numeral} (body : s.body = .digits ds none none) :
    s.number = integerValue s.minus (valueOf ds) := by
  have whole : s.whole = ds := by rw [Numeral.whole, body]
  have integer : s.notInteger = false := by rw [notInteger, body]
  rw [number, body]
  dsimp only
  rw [integer, Bool.false_or]
  by_cases fits : valueOf ds < Nat.pow 2 64
  · have small : s.tooBig = false := by
      rw [← Bool.not_eq_true, tooBig_iff, whole, not_not]
      exact fits
    have value : s.value = valueOf ds := by
      rw [Numeral.value, whole]
      exact congrArg Prod.fst (held_eq fits)
    rw [small, value]
    rfl
  · have big : s.tooBig = true := by rwa [tooBig_iff, whole]
    have outside : ¬(Binary64.leastInt64 ≤ (if s.minus then -(valueOf ds : Int) else valueOf ds) ∧
        (if s.minus then -(valueOf ds : Int) else valueOf ds) ≤ Binary64.greatestInt64) := by
      simp only [Nat.pow_eq] at fits
      rw [Binary64.leastInt64, Binary64.greatestInt64]
      split <;> omega
    rw [big, if_pos rfl, integerValue, if_neg outside, ← scaled_whole]
    simp

/-! ### Reading integers -/

/-- **Digits of any length** are the integer they denote, or the nearest float. -/
theorem parseNumber_integer (blank : ∀ c ∈ sp, isSpace c = true)
    (blank' : ∀ c ∈ sp', isSpace c = true) (hsg : Signs minus sg) (some : ds ≠ [])
    (digits : ∀ d ∈ ds, isDigit d = true) :
    parseNumber (sp ++ (sg ++ ds) ++ sp') = (integerValue minus (denoted ds), true) := by
  obtain ⟨s, found, rfl, body, clean⟩ := scan_integer blank blank' hsg some digits
  -- The text with words in it goes on behind its zero.
  have other : sp ++ (sg ++ ds) ++ sp' ≠ zeroButTrue := by
    intro same
    have worded : (scan zeroButTrue).map (·.trailing) = Option.some true := by decide
    rw [← same, found, Option.map_some, clean] at worded
    cases worded
  rw [parseNumber, if_neg other, found]
  dsimp only
  rw [number_integer body, valueOf_eq, clean, Bool.not_false]

theorem intText_signs (v : Int64) : ∃ sg ds, Signs (v < 0) sg ∧ ds ≠ [] ∧
    (∀ d ∈ ds, isDigit d = true) ∧ valueOf ds = v.toInt.natAbs ∧
      Text.encode (String.ofList (Heap.intText v)) = sg ++ ds := by
  have digits : ∀ c ∈ decimalDigits v.toInt.natAbs, c.isDigit = true := fun _ => isDigit_of_mem
  have small : ∀ c ∈ decimalDigits v.toInt.natAbs, c.toNat < 0x80 := fun c hc =>
    Nat.lt_of_le_of_lt (bounds_of_isDigit (digits c hc)).2 (by decide)
  have bytes := isDigit_bytes digits
  have some : Text.bytes (decimalDigits v.toInt.natAbs) ≠ [] :=
    mt List.map_eq_nil_iff.mp (decimalDigits_ne_nil v.toInt.natAbs)
  have value := valueOf_decimalDigits v.toInt.natAbs
  rw [Heap.intText]
  by_cases below : v < 0
  · refine ⟨[0x2D], _, ?_, some, bytes, value, ?_⟩
    · rw [decide_eq_true below]
      exact .minus
    · rw [if_pos below, Text.encode_ascii (List.forall_mem_cons.mpr ⟨by decide, small⟩)]
      rfl
  · refine ⟨[], _, ?_, some, bytes, value, ?_⟩
    · rw [decide_eq_false below]
      exact .none
    · rw [if_neg below, Text.encode_ascii small]
      rfl

/-- The integer that a sign and digits stand for. -/
def standsFor (sg ds : Bytes) : Int :=
  if sg = Text.encode "-" then -(denoted ds : Int) else denoted ds

/-- **Digits of any length** are the integer they stand for where 64 bits hold it, and never any
other integer. -/
theorem parseNumber_standsFor (before : sp ∈ Grammar.space∗) (signed : sg ∈ Grammar.sign)
    (some : ds ∈ Grammar.digit * Grammar.digit∗) (behind : sp' ∈ Grammar.space∗) :
    (-2 ^ 63 ≤ standsFor sg ds ∧ standsFor sg ds ≤ 2 ^ 63 - 1 →
      ∃ v : Int64, v.toInt = standsFor sg ds ∧
        parseNumber (sp ++ sg ++ ds ++ sp') = (.int v, true)) ∧
    (¬(-2 ^ 63 ≤ standsFor sg ds ∧ standsFor sg ds ≤ 2 ^ 63 - 1) →
      parseNumber (sp ++ sg ++ ds ++ sp') =
        (.float (.ofRatio (standsFor sg ds < 0) (standsFor sg ds).natAbs 1), true)) := by
  obtain ⟨minus, hsg⟩ := mem_sign_iff.mp signed
  obtain ⟨nonempty, digits⟩ := mem_one_mul_star.mp some
  have read := parseNumber_integer (mem_star_one.mp before) (mem_star_one.mp behind) hsg
    nonempty digits
  rw [← List.append_assoc] at read
  have value : standsFor sg ds = if minus then -(denoted ds : Int) else denoted ds := by
    cases hsg <;> rfl
  rw [read, integerValue, ← value, Binary64.leastInt64, Binary64.greatestInt64]
  constructor
  · rintro ⟨least, greatest⟩
    refine ⟨_, Int64.toInt_ofInt_of_le (by omega) (by omega), ?_⟩
    rw [if_pos ⟨by omega, by omega⟩]
  · intro outside
    rw [if_neg (by omega)]
    cases minus with
    | true =>
      rw [if_pos rfl] at value
      rw [decide_eq_true (by omega), value, Int.natAbs_neg, Int.natAbs_natCast]
    | false =>
      rw [if_neg Bool.false_ne_true] at value
      rw [decide_eq_false (by omega), value, Int.natAbs_natCast]

theorem ofList_intText (v : Int64) : String.ofList (Heap.intText v) = toString v := by
  have below : v < 0 ↔ v.toInt < 0 := by rw [Int64.lt_iff_toInt_lt, Int64.toInt_zero]
  show _ = v.toInt.repr
  rw [Heap.intText]
  cases value : v.toInt with
  | ofNat n =>
    rw [if_neg (by rw [below, value]; exact Int.not_lt.mpr (Int.natCast_nonneg n))]
    rfl
  | negSucc n =>
    rw [if_pos (by rw [below, value]; exact Int.negSucc_lt_zero n), Int.natAbs_negSucc, Int.repr,
      Nat.repr, ← List.singleton_append, String.ofList_append]
    rfl

/-- **An integer** is read back from its own text. -/
theorem parseNumber_intText (v : Int64) :
    parseNumber (Text.encode (String.ofList (Heap.intText v))) = (.int v, true) := by
  obtain ⟨sg, ds, hsg, some, digits, value, text⟩ := intText_signs v
  have blank (c) (h : c ∈ ([] : Bytes)) : isSpace c = true := absurd h List.not_mem_nil
  have read := parseNumber_integer blank blank hsg some digits
  rw [List.nil_append, List.append_nil] at read
  have signed : (if decide (v < 0) = true then -(v.toInt.natAbs : Int) else v.toInt.natAbs) =
      v.toInt := by
    simp only [decide_eq_true_eq, Int64.lt_iff_toInt_lt, Int64.toInt_zero]
    split <;> omega
  have low := v.le_toInt
  have high := v.toInt_lt
  rw [text, read, ← valueOf_eq, value, integerValue, signed, if_pos, Int64.ofInt_toInt]
  rw [Binary64.leastInt64, Binary64.greatestInt64]
  omega

end Numeral

end ScriptCore
