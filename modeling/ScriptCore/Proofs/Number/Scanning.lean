import ScriptCore.Proofs.Number.Grammar

/-!
# Number — the scanner accepts its grammar

`Numeral.scan` skips white space, reads a sign and what stands after it, and notes what it found
as seven bits.  Its reading is the longest numeral there, and the bits say of the bytes read what
the grammar says of them.

* `scan_grammar`: which byte strings are numeric, which have no numeral at their front, and what
  the scanner finds at the front of the others (`Found`).
-/

namespace ScriptCore

open Grammar
open Computability

namespace Numeral
variable {b t rest f ds : Bytes} {frac : Option Bytes} {minus : Bool} {body body' : Body}
variable {s : Numeral}

/-! ### Numerals -/

/-- The spelling of a numeral. -/
def Written (minus : Bool) (body : Body) (t : Bytes) : Prop :=
  ∃ sg t', Signs minus sg ∧ Spells body t' ∧ t = sg ++ t'

theorem Written.sign_append (h : Written minus body t) :
    ∃ t', Spells body t' ∧ ∀ u, sign (t ++ u) = (minus, t' ++ u) := by
  obtain ⟨sg, t', hsg, ht', rfl⟩ := h
  obtain ⟨c, t', rfl, above⟩ := ht'.head
  refine ⟨_, ht', fun u => ?_⟩
  rw [List.append_assoc]
  exact hsg.sign_append above

/-- A spelling is that of one numeral. -/
theorem Written.unique {minus' : Bool} (h : Written minus body t) (h' : Written minus' body' t) :
    minus = minus' ∧ body = body' := by
  obtain ⟨x, hx, read⟩ := h.sign_append
  obtain ⟨y, hy, read'⟩ := h'.sign_append
  obtain ⟨rfl, same⟩ := Prod.mk.inj ((read []).symm.trans (read' []))
  rw [List.append_nil, List.append_nil] at same
  subst same
  exact ⟨rfl, (Prod.mk.inj (Option.some.inj (hx.readBody_eq.symm.trans hy.readBody_eq))).1⟩

theorem Written.head (h : Written minus body t) : ∃ c t', t = c :: t' ∧ isSpace c = false := by
  obtain ⟨sg, x, hsg, hx, rfl⟩ := h
  obtain ⟨c, x, rfl, above⟩ := hx.head
  cases hsg with
  | none => exact ⟨c, x, rfl, isSpace_of_le above⟩
  | plus => exact ⟨_, _, rfl, by decide⟩
  | minus => exact ⟨_, _, rfl, by decide⟩

/-- Words of the grammar with a sign in front are numerals of the kinds that the words spell. -/
theorem mem_sign_mul {l : Language UInt8} {P : Body → Prop}
    (h : ∀ t, t ∈ l ↔ ∃ body, P body ∧ Spells body t) :
    t ∈ Grammar.sign * l ↔ ∃ minus body, P body ∧ Written minus body t := by
  rw [Language.mem_mul]
  constructor
  · rintro ⟨sg, hsg, t', ht', rfl⟩
    obtain ⟨minus, hsg⟩ := mem_sign_iff.mp hsg
    obtain ⟨body, kind, hbody⟩ := (h t').mp ht'
    exact ⟨minus, body, kind, sg, t', hsg, hbody, rfl⟩
  · rintro ⟨minus, body, kind, sg, t', hsg, hbody, rfl⟩
    exact ⟨sg, mem_sign_iff.mpr ⟨minus, hsg⟩, t', (h t').mpr ⟨body, kind, hbody⟩, rfl⟩

theorem mem_decimal : t ∈ decimal ↔
    ∃ body, (∃ w frac, body = .digits w frac none) ∧ Spells body t := by
  rw [mem_decimal_iff]
  constructor
  · rintro ⟨w, frac, hw, hf, digits, rfl⟩
    have spelt := Spells.digits hw hf digits .none
    rw [List.append_nil] at spelt
    exact ⟨_, ⟨w, frac, rfl⟩, spelt⟩
  · rintro ⟨_, ⟨w, frac, rfl⟩, h⟩
    cases h with
    | digits hw hf digits hx =>
      cases hx with
      | none => exact ⟨w, frac, hw, hf, digits, by rw [List.append_nil]⟩

theorem mem_raised : t ∈ decimal * Grammar.exponent ↔
    ∃ body, (∃ w frac ex, body = .digits w frac (some ex)) ∧ Spells body t := by
  rw [Language.mem_mul]
  constructor
  · rintro ⟨_, ht, x, hx, rfl⟩
    obtain ⟨w, frac, hw, hf, digits, rfl⟩ := mem_decimal_iff.mp ht
    obtain ⟨ex, hx⟩ := mem_exponent_iff.mp hx
    rw [List.append_assoc]
    exact ⟨_, ⟨w, frac, ex, rfl⟩, .digits hw hf digits hx⟩
  · rintro ⟨_, ⟨w, frac, ex, rfl⟩, h⟩
    cases h with
    | digits hw hf digits hx =>
      exact ⟨_, mem_decimal_iff.mpr ⟨w, frac, hw, hf, digits, rfl⟩, _,
        mem_exponent_iff.mpr ⟨ex, hx⟩, List.append_assoc ..⟩

theorem mem_nan : t ∈ word "nan" ↔ ∃ body, body = .nan ∧ Spells body t := by
  refine ⟨fun h => ⟨_, rfl, .nan h⟩, ?_⟩
  rintro ⟨_, rfl, h⟩
  cases h with
  | nan h => exact h

theorem mem_numeral : t ∈ numeral ↔ ∃ minus body, Written minus body t := by
  rw [numeral, mem_sign_mul (P := fun _ => True)]
  · simp only [true_and]
  intro t
  simp only [true_and]
  rw [mul_add, mul_one]
  constructor
  · rintro ((((h | h) | h) | h) | h)
    · obtain ⟨body, -, spelt⟩ := mem_decimal.mp h
      exact ⟨body, spelt⟩
    · obtain ⟨body, -, spelt⟩ := mem_raised.mp h
      exact ⟨body, spelt⟩
    · exact ⟨_, .infinity (.inl h)⟩
    · exact ⟨_, .infinity (.inr h)⟩
    · exact ⟨_, .nan h⟩
  · rintro ⟨body, h⟩
    cases body with
    | infinity =>
      cases h with
      | infinity h => exact .inl (h.imp .inr id)
    | nan =>
      cases h with
      | nan h => exact .inr h
    | digits w frac ex =>
      refine .inl (.inl (.inl ?_))
      cases ex with
      | none => exact .inl (mem_decimal.mpr ⟨_, ⟨w, frac, rfl⟩, h⟩)
      | some ex => exact .inr (mem_raised.mpr ⟨_, ⟨w, frac, ex, rfl⟩, h⟩)

/-! ### Integer parts and their 64 bits -/

/-- The number that digits denote when they follow those of `n`. -/
def valueFrom (n : Nat) (ds : Bytes) : Nat := ds.foldl (fun n d => n * 10 + (d.toNat - 0x30)) n

theorem le_valueFrom (n : Nat) (ds : Bytes) : n ≤ valueFrom n ds := by
  induction ds generalizing n with
  | nil => exact Nat.le_refl n
  | cons d ds ih =>
    have longer : n ≤ n * 10 + (d.toNat - 0x30) := by omega
    exact Nat.le_trans longer (ih _)

theorem held_eq {n : Nat} (h : valueFrom n ds < Nat.pow 2 64) :
    held n ds = (valueFrom n ds, false) := by
  induction ds generalizing n with
  | nil => rfl
  | cons d ds ih =>
    have next : n * 10 + (d.toNat - 0x30) < Nat.pow 2 64 :=
      Nat.lt_of_le_of_lt (le_valueFrom _ ds) h
    exact (if_pos next).trans (ih h)

/-- A run of digits that denotes more than 64 bits hold is found out on the way. -/
theorem held_over {n : Nat} (small : n < Nat.pow 2 64) (h : ¬valueFrom n ds < Nat.pow 2 64) :
    (held n ds).2 = true := by
  induction ds generalizing n with
  | nil => exact absurd small h
  | cons d ds ih =>
    by_cases next : n * 10 + (d.toNat - 0x30) < Nat.pow 2 64
    · exact (congrArg Prod.snd (if_pos next)).trans (ih next h)
    · exact congrArg Prod.snd (if_neg next)

theorem tooBig_iff : s.tooBig = true ↔ ¬valueOf s.whole < Nat.pow 2 64 := by
  constructor
  · intro big fits
    rw [tooBig, held_eq fits] at big
    exact Bool.noConfusion big
  · exact held_over (by decide)

/-! ### What the scanner finds -/

/-- The bytes a numeral was read off. -/
def span (s : Numeral) (b : Bytes) : Bytes := (b.take s.stop).drop s.start

theorem Written.readBody_append (h : Written minus body t) (u : Bytes) :
    ∃ body' v, readBody (sign (t ++ u)).2 = some (body', v) ∧ v <:+ u := by
  obtain ⟨t', ht', read⟩ := h.sign_append
  rw [read]
  exact ht'.readBody_append u

/-- Where a numeral is found, no other one goes further. -/
structure Cut (b : Bytes) (s : Numeral) (t rest : Bytes) : Prop where
  front : b.dropWhile isSpace = t ++ rest
  written : Written s.minus s.body t
  longest : ∀ t' u, t' ++ u = t ++ rest → t' ∈ numeral → rest <:+ u
  start : s.start = (b.takeWhile isSpace).length
  stop : s.stop = (b.takeWhile isSpace ++ t).length
  trailing : s.trailing = true ↔ rest.dropWhile isSpace ≠ []

theorem cut_of_scan (h : scan b = some s) : ∃ t rest, Cut b s t rest := by
  obtain ⟨⟨body, rest⟩, (read : readBody (sign (b.dropWhile isSpace)).2 = _), rfl⟩ :=
    Option.map_eq_some_iff.mp h
  obtain ⟨sg, hsg, signed⟩ := signs_sign (b.dropWhile isSpace)
  obtain ⟨t, ht, same⟩ := spells_of_readBody read
  have front : b.dropWhile isSpace = sg ++ t ++ rest := by rw [signed, same, List.append_assoc]
  have whole : b.takeWhile isSpace ++ (sg ++ t ++ rest) = b := by
    rw [← front, List.takeWhile_append_dropWhile]
  have lengths := congrArg List.length whole
  simp only [List.length_append] at lengths
  refine ⟨sg ++ t, rest, front, ⟨sg, t, hsg, ht, rfl⟩, fun t' u other numeral => ?_, ?_, ?_, ?_⟩
  · obtain ⟨minus', body', written⟩ := mem_numeral.mp numeral
    obtain ⟨body'', v, read', hv⟩ := written.readBody_append u
    rw [other, ← front, read] at read'
    cases read'
    exact hv
  · rw [front]
    simp only [List.length_append]
    omega
  · simp only [List.length_append]
    omega
  · exact decide_eq_true_iff

theorem scan_eq_none_iff :
    scan b = none ↔ ∀ t, t <+: b.dropWhile isSpace → t ∉ numeral := by
  constructor
  · rintro none t ⟨u, same⟩ numeral
    obtain ⟨minus, body, written⟩ := mem_numeral.mp numeral
    obtain ⟨body', v, read, -⟩ := written.readBody_append u
    rw [same] at read
    have found : scan b = _ := congrArg (Option.map _) read
    rw [none] at found
    cases found
  · intro no
    cases found : scan b with
    | none => rfl
    | some s =>
      obtain ⟨t, rest, cut⟩ := cut_of_scan found
      exact absurd (mem_numeral.mpr ⟨_, _, cut.written⟩) (no t ⟨rest, cut.front.symm⟩)

theorem Cut.whole (h : Cut b s t rest) : b.takeWhile isSpace ++ (t ++ rest) = b := by
  rw [← h.front, List.takeWhile_append_dropWhile]

theorem Cut.drop_start (h : Cut b s t rest) : b.drop s.start = t ++ rest := by
  have cut := @List.drop_left _ (b.takeWhile isSpace) (t ++ rest)
  rwa [h.whole, ← h.start] at cut

theorem Cut.drop_stop (h : Cut b s t rest) : b.drop s.stop = rest := by
  have cut := @List.drop_left _ (b.takeWhile isSpace ++ t) rest
  rwa [List.append_assoc, h.whole, ← h.stop] at cut

theorem Cut.span (h : Cut b s t rest) : s.span b = t := by
  have cut := @List.take_left _ (b.takeWhile isSpace ++ t) rest
  rw [List.append_assoc, h.whole, ← h.stop] at cut
  rw [Numeral.span, cut, h.start, List.drop_left]

/-- What the scanner finds at the front of `b`.  The bytes of the numeral are `s.span b`. -/
structure Found (b : Bytes) (s : Numeral) : Prop where
  /-- The numeral begins after the white space in front. -/
  start : s.start = (b.takeWhile isSpace).length
  stop : s.stop = s.start + (s.span b).length
  numeral : s.span b ∈ numeral
  /-- No numeral there is longer. -/
  longest : ∀ t, t <+: b.drop s.start → t ∈ Grammar.numeral → t <+: s.span b
  trailing : s.trailing = true ↔ ∃ c ∈ b.drop s.stop, isSpace c = false
  notInteger : s.notInteger = true ↔
    0x2E ∈ s.span b ∨ s.span b ∈ Grammar.sign * (decimal * Grammar.exponent)
  negative : s.negative = true ↔
    (s.span b).head? = some 0x2D ∧ s.span b ∉ Grammar.sign * word "nan"
  /-- Of a numeral with digits and no exponent, `ds` is the integer part. -/
  integer : ∀ sg ∈ Grammar.sign, ∀ ds ∈ digit∗, ∀ f ∈ 1 + point * digit∗, s.span b = sg ++ ds ++ f →
    (s.integerFits = !s.tooBig) ∧
      (s.integerFits = true ↔ valueOf ds < Nat.pow 2 64) ∧
      (s.integerFits = true → s.value = valueOf ds)

theorem hasExponent_iff (h : Written s.minus s.body t) :
    s.hasExponent = true ↔ t ∈ Grammar.sign * (decimal * Grammar.exponent) := by
  rw [mem_sign_mul fun _ => mem_raised]
  constructor
  · intro raised
    unfold hasExponent at raised
    split at raised
    · next w frac ex same => exact ⟨_, _, ⟨w, frac, ex, same⟩, h⟩
    · cases raised
  · rintro ⟨minus', _, ⟨w, frac, ex, rfl⟩, h'⟩
    rw [hasExponent, (h.unique h').2]

theorem isNaN_iff (h : Written s.minus s.body t) :
    s.isNaN = true ↔ t ∈ Grammar.sign * word "nan" := by
  rw [mem_sign_mul fun _ => mem_nan]
  constructor
  · intro nan
    unfold isNaN at nan
    split at nan
    · next same => exact ⟨_, _, same, h⟩
    · cases nan
  · rintro ⟨minus', _, rfl, h'⟩
    rw [isNaN, (h.unique h').2]

theorem Signs.not_point {sg : Bytes} (h : Signs minus sg) : 0x2E ∉ sg := by
  cases h <;> decide

theorem not_point_of_digits (h : ∀ d ∈ ds, isDigit d = true) : 0x2E ∉ ds :=
  fun point => Bool.noConfusion (h _ point)

theorem Raises.not_point {x : Bytes} (h : Raises ex x) : 0x2E ∉ x := by
  cases h with
  | none => exact List.not_mem_nil
  | some he hsg _ digits =>
    rw [List.mem_cons, List.mem_append]
    rintro (rfl | point | point)
    · exact absurd he (by decide)
    · exact hsg.not_point point
    · exact not_point_of_digits digits point

theorem not_point_of_word {word : String} (h : t ∈ Grammar.word word)
    (letters : 0x2E ∉ Text.encode word) : 0x2E ∉ t := by
  intro point
  rw [← show t.map lower = Text.encode word from h] at letters
  exact letters (List.mem_map.mpr ⟨_, point, rfl⟩)

theorem Written.point_mem_iff (h : Written minus body t) :
    0x2E ∈ t ↔ ∃ w f ex, body = .digits w (some f) ex := by
  obtain ⟨sg, t', hsg, ht', rfl⟩ := h
  rw [List.mem_append, or_iff_right hsg.not_point]
  cases ht' with
  | infinity h =>
    refine iff_of_false ?_ (by simp)
    exact h.elim (not_point_of_word · (by decide)) (not_point_of_word · (by decide))
  | nan h => exact iff_of_false (not_point_of_word h (by decide)) (by simp)
  | @digits w x frac ex hw hf _ hx =>
    rw [List.mem_append, or_iff_right (not_point_of_digits hw), List.mem_append,
      or_iff_left hx.not_point]
    cases frac with
    | none => exact iff_of_false List.not_mem_nil (by simp)
    | some f => exact iff_of_true List.mem_cons_self ⟨w, f, ex, rfl⟩

theorem notInteger_iff (h : Written s.minus s.body t) : s.notInteger = true ↔
    0x2E ∈ t ∨ t ∈ Grammar.sign * (decimal * Grammar.exponent) := by
  rw [h.point_mem_iff, ← hasExponent_iff h, notInteger, hasExponent]
  cases s.body with
  | infinity => simp
  | nan => simp
  | digits w frac ex => cases frac <;> cases ex <;> simp

theorem Written.minus_iff (h : Written minus body t) : minus = true ↔ t.head? = some 0x2D := by
  obtain ⟨sg, t', hsg, ht', rfl⟩ := h
  obtain ⟨c, t', rfl, above⟩ := ht'.head
  cases hsg with
  | none =>
    refine iff_of_false Bool.noConfusion fun head => ?_
    cases head
    exact absurd above (by decide)
  | plus =>
    exact iff_of_false Bool.noConfusion fun head => absurd (Option.some.inj head) (by decide)
  | minus => exact iff_of_true rfl rfl

theorem Written.read (h : Written minus body t) : readBody (sign t).2 = some (body, []) := by
  obtain ⟨t', ht', read⟩ := h.sign_append
  have alone := read []
  rw [List.append_nil, List.append_nil] at alone
  rw [alone]
  exact ht'.readBody_eq

/-- Of a numeral with digits and no exponent, the integer part is what stands before the point. -/
theorem Written.body_eq {sg : Bytes} (h : Written minus body t) (hsg : sg ∈ Grammar.sign)
    (hds : ds ∈ digit∗) (hf : f ∈ 1 + point * digit∗) (same : t = sg ++ ds ++ f) :
    ∃ frac, body = .digits ds frac none := by
  subst same
  obtain ⟨minus', signs⟩ := mem_sign_iff.mp hsg
  obtain ⟨frac, digits, rfl⟩ :
      ∃ frac, (∀ d ∈ frac.getD [], isDigit d = true) ∧ f = pointed frac := by
    rcases hf with hf | hf
    · exact ⟨none, by simp, (Language.mem_one f).mp hf⟩
    · obtain ⟨after, hafter, rfl⟩ := mem_point_mul.mp hf
      exact ⟨some after, mem_star_one.mp hafter, rfl⟩
  by_cases any : ds ≠ [] ∨ frac.getD [] ≠ []
  · have spelt := Spells.digits (mem_star_one.mp hds) digits any .none
    rw [List.append_nil] at spelt
    exact ⟨frac, (h.unique ⟨sg, _, signs, spelt, List.append_assoc ..⟩).2⟩
  · -- A sign and a point do not make a numeral.
    obtain ⟨rfl, bare⟩ : ds = [] ∧ frac.getD [] = [] := by simpa using any
    have read := h.read
    cases frac with
    | none => cases signs <;> cases read
    | some f =>
      cases (show f = [] from bare)
      cases signs <;> cases read

theorem foldr_eq_zero {bits : List Bool} :
    bits.foldr (fun b n => b.toNat + 2 * n) 0 = 0 ↔ ∀ b ∈ bits, b = false := by
  induction bits with
  | nil => simp
  | cons b bits ih =>
    rw [List.foldr_cons, Nat.add_eq_zero_iff, List.forall_mem_cons, ← ih]
    cases b with
    | true => simp
    | false =>
      refine and_congr (iff_of_true rfl rfl) ?_
      omega

/-- A numeral is found to be something. -/
theorem findings_ne_zero (s : Numeral) : s.findings ≠ 0 := by
  intro zero
  have all := foldr_eq_zero.mp zero
  have fits := all s.integerFits (by simp)
  have big := all s.tooBig (by simp)
  have other := all s.notInteger (by simp)
  have infinite := all s.isInfinity (by simp)
  have nan := all s.isNaN (by simp)
  have raised : s.hasExponent = true := by simpa [integerFits, infinite, nan, big] using fits
  rw [hasExponent] at raised
  rw [notInteger] at other
  split at raised
  · next same => simp [same] at other
  · cases raised

/-- With an integer part of `ds` and no exponent, the numeral fits exactly when `ds` does. -/
theorem integer_eq {ds : Bytes} (h : s.body = .digits ds frac none) :
    (s.integerFits = !s.tooBig) ∧ (s.integerFits = true ↔ valueOf ds < Nat.pow 2 64) ∧
      (s.integerFits = true → s.value = valueOf ds) := by
  have fits : s.integerFits = !s.tooBig := by
    simp [integerFits, isInfinity, isNaN, hasExponent, h]
  have whole : s.whole = ds := by rw [Numeral.whole, h]
  have small : s.integerFits = true ↔ valueOf ds < Nat.pow 2 64 := by
    rw [fits, Bool.not_eq_true', ← Bool.not_eq_true, tooBig_iff, not_not, whole]
  refine ⟨fits, small, fun ok => ?_⟩
  rw [value, whole]
  exact congrArg Prod.fst (held_eq (small.mp ok))

theorem found_of_scan (h : scan b = some s) : Found b s := by
  obtain ⟨t, rest, cut⟩ := cut_of_scan h
  have span := cut.span
  have written := cut.written
  rw [← span] at written
  exact {
    start := cut.start
    stop := by rw [cut.stop, span, cut.start, List.length_append]
    numeral := mem_numeral.mpr ⟨_, _, written⟩
    longest := by
      rintro t' ⟨u, same⟩ numeral
      rw [cut.drop_start] at same
      obtain ⟨v, rfl⟩ := cut.longest t' u same numeral
      rw [← List.append_assoc] at same
      rw [span, ← List.append_cancel_right same]
      exact List.prefix_append t' v
    trailing := by
      rw [cut.trailing, cut.drop_stop, Ne, List.dropWhile_eq_nil_iff]
      simp
    notInteger := notInteger_iff written
    negative := by
      rw [negative, Bool.and_eq_true, written.minus_iff, Bool.not_eq_true', ← Bool.not_eq_true,
        isNaN_iff written]
    integer := fun sg hsg ds hds f hf same => by
      obtain ⟨frac, body⟩ := written.body_eq hsg hds hf same
      exact integer_eq body }

theorem Written.dropWhile_append (h : Written minus body t) {sp : Bytes}
    (blank : ∀ c ∈ sp, isSpace c = true) (u : Bytes) :
    (sp ++ t ++ u).dropWhile isSpace = t ++ u := by
  obtain ⟨c, t', rfl, other⟩ := h.head
  rw [List.append_assoc, List.dropWhile_append_of_pos blank]
  exact List.dropWhile_cons_of_neg (by simp [other])

/-- A numeral with white space around it is scanned to its end. -/
theorem exists_scan (h : b ∈ space∗ * numeral * space∗) :
    ∃ s, scan b = some s ∧ s.trailing = false := by
  obtain ⟨_, ⟨sp, before, t, numeral, rfl⟩, sp', behind, rfl⟩ := h
  obtain ⟨minus, body, written⟩ := mem_numeral.mp numeral
  have front := written.dropWhile_append (mem_star_one.mp before) sp'
  cases found : scan (sp ++ t ++ sp') with
  | none => exact absurd numeral (scan_eq_none_iff.mp found t ⟨sp', front.symm⟩)
  | some s =>
    obtain ⟨t', rest, cut⟩ := cut_of_scan found
    have within := cut.longest t sp' (front.symm.trans cut.front) numeral
    have clean : ¬s.trailing = true := by
      rw [cut.trailing, not_not, List.dropWhile_eq_nil_iff]
      exact fun c hc => mem_star_one.mp behind c (within.subset hc)
    exact ⟨s, rfl, by simpa using clean⟩

theorem looksLikeNumber_iff :
    looksLikeNumber b = true ↔ b = zeroButTrue ∨ b ∈ space∗ * numeral * space∗ := by
  rw [looksLikeNumber, Bool.or_eq_true, decide_eq_true_iff]
  refine or_congr_right ?_
  constructor
  · intro all
    cases found : scan b with
    | none => simp [found] at all
    | some s =>
      obtain ⟨t, rest, cut⟩ := cut_of_scan found
      have blank : rest.dropWhile isSpace = [] := by
        have clean : ¬s.trailing = true := by simpa [found] using all
        rwa [cut.trailing, not_not] at clean
      rw [← cut.whole, ← List.append_assoc]
      refine Language.append_mem_mul (Language.append_mem_mul ?_ ?_) ?_
      · exact mem_star_one.mpr fun c hc => List.mem_takeWhile_imp hc
      · exact mem_numeral.mpr ⟨_, _, cut.written⟩
      · exact mem_star_one.mpr (List.dropWhile_eq_nil_iff.mp blank)
  · intro numeric
    obtain ⟨s, found, clean⟩ := exists_scan numeric
    simp [found, clean]

/-- The byte strings that are numeric are the numerals with white space around them and one text
with words in it.  Where no numeral stands behind the white space in front the scanner finds
nothing, and otherwise it finds the longest one. -/
theorem scan_grammar (b : Bytes) :
    (looksLikeNumber b = true ↔ b = zeroButTrue ∨ b ∈ space∗ * numeral * space∗) ∧
    (((scan b).map findings).getD 0 = 0 ↔ ∀ t, t <+: b.dropWhile isSpace → t ∉ numeral) ∧
    match scan b with
    | none => ∀ t, t <+: b.dropWhile isSpace → t ∉ numeral
    | some s => Found b s := by
  refine ⟨looksLikeNumber_iff, ?_, ?_⟩
  · rw [← scan_eq_none_iff]
    cases scan b with
    | none => simp
    | some s => simpa using findings_ne_zero s
  · split
    · next none => exact scan_eq_none_iff.mp none
    · next found => exact found_of_scan found

/-- An exponent without digits is not read, and what was taken for it follows the numeral. -/
example : (scan (Text.encode " -.5e+")).map (fun s => (s.start, s.stop, s.trailing)) =
    some (1, 4, true) := by decide

end Numeral
end ScriptCore
