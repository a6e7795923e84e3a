import Mathlib.Computability.Language
import Mathlib.Data.List.TakeWhile
import ScriptCore.Number.Numeral

/-!
# Number — the grammar of numerals

The grammar is a regular language over bytes: an optional sign, then digits with an optional
fraction and exponent, or a word in any case.

A part of a numeral and its text are related by `Spells`, and the readers of the model are compared
with that relation.  A reader is sound (`spells_of_readBody`): what it takes off is a spelling of
what it reports.  It is greedy (`Spells.readBody_append`): it takes off all of a spelling, whatever
comes after, and may go on from there.  The readers that come first leave alone what belongs to a
later one, because a fraction starts with a point and an exponent with a letter.

* `spells_of_readBody`, `Spells.readBody_append`: the two sides of the comparison.
* `Spells.readBody_eq`: a spelling is read as what it spells, so it spells one thing only.
-/

namespace ScriptCore

open Computability

/-! ### The grammar -/

namespace Grammar

/-- One byte of those that `p` picks. -/
def one (p : UInt8 → Bool) : Language UInt8 := {t | ∃ c, p c = true ∧ t = [c]}

/-- A word, its letters in any case. -/
def word (w : String) : Language UInt8 := {t | t.map Numeral.lower = Text.encode w}

/-- White space. -/
def space : Language UInt8 := one Numeral.isSpace

/-- A decimal digit. -/
def digit : Language UInt8 := one Numeral.isDigit

/-- A point. -/
def point : Language UInt8 := {Text.encode "."}

/-- A sign or none. -/
def sign : Language UInt8 := 1 + {Text.encode "+"} + {Text.encode "-"}

/-- Digits with a point among them, in front of them or after them, or without one. -/
def decimal : Language UInt8 := digit * digit∗ * (1 + point * digit∗) + point * (digit * digit∗)

/-- The power of ten after a decimal. -/
def exponent : Language UInt8 := word "e" * sign * (digit * digit∗)

/-- Numerals, white space apart. -/
def numeral : Language UInt8 :=
  sign * (decimal * (1 + exponent) + word "inf" + word "infinity" + word "nan")

end Grammar

open Grammar

namespace Numeral
variable {r t u ds : Bytes} {frac : Option Bytes} {ex : Option Exponent} {body : Body}
variable {p : UInt8 → Bool} {c : UInt8} {minus : Bool}

/-! ### Words of the grammar -/

theorem mem_star_one : t ∈ (one p)∗ ↔ ∀ c ∈ t, p c = true := by
  rw [Language.mem_kstar]
  constructor
  · rintro ⟨parts, rfl, each⟩ c hc
    obtain ⟨y, hy, hcy⟩ := List.mem_flatten.mp hc
    obtain ⟨d, hd, rfl⟩ := each y hy
    rwa [List.mem_singleton.mp hcy]
  · intro all
    refine ⟨t.map ([·]), by rw [← List.flatMap_def, List.flatMap_singleton'], fun y hy => ?_⟩
    obtain ⟨c, hc, rfl⟩ := List.mem_map.mp hy
    exact ⟨c, all c hc, rfl⟩

theorem mem_one_mul_star : t ∈ one p * (one p)∗ ↔ t ≠ [] ∧ ∀ c ∈ t, p c = true := by
  rw [Language.mem_mul]
  constructor
  · rintro ⟨_, ⟨c, hc, rfl⟩, v, hv, rfl⟩
    exact ⟨by simp, List.forall_mem_cons.mpr ⟨hc, mem_star_one.mp hv⟩⟩
  · rintro ⟨some, all⟩
    cases t with
    | nil => exact absurd rfl some
    | cons c t =>
      obtain ⟨hc, ht⟩ := List.forall_mem_cons.mp all
      exact ⟨[c], ⟨c, hc, rfl⟩, t, mem_star_one.mpr ht, rfl⟩


/-! ### Parts and their spellings -/

/-- The spelling of a sign. -/
inductive Signs : Bool → Bytes → Prop
  | none : Signs false []
  | plus : Signs false [0x2B]
  | minus : Signs true [0x2D]

/-- The bytes of a fraction, its point in front. -/
def pointed : Option Bytes → Bytes
  | none => []
  | some f => 0x2E :: f

/-- The spelling of an exponent that may be missing. -/
inductive Raises : Option Exponent → Bytes → Prop
  | none : Raises none []
  | some {e : UInt8} {negative : Bool} {sg ds : Bytes} : lower e = 0x65 → Signs negative sg →
      ds ≠ [] → (∀ d ∈ ds, isDigit d = true) → Raises (some ⟨negative, ds⟩) (e :: (sg ++ ds))

/-- The spelling of what stands after the sign.  There are digits before the point or after it. -/
inductive Spells : Body → Bytes → Prop
  | infinity {t : Bytes} : t ∈ word "inf" + word "infinity" → Spells .infinity t
  | nan {t : Bytes} : t ∈ word "nan" → Spells .nan t
  | digits {w x : Bytes} {frac : Option Bytes} {ex : Option Exponent} :
      (∀ d ∈ w, isDigit d = true) → (∀ d ∈ frac.getD [], isDigit d = true) →
      w ≠ [] ∨ frac.getD [] ≠ [] → Raises ex x →
      Spells (.digits w frac ex) (w ++ (pointed frac ++ x))

theorem mem_sign_iff : t ∈ Grammar.sign ↔ ∃ minus, Signs minus t := by
  constructor
  · rintro ((h | h) | h)
    · cases (Language.mem_one t).mp h
      exact ⟨_, .none⟩
    · cases Set.mem_singleton_iff.mp h
      exact ⟨_, .plus⟩
    · cases Set.mem_singleton_iff.mp h
      exact ⟨_, .minus⟩
  · rintro ⟨_, _ | _ | _⟩
    · exact .inl (.inl ((Language.mem_one []).mpr rfl))
    · exact .inl (.inr rfl)
    · exact .inr rfl

theorem mem_point_mul {l : Language UInt8} : t ∈ point * l ↔ ∃ f ∈ l, t = 0x2E :: f := by
  rw [Language.mem_mul]
  constructor
  · rintro ⟨a, ha, f, hf, rfl⟩
    cases Set.mem_singleton_iff.mp ha
    exact ⟨f, hf, rfl⟩
  · rintro ⟨f, hf, rfl⟩
    exact ⟨_, rfl, f, hf, rfl⟩

theorem mem_word_e : t ∈ word "e" ↔ ∃ e, lower e = 0x65 ∧ t = [e] := by
  constructor
  · intro h
    obtain ⟨e, rfl, he⟩ := List.map_eq_singleton_iff.mp (show t.map lower = [0x65] from h)
    exact ⟨e, he, rfl⟩
  · rintro ⟨e, he, rfl⟩
    show [lower e] = [0x65]
    rw [he]

theorem mem_exponent_iff : t ∈ Grammar.exponent ↔ ∃ ex, Raises (some ex) t := by
  constructor
  · intro h
    obtain ⟨_, ⟨_, letter, sg, hsg, rfl⟩, ds, hds, rfl⟩ := Language.mem_mul.mp h
    obtain ⟨e, he, rfl⟩ := mem_word_e.mp letter
    obtain ⟨negative, signs⟩ := mem_sign_iff.mp hsg
    obtain ⟨some, digits⟩ := mem_one_mul_star.mp hds
    exact ⟨_, .some he signs some digits⟩
  · rintro ⟨_, h⟩
    cases h with
    | some he hsg some digits =>
      refine Language.mem_mul.mpr ⟨_, ⟨_, mem_word_e.mpr ⟨_, he, rfl⟩, _, ?_, rfl⟩, _,
        mem_one_mul_star.mpr ⟨some, digits⟩, rfl⟩
      exact mem_sign_iff.mpr ⟨_, hsg⟩

theorem mem_decimal_iff : t ∈ decimal ↔ ∃ w frac, (∀ d ∈ w, isDigit d = true) ∧
    (∀ d ∈ frac.getD [], isDigit d = true) ∧ (w ≠ [] ∨ frac.getD [] ≠ []) ∧
    t = w ++ pointed frac := by
  constructor
  · rintro (h | h)
    · obtain ⟨w, hw, f, hf, rfl⟩ := Language.mem_mul.mp h
      obtain ⟨some, digits⟩ := mem_one_mul_star.mp hw
      rcases hf with hf | hf
      · cases (Language.mem_one f).mp hf
        exact ⟨w, none, digits, by simp, .inl some, rfl⟩
      · obtain ⟨ds, hds, rfl⟩ := mem_point_mul.mp hf
        exact ⟨w, .some ds, digits, mem_star_one.mp hds, .inl some, rfl⟩
    · obtain ⟨f, hf, rfl⟩ := mem_point_mul.mp h
      obtain ⟨some, digits⟩ := mem_one_mul_star.mp hf
      exact ⟨[], .some f, by simp, digits, .inr some, rfl⟩
  · rintro ⟨w, frac, hw, hf, some, rfl⟩
    by_cases empty : w = []
    · subst empty
      cases frac with
      | none => simp at some
      | some f =>
        refine .inr (mem_point_mul.mpr ⟨f, mem_one_mul_star.mpr ⟨?_, hf⟩, rfl⟩)
        simpa using some
    · refine .inl (Language.mem_mul.mpr ⟨w, mem_one_mul_star.mpr ⟨empty, hw⟩, _, ?_, rfl⟩)
      cases frac with
      | none => exact .inl rfl
      | some f => exact .inr (mem_point_mul.mpr ⟨f, mem_star_one.mpr hf, rfl⟩)

/-! ### The sign -/

theorem signs_sign (r : Bytes) : ∃ sg, Signs (sign r).1 sg ∧ r = sg ++ (sign r).2 := by
  unfold sign
  split
  · exact ⟨_, .minus, rfl⟩
  · exact ⟨_, .plus, rfl⟩
  · exact ⟨_, .none, rfl⟩

/-- A sign is read as itself where no other sign follows. -/
theorem Signs.sign_append {sg : Bytes} (h : Signs minus sg) (above : 0x2E ≤ c) :
    sign (sg ++ c :: u) = (minus, c :: u) := by
  cases h with
  | none =>
    show sign (c :: u) = _
    unfold sign
    split
    · next same => cases same; exact absurd above (by decide)
    · next same => cases same; exact absurd above (by decide)
    · rfl
  | plus => rfl
  | minus => rfl

/-! ### Letters -/

theorem le_of_le_lower (h : 0x61 ≤ lower c) : 0x41 ≤ c := by
  unfold lower at h
  split at h
  · next upper => exact upper.1
  · exact UInt8.le_trans (by decide) h

theorem isDigit_of_letter (h : 0x41 ≤ c) : isDigit c = false := by
  unfold isDigit
  simp only [Bool.and_eq_false_iff, decide_eq_false_iff_not]
  right
  intro small
  exact absurd (UInt8.le_trans h small) (by decide)

theorem le_of_isDigit (h : isDigit c = true) : 0x2E ≤ c := by
  unfold isDigit at h
  simp only [Bool.and_eq_true, decide_eq_true_iff] at h
  exact UInt8.le_trans (by decide) h.1

theorem isSpace_of_le (h : 0x2E ≤ c) : isSpace c = false := by
  unfold isSpace
  simp only [Bool.or_eq_false_iff, Bool.and_eq_false_iff, decide_eq_false_iff_not]
  constructor
  · rintro rfl
    exact absurd h (by decide)
  · right
    intro small
    exact absurd (UInt8.le_trans h small) (by decide)

/-! ### The exponent -/

theorem Raises.letter {x : Bytes} (h : Raises ex (c :: x)) : 0x41 ≤ c := by
  cases h with
  | some he _ _ _ => exact le_of_le_lower (by rw [he]; decide)

theorem drop_takeWhile (p : UInt8 → Bool) (r : Bytes) :
    r.drop (r.takeWhile p).length = r.dropWhile p := by
  have split := @List.drop_left _ (r.takeWhile p) (r.dropWhile p)
  rwa [List.takeWhile_append_dropWhile] at split

theorem exponent_cons {e : UInt8} (he : lower e = 0x65)
    (digits : (sign r).2.takeWhile isDigit ≠ []) :
    exponent (e :: r) =
      (some ⟨(sign r).1, (sign r).2.takeWhile isDigit⟩, (sign r).2.dropWhile isDigit) := by
  unfold exponent
  simp only [he, if_true, digits, if_false, drop_takeWhile]

theorem raises_exponent (r : Bytes) : ∃ x, Raises (exponent r).1 x ∧ r = x ++ (exponent r).2 := by
  cases r with
  | nil => exact ⟨[], .none, rfl⟩
  | cons e r =>
    by_cases read : lower e = 0x65 ∧ (sign r).2.takeWhile isDigit ≠ []
    · obtain ⟨he, some⟩ := read
      obtain ⟨sg, hsg, same⟩ := signs_sign r
      rw [exponent_cons he some]
      refine ⟨_, .some he hsg some fun d hd => List.mem_takeWhile_imp hd, ?_⟩
      rw [List.cons_append, List.append_assoc, List.takeWhile_append_dropWhile, ← same]
    · refine ⟨[], ?_⟩
      have none : exponent (e :: r) = (none, e :: r) := by
        unfold exponent
        simp only
        split
        · next he => rw [if_pos (not_not.mp fun some => read ⟨he, some⟩)]
        · rfl
      rw [none]
      exact ⟨.none, rfl⟩

theorem exponent_suffix (r : Bytes) : (exponent r).2 <:+ r := by
  obtain ⟨x, _, same⟩ := raises_exponent r
  exact ⟨x, same.symm⟩

/-- An exponent goes on as long as digits follow it. -/
theorem exponent_raised {e : UInt8} {negative : Bool} {sg : Bytes} (he : lower e = 0x65)
    (hsg : Signs negative sg) (some : ds ≠ []) (digits : ∀ d ∈ ds, isDigit d = true) (u : Bytes) :
    exponent (e :: (sg ++ ds) ++ u) =
      (Option.some ⟨negative, ds ++ u.takeWhile isDigit⟩, u.dropWhile isDigit) := by
  obtain ⟨d, ds', rfl⟩ := List.exists_cons_of_ne_nil some
  have signed : sign (sg ++ (d :: ds') ++ u) = (negative, d :: ds' ++ u) := by
    rw [List.append_assoc]
    exact hsg.sign_append (le_of_isDigit (digits d List.mem_cons_self))
  have more : (d :: ds' ++ u).takeWhile isDigit = d :: ds' ++ u.takeWhile isDigit :=
    List.takeWhile_append_of_pos digits
  rw [List.cons_append, exponent_cons he (by rw [signed, more]; exact List.cons_ne_nil _ _), signed,
    more, List.dropWhile_append_of_pos digits]

/-- An exponent is taken off whole. -/
theorem Raises.exponent_append {x : Bytes} (h : Raises ex x) (u : Bytes) :
    (exponent (x ++ u)).2 <:+ u := by
  cases h with
  | none => exact exponent_suffix u
  | some he hsg some digits =>
    rw [exponent_raised he hsg some digits]
    exact List.dropWhile_suffix _

theorem Raises.exponent_eq {x : Bytes} (h : Raises ex x) : exponent x = (ex, []) := by
  cases h with
  | none => rfl
  | some he hsg some digits =>
    rw [← List.append_nil (_ :: _), exponent_raised he hsg some digits, List.takeWhile_nil,
      List.append_nil, List.dropWhile_nil]

/-! ### Digits and the fraction -/

/-- Digits end where an exponent begins. -/
theorem Raises.dropDigits {x : Bytes} (h : Raises ex x) (u : Bytes) :
    ∃ v, v <:+ u ∧ (x ++ u).dropWhile isDigit = x ++ v := by
  cases x with
  | nil => exact ⟨_, List.dropWhile_suffix _, rfl⟩
  | cons c x =>
    refine ⟨u, List.suffix_rfl, ?_⟩
    rw [List.cons_append, List.dropWhile_cons_of_neg (by simp [isDigit_of_letter h.letter])]

/-- Digits end where a fraction begins. -/
theorem Raises.dropDigits_pointed {x : Bytes} (h : Raises ex x) (frac : Option Bytes) (u : Bytes) :
    ∃ v, v <:+ u ∧ (pointed frac ++ (x ++ u)).dropWhile isDigit = pointed frac ++ (x ++ v) := by
  cases frac with
  | none => exact h.dropDigits u
  | some f => exact ⟨u, List.suffix_rfl, List.dropWhile_cons_of_neg (by decide)⟩

theorem fraction_of_ne (h : c ≠ 0x2E) : fraction (c :: r) = (none, c :: r) := by
  unfold fraction
  split
  · next same => exact absurd (List.head_eq_of_cons_eq same) h
  · rfl

theorem fraction_eq (r : Bytes) :
    r = pointed (fraction r).1 ++ (fraction r).2 ∧
      ∀ d ∈ (fraction r).1.getD [], isDigit d = true := by
  unfold fraction
  split
  · next r =>
    refine ⟨?_, fun d hd => List.mem_takeWhile_imp hd⟩
    rw [pointed, List.cons_append, List.takeWhile_append_dropWhile]
  · exact ⟨rfl, by simp⟩

/-- A fraction is taken off whole. -/
theorem Raises.fraction_append {x : Bytes} (h : Raises ex x)
    (digits : ∀ d ∈ frac.getD [], isDigit d = true) (u : Bytes) :
    ∃ v, v <:+ u ∧ (fraction (pointed frac ++ (x ++ u))).2 = x ++ v := by
  cases frac with
  | some f =>
    obtain ⟨v, hv, same⟩ := h.dropDigits u
    refine ⟨v, hv, ?_⟩
    show (f ++ (x ++ u)).dropWhile isDigit = _
    rw [List.dropWhile_append_of_pos (show ∀ d ∈ f, isDigit d = true from digits), same]
  | none =>
    cases x with
    | nil => exact ⟨_, ⟨_, (fraction_eq u).1.symm⟩, rfl⟩
    | cons c x =>
      have other : c ≠ 0x2E := by
        rintro rfl
        exact absurd h.letter (by decide)
      refine ⟨u, List.suffix_rfl, ?_⟩
      show (fraction (c :: (x ++ u))).2 = _
      rw [fraction_of_ne other]
      rfl

theorem pointed_injective {g : Option Bytes} (h : pointed frac = pointed g) : frac = g := by
  cases frac <;> cases g <;> simp_all [pointed]

theorem Raises.fraction_pointed {x : Bytes} (h : Raises ex x)
    (digits : ∀ d ∈ frac.getD [], isDigit d = true) : fraction (pointed frac ++ x) = (frac, x) := by
  obtain ⟨v, hv, rest⟩ := h.fraction_append digits []
  rw [List.append_nil, List.suffix_nil.mp hv, List.append_nil] at rest
  obtain ⟨same, -⟩ := fraction_eq (pointed frac ++ x)
  rw [rest] at same
  exact Prod.ext (pointed_injective (List.append_cancel_right same)).symm rest

/-! ### Words -/

theorem length_of_word {word : String} (h : t ∈ Grammar.word word) :
    t.length = (Text.encode word).length := by
  rw [← show t.map lower = Text.encode word from h, List.length_map]

theorem dropWord_append {word : String} (h : t ∈ Grammar.word word) (u : Bytes) :
    dropWord word (t ++ u) = some u := by
  rw [dropWord, ← length_of_word h]
  simp only [List.take_left, List.drop_left]
  exact if_pos h

theorem word_of_dropWord {word : String} (h : dropWord word r = some t) :
    ∃ x ∈ Grammar.word word, r = x ++ t := by
  unfold dropWord at h
  simp only at h
  split at h
  · next same =>
    cases h
    exact ⟨_, same, (List.take_append_drop _ r).symm⟩
  · cases h

theorem letter_of_word {word : String} {ws : Bytes} {l : UInt8} (h : t ∈ Grammar.word word)
    (spelt : Text.encode word = l :: ws) : ∃ d t', t = d :: t' ∧ lower d = l := by
  obtain ⟨d, t', rfl, hd, _⟩ := List.map_eq_cons_iff.mp (h.trans spelt)
  exact ⟨d, t', rfl, hd⟩

theorem dropWord_of_ne {word : String} {ws : Bytes} {l : UInt8} (spelt : Text.encode word = l :: ws)
    (other : lower c ≠ l) : dropWord word (c :: r) = none := by
  refine Option.eq_none_iff_forall_ne_some.mpr fun v found => ?_
  obtain ⟨x, hx, same⟩ := word_of_dropWord found
  obtain ⟨d, x', rfl, hd⟩ := letter_of_word hx spelt
  cases same
  exact other hd

/-! ### What stands after the sign -/

theorem readBody_digits (h : r.takeWhile isDigit ≠ [] ∨
    (fraction (r.dropWhile isDigit)).1.getD [] ≠ []) :
    readBody r = some (.digits (r.takeWhile isDigit) (fraction (r.dropWhile isDigit)).1
        (exponent (fraction (r.dropWhile isDigit)).2).1,
      (exponent (fraction (r.dropWhile isDigit)).2).2) := by
  unfold readBody
  exact if_pos h

theorem readBody_words (h : ¬(r.takeWhile isDigit ≠ [] ∨
    (fraction (r.dropWhile isDigit)).1.getD [] ≠ [])) :
    readBody r =
      match dropWord "infinity" r, dropWord "inf" r, dropWord "nan" r with
      | some r', _, _ => some (.infinity, r')
      | _, some r', _ => some (.infinity, r')
      | _, _, some r' => some (.nan, r')
      | none, none, none => none := by
  unfold readBody
  exact if_neg h

/-- What is taken off is a spelling of what is reported. -/
theorem spells_of_readBody (h : readBody r = some (body, u)) : ∃ t, Spells body t ∧ r = t ++ u := by
  by_cases digits : r.takeWhile isDigit ≠ [] ∨ (fraction (r.dropWhile isDigit)).1.getD [] ≠ []
  · rw [readBody_digits digits] at h
    cases h
    obtain ⟨x, hx, rest⟩ := raises_exponent (fraction (r.dropWhile isDigit)).2
    obtain ⟨same, all⟩ := fraction_eq (r.dropWhile isDigit)
    refine ⟨_, .digits (fun d hd => List.mem_takeWhile_imp hd) all digits hx, ?_⟩
    rw [List.append_assoc, List.append_assoc, ← rest, ← same, List.takeWhile_append_dropWhile]
  · rw [readBody_words digits] at h
    split at h
    · next found =>
      cases h
      obtain ⟨t, ht, same⟩ := word_of_dropWord found
      exact ⟨t, .infinity (.inr ht), same⟩
    · next found _ =>
      cases h
      obtain ⟨t, ht, same⟩ := word_of_dropWord found
      exact ⟨t, .infinity (.inl ht), same⟩
    · next found _ _ =>
      cases h
      obtain ⟨t, ht, same⟩ := word_of_dropWord found
      exact ⟨t, .nan ht, same⟩
    · cases h

/-- What comes after a letter is read as a word. -/
theorem words_of_letter (h : 0x41 ≤ c) : ¬((c :: r).takeWhile isDigit ≠ [] ∨
    (fraction ((c :: r).dropWhile isDigit)).1.getD [] ≠ []) := by
  have other : ¬isDigit c = true := by simp [isDigit_of_letter h]
  have point : c ≠ 0x2E := by
    rintro rfl
    exact absurd h (by decide)
  rw [List.takeWhile_cons_of_neg other, List.dropWhile_cons_of_neg other, fraction_of_ne point]
  simp

theorem readBody_letter (h : 0x61 ≤ lower c) :
    readBody (c :: r) =
      match dropWord "infinity" (c :: r), dropWord "inf" (c :: r), dropWord "nan" (c :: r) with
      | some r', _, _ => some (.infinity, r')
      | _, some r', _ => some (.infinity, r')
      | _, _, some r' => some (.nan, r')
      | none, none, none => none :=
  readBody_words (words_of_letter (le_of_le_lower h))

/-- The longer word may be there where the shorter one is; it ends further back. -/
theorem readBody_infinity (h : t ∈ word "inf" + word "infinity") (u : Bytes) :
    ∃ v, readBody (t ++ u) = some (.infinity, v) ∧ v <:+ u := by
  rcases h with h | h
  · obtain ⟨i, t', rfl, hi⟩ := letter_of_word h (l := 0x69) rfl
    rw [List.cons_append, readBody_letter (by rw [hi]; decide), ← List.cons_append,
      dropWord_append h]
    cases long : dropWord "infinity" (i :: t' ++ u) with
    | none => exact ⟨u, rfl, List.suffix_rfl⟩
    | some v =>
      obtain ⟨x, hx, same⟩ := word_of_dropWord long
      have lengths := congrArg List.length same
      rw [List.length_append, List.length_append, length_of_word h, length_of_word hx,
        show (Text.encode "inf").length = 3 from rfl,
        show (Text.encode "infinity").length = 8 from rfl] at lengths
      have shorter : v.length ≤ u.length := by omega
      exact ⟨v, rfl, List.suffix_of_suffix_length_le ⟨x, same.symm⟩ ⟨_, rfl⟩ shorter⟩
  · obtain ⟨i, t', rfl, hi⟩ := letter_of_word h (l := 0x69) rfl
    refine ⟨u, ?_, List.suffix_rfl⟩
    rw [List.cons_append, readBody_letter (by rw [hi]; decide), ← List.cons_append,
      dropWord_append h]

theorem readBody_nan (h : t ∈ word "nan") (u : Bytes) : readBody (t ++ u) = some (.nan, u) := by
  obtain ⟨n, t', rfl, hn⟩ := letter_of_word h (l := 0x6E) rfl
  rw [List.cons_append, readBody_letter (by rw [hn]; decide),
    dropWord_of_ne (l := 0x69) rfl (by rw [hn]; decide),
    dropWord_of_ne (l := 0x69) rfl (by rw [hn]; decide), ← List.cons_append, dropWord_append h]

/-- A spelling is taken off whole, whatever comes after it. -/
theorem Spells.readBody_append (h : Spells body t) (u : Bytes) :
    ∃ body' v, readBody (t ++ u) = some (body', v) ∧ v <:+ u := by
  cases h with
  | @digits w x frac ex hw hf digits hx =>
    obtain ⟨v, hv, after⟩ := hx.dropDigits_pointed frac u
    obtain ⟨v', hv', rest⟩ := hx.fraction_append hf v
    have whole : (w ++ (pointed frac ++ x) ++ u).dropWhile isDigit = pointed frac ++ (x ++ v) := by
      rw [List.append_assoc, List.append_assoc, List.dropWhile_append_of_pos hw, after]
    refine ⟨_, _, readBody_digits ?_, ?_⟩
    · rw [whole]
      refine digits.imp (fun before => ?_) fun behind => ?_
      · rw [List.append_assoc, List.takeWhile_append_of_pos hw]
        exact fun none => before (List.append_eq_nil_iff.mp none).1
      · cases frac with
        | none => exact absurd rfl behind
        | some f =>
          show (f ++ (x ++ v)).takeWhile isDigit ≠ []
          rw [List.takeWhile_append_of_pos (show ∀ d ∈ f, isDigit d = true from hf)]
          exact fun none => behind (List.append_eq_nil_iff.mp none).1
    · rw [whole, rest]
      exact (hx.exponent_append v').trans (hv'.trans hv)
  | infinity h => exact ⟨_, readBody_infinity h u⟩
  | nan h => exact ⟨_, _, readBody_nan h u, List.suffix_rfl⟩

/-- A spelling that nothing follows is read as what it spells. -/
theorem Spells.readBody_eq (h : Spells body t) : readBody t = some (body, []) := by
  cases h with
  | @digits w x frac ex hw hf digits hx =>
    obtain ⟨v, hv, after⟩ := hx.dropDigits_pointed frac []
    rw [List.append_nil, List.suffix_nil.mp hv, List.append_nil] at after
    have behind : (w ++ (pointed frac ++ x)).dropWhile isDigit = pointed frac ++ x := by
      rw [List.dropWhile_append_of_pos hw, after]
    have before : (w ++ (pointed frac ++ x)).takeWhile isDigit = w := by
      have split := @List.takeWhile_append_dropWhile _ isDigit (w ++ (pointed frac ++ x))
      rw [behind] at split
      exact List.append_cancel_right split
    have second := hx.fraction_pointed hf
    rw [readBody_digits (by rwa [before, behind, second]), before, behind, second, hx.exponent_eq]
  | infinity h =>
    obtain ⟨v, read, none⟩ := readBody_infinity h []
    rwa [List.append_nil, List.suffix_nil.mp none] at read
  | nan h =>
    have read := readBody_nan h []
    rwa [List.append_nil] at read

/-- Nothing that can be spelled starts with a sign or white space. -/
theorem Spells.head (h : Spells body t) : ∃ c t', t = c :: t' ∧ 0x2E ≤ c := by
  have letter {word : String} {ws : Bytes} {l : UInt8} (h : t ∈ Grammar.word word)
      (spelt : Text.encode word = l :: ws) (small : 0x61 ≤ l) : ∃ c t', t = c :: t' ∧ 0x2E ≤ c := by
    obtain ⟨d, t', rfl, hd⟩ := letter_of_word h spelt
    exact ⟨d, t', rfl, UInt8.le_trans (by decide) (le_of_le_lower (by rwa [hd]))⟩
  cases h with
  | @digits w x frac ex hw hf digits hx =>
    cases w with
    | cons d w => exact ⟨d, _, rfl, le_of_isDigit (hw d List.mem_cons_self)⟩
    | nil =>
      cases frac with
      | none => simp at digits
      | some f => exact ⟨0x2E, _, rfl, by decide⟩
  | infinity h => exact h.elim (letter · rfl (by decide)) (letter · rfl (by decide))
  | nan h => exact letter h rfl (by decide)

end Numeral
end ScriptCore
