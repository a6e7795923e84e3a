import ScriptCore.Proofs.Heap.Writes
import ScriptCore.Proofs.Key.Spelling
import ScriptCore.Proofs.Number.Written

/-!
# Heap — reading a float

A float that is an integer is kept as that integer too once it was read as one, and later reads
prefer the integer.  They show the same for every float but two kinds: negative zero, which is no
integer, and the integers from `10 ^ 15` on, whose text differs from that of the integer.

* `Cell.Carries`: what some reads have left on a cell that was a float.
* `Read.Strays`: the reads that show something else than they would on the float itself.
* `float_reads`: no other read does, and those do.
-/

namespace ScriptCore

namespace Binary64
variable {f : Binary64}

/-- The text of an integral datum is not that of the integer. -/
def Uneven (f : Binary64) : Prop := f = .zero true ∨ f.isInt64 = true ∧ 10 ^ 15 ≤ f.whole

theorem toInt64_of_isZero (zero : f.isZero = true) : f.toInt64 = 0 := by
  rw [eq_zero_of_isZero zero]
  cases f.isNegative <;> decide +kernel

/-- The integer of an integral datum has its sign and its digits. -/
theorem intText_toInt64 (h : f.isInt64 = true) (nonzero : f.isZero = false) :
    Heap.intText f.toInt64 = f.signed (decimalDigits f.whole) := by
  obtain ⟨-, integral, -, -⟩ := isInt64_iff.mp h
  have positive := whole_pos integral nonzero
  have value := toInt_toInt64 h
  rw [truncate_eq] at value
  have below : f.toInt64 < 0 ↔ f.isNegative = true := by
    rw [Int64.lt_iff_toInt_lt, Int64.toInt_zero, value]
    cases f.isNegative <;> simp [positive]
  simp only [Heap.intText, below, value, signed]
  cases f.isNegative <;> simp

theorem e_notMem_signed (f : Binary64) (n : Nat) : 'e' ∉ f.signed (decimalDigits n) := by
  have digits : 'e' ∉ decimalDigits n := fun there => absurd (isDigit_of_mem there) (by decide)
  rw [signed]
  split
  · simp [digits]
  · exact digits

theorem isInt64_zero (negative : Bool) : (zero negative).isInt64 = true := by
  cases negative <;> decide +kernel

/-- **The text of the integer** is that of the datum, but for negative zero and from `10 ^ 15`
on. -/
theorem intText_eq_format_iff (h : f.isInt64 = true) :
    Heap.intText f.toInt64 = f.format ↔ ¬ f.Uneven := by
  by_cases zero : f.isZero = true
  · have small : f.whole = 0 := by rw [eq_zero_of_isZero zero, whole_zero]
    rw [toInt64_of_isZero zero, eq_zero_of_isZero zero, format_zero]
    cases f.isNegative with
    | true =>
      exact ⟨fun same => absurd same (by decide +kernel), fun even => absurd (.inl rfl) even⟩
    | false =>
      refine ⟨fun _ => ?_, fun _ => by decide +kernel⟩
      rintro (negative | ⟨-, large⟩)
      · exact absurd negative (by decide +kernel)
      · rw [whole_zero] at large
        omega
  · rw [Bool.not_eq_true] at zero
    have apart : f ≠ .zero true := by
      rintro rfl
      exact absurd zero (by decide +kernel)
    rw [intText_toInt64 h zero]
    by_cases small : f.whole < 10 ^ 15
    · have even : ¬ f.Uneven := by
        rintro (negative | ⟨-, large⟩)
        · exact apart negative
        · omega
      exact ⟨fun _ => even, fun _ => (format_integral h zero small).symm⟩
    · have uneven : f.Uneven := .inr ⟨h, Nat.le_of_not_lt small⟩
      refine ⟨fun same => ?_, fun even => absurd uneven even⟩
      exact absurd (same ▸ e_mem_format h (Nat.le_of_not_lt small)) (e_notMem_signed f _)

end Binary64

/-- A cell that was set to a float and not read since. -/
structure Cell.IsFloat (c : Cell) (f : Binary64) : Prop where
  numOk : c.flags.numOk = true
  num : c.num = f
  intOk : c.flags.intOk = false
  textOk : c.flags.textOk = false
  refOk : c.flags.refOk = false
  utf8 : c.flags.utf8 = false

namespace Heap.Read

/-- A read as an integer. -/
def isInt : Read → Bool
  | int _ => true
  | _ => false

/-- A read as bytes or as text. -/
def isText : Read → Bool
  | bytes _ | text _ => true
  | _ => false

/-- Among some reads, one as an integer comes before all those as text. -/
def intFirst (rs : List Read) : Bool := (rs.find? fun r => r.isInt || r.isText).any isInt

/-- What a float shows that was not read before. -/
def ofFloat (f : Binary64) : Read → Sight
  | int _ => .int f.toInt64
  | float _ => .float f
  | bytes _ => .bytes (Text.encode (String.ofList f.format))
  | text _ => .text (Text.decode (Text.encode (String.ofList f.format)) false)
  | truth => .truth !f.isZero
  | numeric => .truth true
  | defined => .truth true
  | referent => .referent none

/-- The reads of a float that other reads before them lead astray. -/
def Strays (f : Binary64) (before : List Read) : Read → Prop
  | float _ => f = .zero true ∧ before.any isInt = true
  | bytes _ | text _ => f.Uneven ∧ intFirst before = true
  | truth => f = .zero true ∧ before.any isText = true ∧ intFirst before = false
  | _ => False

end Heap.Read

open Heap (Read Sight)

/-- The text that is kept beside a float, be it its own or that of its integer. -/
def Binary64.textForm (f : Binary64) (integer : Bool) : Bytes :=
  Text.encode (String.ofList (if integer then Heap.intText f.toInt64 else f.format))

/-- What some reads have left of a cell that was a float. -/
structure Cell.Carries (c : Cell) (f : Binary64) (before : List Read) : Prop where
  numOk : c.flags.numOk = true
  refOk : c.flags.refOk = false
  utf8 : c.flags.utf8 = false
  intOk : c.flags.intOk = (f.isInt64 && before.any Read.isInt)
  int : c.flags.intOk = true → c.int = f.toInt64
  num : c.flags.intOk = false → c.num = f
  textOk : c.flags.textOk = before.any Read.isText
  text : c.flags.textOk = true → c.text = f.textForm (f.isInt64 && Read.intFirst before)

section
variable {c : Cell} {f : Binary64} {before : List Read} {alive : CellId → Bool}

/-! ### Reads so far -/

namespace Heap.Read

theorem intFirst_cons (r : Read) (rs : List Read) :
    intFirst (r :: rs) = (r.isInt || !r.isText && intFirst rs) := by
  cases r <;> rfl

theorem intFirst_of_no_text (none : before.any isText = false) :
    intFirst before = before.any isInt := by
  induction before with
  | nil => rfl
  | cons r before ih =>
    obtain ⟨text, none⟩ := Bool.or_eq_false_iff.mp none
    rw [intFirst_cons, text, ih none]
    rfl

/-- Only the first read that keeps an integer or a text decides which comes first. -/
theorem intFirst_concat (r : Read) : intFirst (before ++ [r]) =
    if before.any isInt || before.any isText then intFirst before else r.isInt := by
  induction before with
  | nil => cases r <;> rfl
  | cons a before ih =>
    rw [List.cons_append, intFirst_cons, intFirst_cons, ih]
    cases int : a.isInt <;> cases text : a.isText <;> simp [int, text]

end Heap.Read

namespace Cell

theorem IsFloat.carries (h : c.IsFloat f) : c.Carries f [] where
  numOk := h.numOk
  refOk := h.refOk
  utf8 := h.utf8
  intOk := by rw [h.intOk, List.any_nil, Bool.and_false]
  int ok := absurd ok (by simp [h.intOk])
  num _ := h.num
  textOk := h.textOk
  text ok := absurd ok (by simp [h.textOk])

theorem isFloat_ofFloat (f : Binary64) : (Cell.ofFloat f).IsFloat f :=
  ⟨rfl, rfl, rfl, rfl, rfl, rfl⟩

/-! ### What reads leave -/

theorem Carries.source (k : c.Carries f before) (alive : CellId → Bool) :
    c.source alive = if c.flags.intOk then .int f.toInt64 else .float f := by
  rw [Cell.source]
  cases ok : c.flags.intOk with
  | true => rw [if_pos rfl, if_pos rfl, k.int ok]
  | false =>
    rw [if_neg Bool.false_ne_true, if_neg Bool.false_ne_true, if_pos k.numOk, k.num ok]

theorem Carries.bytesRead (k : c.Carries f before) (alive : CellId → Bool) (name : Option String) :
    c.bytesRead alive name = f.textForm (f.isInt64 && Read.intFirst before) := by
  rw [Cell.bytesRead]
  cases ok : c.flags.textOk with
  | true => rw [if_pos rfl, k.text ok]
  | false =>
    have first := Read.intFirst_of_no_text (k.textOk ▸ ok)
    rw [if_neg Bool.false_ne_true, k.source, k.intOk, first, Binary64.textForm]
    split <;> simp_all [Source.asBytes]

/-- A read that keeps nothing. -/
theorem Carries.unchanged (k : c.Carries f before) (r : Read)
    (int : r.isInt = true → c.flags.intOk = f.isInt64)
    (text : r.isText = true → c.flags.textOk = true) : c.Carries f (before ++ [r]) where
  numOk := k.numOk
  refOk := k.refOk
  utf8 := k.utf8
  intOk := by
    rw [List.any_append, List.any_cons, List.any_nil, Bool.or_false]
    cases hr : r.isInt with
    | true => rw [int hr, Bool.or_true, Bool.and_true]
    | false => rw [Bool.or_false, k.intOk]
  int := k.int
  num := k.num
  textOk := by
    rw [List.any_append, List.any_cons, List.any_nil, Bool.or_false]
    cases hr : r.isText with
    | true => rw [text hr, Bool.or_true]
    | false => rw [Bool.or_false, k.textOk]
  text ok := by
    rw [k.text ok, Read.intFirst_concat, ← k.textOk, ok, Bool.or_true, if_pos rfl]

/-- A read that is neither one as an integer nor one as text. -/
theorem Carries.unread (k : c.Carries f before) (r : Read) (int : r.isInt = false)
    (text : r.isText = false) : c.Carries f (before ++ [r]) :=
  k.unchanged r (fun read => absurd (int.symm.trans read) Bool.false_ne_true)
    fun read => absurd (text.symm.trans read) Bool.false_ne_true

/-- A read as an integer that keeps it. -/
theorem Carries.keepInt (k : c.Carries f before) (whole : f.isInt64 = true) (sink : Heap.Sink)
    (room : Room) :
    ((c.roomier room).keepInt f.toInt64 true).Carries f (before ++ [.int sink]) where
  numOk := k.numOk
  refOk := k.refOk
  utf8 := k.utf8
  intOk := by simp [Cell.keepInt, whole, Read.isInt]
  int _ := rfl
  num ok := by simp [Cell.keepInt] at ok
  textOk := k.textOk.trans (by simp [Read.isText])
  text ok := by
    have kept : c.flags.textOk = true := ok
    rw [Read.intFirst_concat, ← k.textOk, kept, Bool.or_true, if_pos rfl]
    exact k.text kept

/-- A read as a float that keeps the float of an integer. -/
theorem Carries.keepFloat (k : c.Carries f before) (ok : c.flags.intOk = true) (sink : Heap.Sink)
    (v : Binary64) (room : Room) :
    ((c.roomier room).keepFloat v true).Carries f (before ++ [.float sink]) :=
  have more := k.unread (.float sink) rfl rfl
  { numOk := Bool.or_true _
    refOk := k.refOk
    utf8 := k.utf8
    intOk := more.intOk
    int := more.int
    num := fun no => absurd (ok.symm.trans no) (by decide)
    textOk := more.textOk
    text := more.text }

/-- A read as text that keeps the text. -/
theorem Carries.written (k : c.Carries f before) (none : c.flags.textOk = false) (r : Read)
    (text : r.isText = true) (int : r.isInt = false) :
    (c.written (f.textForm c.flags.intOk)).Carries f (before ++ [r]) where
  numOk := k.numOk
  refOk := k.refOk
  utf8 := k.utf8
  intOk := k.intOk.trans (by simp [int])
  int := k.int
  num := k.num
  textOk := by simp [Cell.written, text]
  text _ := by
    have first : Read.intFirst (before ++ [r]) = before.any Read.isInt := by
      rw [Read.intFirst_concat, ← k.textOk, none, Bool.or_false, int,
        Read.intFirst_of_no_text (k.textOk ▸ none)]
      cases before.any Read.isInt <;> rfl
    show f.textForm c.flags.intOk = _
    rw [first, k.intOk]

theorem Carries.afterBytes (k : c.Carries f before) (r : Read) (text : r.isText = true)
    (int : r.isInt = false) (alive : CellId → Bool) :
    (c.afterBytes alive).Carries f (before ++ [r]) := by
  rw [Cell.afterBytes, k.source]
  cases none : c.flags.textOk with
  | true => exact k.unchanged r (by simp [int]) fun _ => none
  | false =>
    have written := k.written none r text int
    cases ok : c.flags.intOk <;> rw [ok] at written <;> exact written

/-- **Reading a float** leaves on the cell what the reads so far come to. -/
theorem Carries.leaves (k : c.Carries f before) (r : Read) (alive : CellId → Bool) :
    (r.leaves alive c).Carries f (before ++ [r]) := by
  cases r with
  | int sink =>
    show (c.afterInt alive).Carries f _
    rw [afterInt, k.source]
    cases ok : c.flags.intOk with
    | true =>
      have whole : f.isInt64 = true := (Bool.and_eq_true_iff.mp (k.intOk.symm.trans ok)).1
      exact k.unchanged _ (fun _ => ok.trans whole.symm)
        fun text => absurd text Bool.false_ne_true
    | false =>
      simp only [Bool.false_eq_true, if_false]
      split
      · rename_i whole
        exact k.keepInt whole sink _
      · rename_i fraction
        exact k.unchanged _ (fun _ => by simp [ok, fraction])
          fun text => absurd text Bool.false_ne_true
  | float sink =>
    show (c.afterFloat alive).Carries f _
    rw [afterFloat, k.source]
    cases ok : c.flags.intOk with
    | true => exact k.keepFloat ok sink _ _
    | false => exact k.unread _ rfl rfl
  | bytes sink => exact k.afterBytes (.bytes sink) rfl rfl alive
  | text sink => exact k.afterBytes (.text sink) rfl rfl alive
  | truth | numeric | defined | referent => exact k.unread _ rfl rfl

end Cell

/-! ### What reads show -/

theorem Text.encode_ofList_inj {cs ds : List Char} :
    Text.encode (String.ofList cs) = Text.encode (String.ofList ds) ↔ cs = ds :=
  ⟨fun h => String.ofList_injective (Text.encode_injective h), fun h => by rw [h]⟩

/-- Whether a text counts as true. -/
theorem Text.counts_iff (cs : List Char) :
    (!(Text.encode (String.ofList cs) = [] || Text.encode (String.ofList cs) = [0x30])) = true ↔
      cs ≠ [] ∧ cs ≠ ['0'] := by
  have empty : Text.encode (String.ofList cs) = [] ↔ cs = [] := by
    rw [← Text.encode_ofList_inj]
    rfl
  have zero : Text.encode (String.ofList cs) = [0x30] ↔ cs = ['0'] := by
    rw [← Text.encode_ofList_inj]
    rfl
  simp [empty, zero]

namespace Binary64

theorem Uneven.isInt64 (h : f.Uneven) : f.isInt64 = true := by
  rcases h with rfl | ⟨whole, -⟩
  · exact isInt64_zero true
  · exact whole

theorem textForm_eq_iff (whole : f.isInt64 = true) :
    f.textForm true = f.textForm false ↔ ¬ f.Uneven := by
  rw [← intText_eq_format_iff whole, textForm, textForm, Text.encode_ofList_inj]
  rfl

theorem toInt64_eq_zero_iff (whole : f.isInt64 = true) : f.toInt64 = 0 ↔ f.isZero = true := by
  refine ⟨fun none => ?_, toInt64_of_isZero⟩
  by_contra nonzero
  have positive := whole_pos (isInt64_iff.mp whole).2.1 (by simpa using nonzero)
  have value := toInt_toInt64 whole
  rw [none, Int64.toInt_zero, truncate_eq] at value
  split at value <;> omega

/-- The text of a float counts as false for the positive zero alone. -/
theorem format_counts_iff : (f.format ≠ [] ∧ f.format ≠ ['0']) ↔ f ≠ .zero false := by
  by_cases zero : f.isZero = true
  · rw [eq_zero_of_isZero zero, format_zero]
    cases f.isNegative <;> decide +kernel
  · have nonzero : f ≠ .zero false := by
      rintro rfl
      exact zero (by decide +kernel)
    exact iff_of_true (format_ne (by simpa using zero)) nonzero

/-- The text of an integer counts as false for zero alone. -/
theorem intText_counts_iff (whole : f.isInt64 = true) :
    (Heap.intText f.toInt64 ≠ [] ∧ Heap.intText f.toInt64 ≠ ['0']) ↔ f.isZero = false := by
  by_cases zero : f.isZero = true
  · rw [toInt64_of_isZero zero, zero]
    decide +kernel
  · rw [Bool.not_eq_true] at zero
    refine iff_of_true ?_ zero
    rw [intText_toInt64 whole zero, signed]
    have head := head?_decimalDigits (whole_pos (isInt64_iff.mp whole).2.1 zero)
    split
    · simp
    · refine ⟨decimalDigits_ne_nil _, fun single => head ?_⟩
      rw [single, List.head?_cons]

/-- The text of the integer tells whether a float is zero. -/
theorem counts_intText (whole : f.isInt64 = true) :
    (!(f.textForm true = [] || f.textForm true = [0x30])) = !f.isZero := by
  rw [Bool.eq_iff_iff, Bool.not_eq_true' f.isZero, ← intText_counts_iff whole]
  exact Text.counts_iff _

/-- Its own text does not for negative zero. -/
theorem counts_format_iff :
    (!(f.textForm false = [] || f.textForm false = [0x30])) = (!f.isZero) ↔ f ≠ .zero true := by
  have counts : (!(f.textForm false = [] || f.textForm false = [0x30])) = true ↔ f ≠ .zero false :=
    (Text.counts_iff _).trans format_counts_iff
  rw [Bool.eq_iff_iff, counts]
  by_cases zero : f.isZero = true
  · obtain ⟨negative, rfl⟩ : ∃ negative, f = .zero negative := ⟨_, eq_zero_of_isZero zero⟩
    cases negative <;> decide +kernel
  · have apart (negative : Bool) : f ≠ .zero negative := by
      rintro rfl
      exact zero (by cases negative <;> decide +kernel)
    simp [apart, zero]

end Binary64

namespace Cell

theorem Carries.isInt64 (k : c.Carries f before) (ok : c.flags.intOk = true) :
    f.isInt64 = true :=
  (Bool.and_eq_true_iff.mp (k.intOk.symm.trans ok)).1

/-- **As a float** only the sign of negative zero is lost, once an integer is kept. -/
theorem Carries.asFloat_eq_iff (k : c.Carries f before) (alive : CellId → Bool) :
    (c.source alive).asFloat = f ↔ ¬ (f = .zero true ∧ before.any Read.isInt = true) := by
  rw [k.source]
  cases ok : c.flags.intOk with
  | true =>
    have whole := k.isInt64 ok
    have asked : before.any Read.isInt = true := (Bool.and_eq_true_iff.mp (k.intOk.symm.trans ok)).2
    rw [asked]
    by_cases negative : f = .zero true
    · subst negative
      exact iff_of_false (by decide +kernel) (by simp)
    · exact iff_of_true (Binary64.ofInt_toInt64 whole negative) (by simp [negative])
  | false =>
    refine iff_of_true rfl ?_
    rintro ⟨rfl, asked⟩
    rw [k.intOk, asked, Binary64.isInt64_zero] at ok
    cases ok

/-- **As text** only a float that is uneven shows the text of its integer. -/
theorem Carries.bytesRead_eq_iff (k : c.Carries f before) (alive : CellId → Bool)
    (name : Option String) : c.bytesRead alive name = f.textForm false ↔
      ¬ (f.Uneven ∧ Read.intFirst before = true) := by
  rw [k.bytesRead]
  cases kept : f.isInt64 && Read.intFirst before with
  | true =>
    obtain ⟨whole, first⟩ := Bool.and_eq_true_iff.mp kept
    rw [f.textForm_eq_iff whole, first]
    simp
  | false =>
    refine iff_of_true rfl ?_
    rintro ⟨uneven, first⟩
    rw [uneven.isInt64, first] at kept
    cases kept

/-- **As a truth value** only negative zero turns true, by its text. -/
theorem Carries.truth_eq_iff (k : c.Carries f before) (scalar : c.shape.isAggregate = false)
    (alive : CellId → Bool) : c.truth alive = !f.isZero ↔
      ¬ (f = .zero true ∧ before.any Read.isText = true ∧ Read.intFirst before = false) := by
  rw [Cell.truth, if_neg (by simp [scalar]), ← k.textOk]
  cases text : c.flags.textOk with
  | true =>
    rw [if_pos rfl, k.text text]
    cases kept : f.isInt64 && Read.intFirst before with
    | true =>
      obtain ⟨whole, first⟩ := Bool.and_eq_true_iff.mp kept
      exact iff_of_true (Binary64.counts_intText whole) (by simp [first])
    | false =>
      rw [Binary64.counts_format_iff]
      refine not_congr ⟨fun negative => ⟨negative, rfl, ?_⟩, And.left⟩
      rwa [negative, Binary64.isInt64_zero, Bool.true_and] at kept
  | false =>
    refine iff_of_true ?_ (by simp)
    rw [if_neg Bool.false_ne_true]
    cases ok : c.flags.intOk with
    | true =>
      have zero := Binary64.toInt64_eq_zero_iff (k.isInt64 ok)
      rw [if_pos rfl, k.int ok, Bool.eq_iff_iff, Bool.not_eq_true' f.isZero, decide_eq_true_eq,
        Ne, zero, Bool.not_eq_true]
    | false => rw [if_neg Bool.false_ne_true, if_pos k.numOk, k.num ok]

/-- **One read of a float** shows what it would on the float itself, unless it is led astray, and
reports nothing. -/
theorem Carries.shows (k : c.Carries f before) (scalar : c.shape.isAggregate = false) (r : Read)
    (alive : CellId → Bool) (name : Option String) : r.advice alive c = [] ∧
      (r.answer alive name c = r.ofFloat f ↔ ¬ r.Strays f before) := by
  have silent : (c.source alive).numberAdvice = [] ∧ (c.source alive).textAdvice = [] := by
    rw [k.source]
    split <;> exact ⟨rfl, rfl⟩
  have decoded : Text.decode (c.bytesRead alive name) c.flags.utf8 =
      Text.decode (f.textForm false) false ↔ c.bytesRead alive name = f.textForm false := by
    rw [k.utf8]
    refine ⟨fun same => ?_, fun same => by rw [same]⟩
    have chars := String.ofList_injective same
    have bytes := congrArg Text.latin1? chars
    rw [Text.latin1?_map, Text.latin1?_map] at bytes
    exact Option.some.inj bytes
  cases r with
  | int sink =>
    refine ⟨by rw [Read.advice, silent.1, Heap.passes_nil], iff_of_true ?_ id⟩
    rw [Read.answer, k.source]
    split <;> rfl
  | float sink =>
    refine ⟨by rw [Read.advice, silent.1, Heap.passes_nil], ?_⟩
    rw [Read.answer, Read.ofFloat, Sight.float.injEq]
    exact k.asFloat_eq_iff alive
  | bytes sink =>
    refine ⟨by rw [Read.advice, silent.2, Heap.passes_nil, ite_self], ?_⟩
    rw [Read.answer, Read.ofFloat, Sight.bytes.injEq]
    exact k.bytesRead_eq_iff alive name
  | text sink =>
    refine ⟨by rw [Read.advice, silent.2, Heap.passes_nil, ite_self], ?_⟩
    rw [Read.answer, Read.ofFloat, Sight.text.injEq]
    exact decoded.trans (k.bytesRead_eq_iff alive name)
  | truth =>
    refine ⟨rfl, ?_⟩
    rw [Read.answer, Read.ofFloat, Sight.truth.injEq]
    exact k.truth_eq_iff scalar alive
  | numeric =>
    refine ⟨rfl, iff_of_true ?_ id⟩
    rw [Read.answer, Cell.looksNumeric, k.numOk, Bool.or_true, if_pos rfl, Read.ofFloat]
  | defined =>
    refine ⟨rfl, iff_of_true ?_ id⟩
    simp [Read.answer, Cell.isDefined, Flags.holdsValue, k.numOk, k.refOk, Read.ofFloat]
  | referent =>
    refine ⟨rfl, iff_of_true ?_ id⟩
    rw [Read.answer, Cell.referent, k.refOk, Read.ofFloat]
    rfl

/-- **Reads of a float**, one after the other. -/
theorem Carries.look (k : c.Carries f before) (q : c.Quiet) (alive : CellId → Bool)
    (name : Option String) {rs : List Read} {n : Nat} {r : Read} (hr : rs[n]? = some r) :
    ∃ sight, (Read.look alive name rs c)[n]? = some (sight, []) ∧
      (sight = r.ofFloat f ↔ ¬ r.Strays f (before ++ rs.take n)) := by
  -- what was read before grows from the front of the list: the cell takes up what each read leaves
  induction rs generalizing c before n with
  | nil => simp at hr
  | cons a rs ih =>
    cases n with
    | zero =>
      obtain rfl : a = r := Option.some.inj hr
      obtain ⟨silent, shows⟩ := k.shows q.scalar a alive name
      exact ⟨_, by rw [Read.look, List.getElem?_cons_zero, silent], by simpa using shows⟩
    | succ n =>
      obtain ⟨sight, there, shows⟩ := ih (k.leaves a alive) (q.leaves a alive) hr
      refine ⟨sight, there, ?_⟩
      rwa [List.append_assoc] at shows

end Cell

end

namespace Heap

/-- **Storing a float** makes a cell one that was not read since. -/
theorem setFloat_isFloat {h : Heap} {i : CellId} {c : Cell} {out : List CellId} (o : h.Owned out)
    (hi : i ∈ out) (hc : h.cell? i = some c) (q : c.Quiet) (writable : c.flags.readOnly = false)
    (f : Binary64) :
    ∃ h' d, setFloat i f h = .ok () h' ∧ h'.cell? i = some d ∧ d.Quiet ∧ d.IsFloat f := by
  obtain ⟨t, h', write, quiet, filled⟩ := write_quiet { num := true } none (·.keepFloat f true)
    o hi hc q writable (by simp) (fun _ => rfl) (fun _ => rfl)
    (fun _ bare => congrArg kept bare) (fun _ => rfl) fun _ => rfl
  obtain ⟨n, hn⟩ := filled.filled
  exact ⟨h', _, write, hn, ⟨quiet.scalar, quiet.unhooked⟩, rfl, rfl, rfl, rfl, rfl, rfl⟩

/-- **Reading a float.**  Whatever reads there are of a cell that was set to a float and that no
hook watches, in whatever order: each succeeds, reports nothing, and shows what it would show as the
first one, but for those that are led astray.  As a float, negative zero is read without its sign
after a read as an integer; as text, negative zero and the integers from `10 ^ 15` on are read like
the integer when that was read first; and negative zero turns true by its own text. -/
theorem float_reads {h : Heap} {i : CellId} {c : Cell} {f : Binary64} (hc : h.cell? i = some c)
    (q : c.Quiet) (float : c.IsFloat f) (rs : List Read) :
    ∃ seen h', rs.mapM (observe i) h = .ok seen h' ∧ ∀ n r, rs[n]? = some r →
      ∃ sight fresh h'', seen[n]? = some (sight, []) ∧ observe i r h = .ok (fresh, []) h'' ∧
        (sight = fresh ↔ ¬ r.Strays f (rs.take n)) := by
  obtain ⟨h', looks⟩ := mapM_observe hc q rs
  refine ⟨_, h', looks, fun n r hr => ?_⟩
  obtain ⟨sight, there, shows⟩ := float.carries.look q h.isAlive (h.refText? i) hr
  obtain ⟨silent, first⟩ := float.carries.shows q.scalar r h.isAlive (h.refText? i)
  have untouched : ¬ r.Strays f [] := by
    cases r <;> simp [Read.Strays, Read.intFirst]
  refine ⟨sight, r.ofFloat f, r.heap h i c, there, ?_, shows⟩
  rw [observe_eq hc q r, silent, first.mpr untouched]

/-- Negative zero, read as an integer first: its truth is that of a first read, its text is not. -/
theorem float_reads_negative_zero :
    let h : Heap := { cells := #[some (.ofFloat (.zero true))] }
    ∃ seen h', [Read.int .silent, .truth, .bytes .silent].mapM (observe 0) h = .ok seen h' ∧
      (∃ sight h'', seen[1]? = some (sight, []) ∧ observe 0 .truth h = .ok (sight, []) h'') ∧
      ∃ sight fresh h'', seen[2]? = some (sight, []) ∧
        observe 0 (.bytes .silent) h = .ok (fresh, []) h'' ∧ sight ≠ fresh := by
  intro h
  obtain ⟨seen, h', looks, shows⟩ := float_reads (h := h) (i := 0) rfl ⟨rfl, rfl⟩
    (Cell.isFloat_ofFloat (.zero true)) [.int .silent, .truth, .bytes .silent]
  refine ⟨seen, h', looks, ?_, ?_⟩
  · obtain ⟨sight, fresh, h'', there, first, same⟩ := shows 1 .truth rfl
    have steady : ¬ Read.truth.Strays (.zero true) [.int .silent] := fun strays => by
      cases strays.2.1
    exact ⟨sight, h'', there, same.mpr steady ▸ first⟩
  · obtain ⟨sight, fresh, h'', there, first, same⟩ := shows 2 (.bytes .silent) rfl
    exact ⟨sight, fresh, h'', there, first, fun e => same.mp e ⟨.inl rfl, rfl⟩⟩

/-- Bytes and float of negative zero, when it was not read before and when it was read as an
integer. -/
theorem rereads_negative_zero :
    let h : Heap := { cells := #[some (.ofFloat (.zero true))] }
    (∃ h', observe 0 (.bytes .silent) h = .ok (.bytes (Text.encode "-0"), []) h') ∧
      (∃ h', observe 0 (.float .silent) h = .ok (.float (.zero true), []) h') ∧
      ∃ h', [Read.int .silent, .bytes .silent, .float .silent].mapM (observe 0) h =
        .ok [(.int 0, []), (.bytes (Text.encode "0"), []), (.float (.zero false), [])] h' := by
  intro h
  have there : h.cell? 0 = some (.ofFloat (.zero true)) := rfl
  have q : (Cell.ofFloat (.zero true)).Quiet := ⟨rfl, rfl⟩
  refine ⟨?_, ?_, ?_⟩
  · exact ⟨_, (observe_eq there q _).trans (congrArg (EStateM.Result.ok · _) (by decide +kernel))⟩
  · exact ⟨_, (observe_eq there q _).trans (congrArg (EStateM.Result.ok · _) (by decide +kernel))⟩
  · obtain ⟨h', looks⟩ := mapM_observe there q [.int .silent, .bytes .silent, .float .silent]
    exact ⟨h', looks.trans (congrArg (EStateM.Result.ok · h') (by decide +kernel))⟩

end Heap

end ScriptCore
