import ScriptCore.Proofs.Heap.Writes
import ScriptCore.Proofs.Number.Exact

/-!
# Heap — reading a string

A string is read as a number again and again.  What is all numeric is kept with the flags of a value
and not converted twice; what is not is converted by each read, which reports it each time.

* `Cell.Spells`: the cell holds a string, and the numbers on it are those that the string gives.
* `Spells.leaves`, `Spells.tells`: one read keeps that, and shows what the string says.
* `text_reads`: any reads of a string show and report what they would if they were the first.
-/

namespace ScriptCore

/-- The same number: the same datum, or zeros of different signs. -/
def Binary64.Same (f g : Binary64) : Prop := f = g ∨ f.isZero = true ∧ g.isZero = true

/-- What a conversion of a string to a number has to report. -/
def doubts (b : Bytes) : List Advisory := if looksLikeNumber b then [] else [.notNumeric b]

/-- The cell holds a string.  Numbers on it that count are those of the string, which is numeric
then. -/
structure Cell.Spells (c : Cell) (b : Bytes) : Prop where
  textOk : c.flags.textOk = true
  text : c.text = b
  refOk : c.flags.refOk = false
  int : c.flags.intOk = true → looksLikeNumber b = true ∧ c.int = (parseNumber b).1.asInt ∧
    (Binary64.ofInt c.int.toInt).Same (parseNumber b).1.asFloat
  num : c.flags.numOk = true → looksLikeNumber b = true ∧
    (c.flags.intOk = true ∨ (parseNumber b).1 = .float c.num)

/-- What a read of a string is to show and report. -/
def Heap.Read.Tells (b : Bytes) : Heap.Read → Heap.Sight × List Advisory → Prop
  | .int sink, seen => seen = (.int (parseNumber b).1.asInt, sink.passes (doubts b))
  | .float sink, seen => ∃ f, seen = (.float f, sink.passes (doubts b)) ∧
    f.Same (parseNumber b).1.asFloat
  | .bytes _, seen => seen = (.bytes b, [])
  | .text _, seen => ∃ wide, seen = (.text (Text.decode b wide), [])
  | .truth, seen => seen = (.truth ((Cell.ofBytes b).truth fun _ => false), [])
  | .numeric, seen => seen = (.truth (Cell.ofBytes b).looksNumeric, [])
  | .defined, seen => seen = (.truth true, [])
  | .referent, seen => seen = (.referent none, [])

section
variable {c : Cell} {b : Bytes} {alive : CellId → Bool}

theorem snd_parseNumber (b : Bytes) : (parseNumber b).2 = looksLikeNumber b := by
  rw [parseNumber, looksLikeNumber]
  split
  · simp [*]
  · cases hs : Numeral.scan b <;> simp [*]

theorem numberAdvice_text (b : Bytes) : (Cell.Source.text b).numberAdvice = doubts b := by
  rw [Cell.Source.numberAdvice, snd_parseNumber, doubts]

theorem same_ofInt {f : Binary64} (h : f.isInt64 = true) :
    (Binary64.ofInt f.toInt64.toInt).Same f := by
  by_cases signed : f = .zero true
  · subst signed
    exact .inr (by decide +kernel)
  · exact .inl (Binary64.ofInt_toInt64 h signed)

namespace Cell

theorem spells_ofBytes (b : Bytes) : (Cell.ofBytes b).Spells b :=
  ⟨rfl, rfl, rfl, nofun, nofun⟩

/-- What a read finds on a string: the number it gives, or else the string. -/
theorem Spells.source_cases (s : c.Spells b) (alive : CellId → Bool) :
    c.source alive = .text b ∧ c.flags.intOk = false ∧ c.flags.numOk = false ∨
      looksLikeNumber b = true ∧
        (c.source alive = .int (parseNumber b).1.asInt ∧ c.flags.intOk = true ∨
          ∃ f, c.source alive = .float f ∧ (parseNumber b).1 = .float f) := by
  cases int : c.flags.intOk with
  | true =>
    obtain ⟨numeric, value, -⟩ := s.int int
    exact .inr ⟨numeric, .inl ⟨by rw [source, if_pos int, value], rfl⟩⟩
  | false =>
    cases num : c.flags.numOk with
    | true =>
      obtain ⟨numeric, other⟩ := s.num num
      refine .inr ⟨numeric, .inr ⟨c.num, by simp [source, int, num], ?_⟩⟩
      exact other.resolve_left (by simp [int])
    | false => exact .inl ⟨by simp [source, int, num, s.refOk, s.textOk, s.text], rfl, rfl⟩

theorem Spells.roomier (s : c.Spells b) (extra : Room) : (c.roomier extra).Spells b :=
  ⟨s.textOk, s.text, s.refOk, s.int, s.num⟩

theorem Spells.keepInt (s : c.Spells b) {v : Int64} {exact : Bool}
    (numeric : exact = true → looksLikeNumber b = true) (value : v = (parseNumber b).1.asInt)
    (same : (Binary64.ofInt v.toInt).Same (parseNumber b).1.asFloat) :
    (c.keepInt v exact).Spells b where
  textOk := s.textOk
  text := s.text
  refOk := s.refOk
  int ok := by
    refine ⟨?_, value, same⟩
    rcases Bool.or_eq_true_iff.mp ok with before | exact
    · exact (s.int before).1
    · exact numeric exact
  num ok := by
    obtain ⟨numeric, int | float⟩ := s.num ok
    · exact ⟨numeric, .inl (Bool.or_eq_true_iff.mpr (.inl int))⟩
    · exact ⟨numeric, .inr float⟩

theorem Spells.keepFloat (s : c.Spells b) {f : Binary64} {exact : Bool}
    (numeric : exact = true → looksLikeNumber b = true)
    (other : c.flags.intOk = true ∨ (parseNumber b).1 = .float f) :
    (c.keepFloat f exact).Spells b where
  textOk := s.textOk
  text := s.text
  refOk := s.refOk
  int := s.int
  num ok := by
    refine ⟨?_, other⟩
    rcases Bool.or_eq_true_iff.mp ok with before | exact
    · exact (s.num before).1
    · exact numeric exact

/-- **The number of a string** is kept as a value only if the whole string is numeric. -/
theorem Spells.numbered (s : c.Spells b) :
    (c.numbered (parseNumber b).1 (parseNumber b).2).Spells b := by
  have numeric : (parseNumber b).2 = true → looksLikeNumber b = true := by
    rw [snd_parseNumber]
    exact id
  cases hn : (parseNumber b).1 with
  | int v => exact (s.roomier _).keepInt numeric (by rw [hn]; rfl) (.inl (by rw [hn]; rfl))
  | float f =>
    have float := (s.roomier { text := true, int := true, num := true }).keepFloat numeric (.inr hn)
    rw [Cell.numbered]
    split
    · rename_i whole
      exact float.keepInt numeric (by rw [hn]; rfl) (by rw [hn]; exact same_ofInt whole)
    · exact float

/-- **Reading a string** leaves it that string. -/
theorem Spells.leaves (s : c.Spells b) (r : Heap.Read) (alive : CellId → Bool) :
    (r.leaves alive c).Spells b := by
  have found := s.source_cases alive
  cases r with
  | int sink =>
    show (c.afterInt alive).Spells b
    rw [afterInt]
    rcases found with ⟨text, -⟩ | ⟨numeric, ⟨int, -⟩ | ⟨f, float, value⟩⟩
    · rw [text]
      exact s.numbered
    · rw [int]
      exact s
    · rw [float]
      dsimp only
      split
      · rename_i whole
        exact (s.roomier _).keepInt (fun _ => numeric) (by rw [value]; rfl)
          (by rw [value]; exact same_ofInt whole)
      · exact s
  | float sink =>
    show (c.afterFloat alive).Spells b
    rw [afterFloat]
    rcases found with ⟨text, -⟩ | ⟨numeric, ⟨int, ok⟩ | ⟨f, float, -⟩⟩
    · rw [text]
      exact s.numbered
    · rw [int]
      exact (s.roomier _).keepFloat (fun _ => numeric) (.inl ok)
    · rw [float]
      exact s
  | bytes sink | text sink =>
    show (c.afterBytes alive).Spells b
    rw [afterBytes, if_pos s.textOk]
    exact s
  | _ => exact s

/-! ### What reads show and report -/

theorem Spells.asInt (s : c.Spells b) (alive : CellId → Bool) :
    (c.source alive).asInt = (parseNumber b).1.asInt := by
  rcases s.source_cases alive with ⟨text, -⟩ | ⟨-, ⟨int, -⟩ | ⟨f, float, value⟩⟩
  · rw [text, Source.asInt]
  · rw [int, Source.asInt]
  · rw [float, value, Source.asInt, Number.asInt]

theorem Spells.asFloat (s : c.Spells b) (alive : CellId → Bool) :
    (c.source alive).asFloat.Same (parseNumber b).1.asFloat := by
  rcases s.source_cases alive with ⟨text, -⟩ | ⟨-, ⟨int, ok⟩ | ⟨f, float, value⟩⟩
  · rw [text]
    exact .inl rfl
  · obtain ⟨-, same, float⟩ := s.int ok
    rw [int, Source.asFloat, ← same]
    exact float
  · rw [float, value]
    exact .inl rfl

/-- A string that is not numeric is doubted by each conversion, a numeric one by none. -/
theorem Spells.numberAdvice (s : c.Spells b) (alive : CellId → Bool) :
    (c.source alive).numberAdvice = doubts b := by
  rcases s.source_cases alive with ⟨text, -⟩ | ⟨numeric, ⟨int, -⟩ | ⟨f, float, -⟩⟩
  · rw [text, numberAdvice_text]
  · rw [int, doubts, if_pos numeric]
    rfl
  · rw [float, doubts, if_pos numeric]
    rfl

theorem Spells.truth (s : c.Spells b) (scalar : c.shape.isAggregate = false)
    (alive : CellId → Bool) : c.truth alive = (Cell.ofBytes b).truth fun _ => false := by
  simp only [Cell.truth, scalar, s.textOk, s.text, if_true, Bool.false_eq_true, if_false]
  rfl

theorem Spells.looksNumeric (s : c.Spells b) :
    c.looksNumeric = (Cell.ofBytes b).looksNumeric := by
  have fresh : (Cell.ofBytes b).looksNumeric = looksLikeNumber b := rfl
  rw [fresh, Cell.looksNumeric]
  by_cases kept : (c.flags.intOk || c.flags.numOk) = true
  · rw [if_pos kept]
    rcases Bool.or_eq_true_iff.mp kept with int | num
    · exact (s.int int).1.symm
    · exact (s.num num).1.symm
  · rw [if_neg kept, s.textOk, s.text, Bool.true_and]

theorem Spells.isDefined (s : c.Spells b) (alive : CellId → Bool) : c.isDefined alive = true := by
  simp [Cell.isDefined, Flags.holdsValue, s.refOk, s.textOk]

/-- **One read of a string.** -/
theorem Spells.tells (s : c.Spells b) (scalar : c.shape.isAggregate = false) (r : Heap.Read)
    (alive : CellId → Bool) (name : Option String) :
    r.Tells b (r.answer alive name c, r.advice alive c) := by
  have bytes : c.bytesRead alive name = b := by rw [bytesRead, if_pos s.textOk, s.text]
  cases r with
  | int sink =>
    show (_, _) = (_, _)
    rw [Heap.Read.answer, Heap.Read.advice, s.asInt, s.numberAdvice]
  | float sink =>
    refine ⟨_, ?_, s.asFloat alive⟩
    rw [Heap.Read.answer, Heap.Read.advice, s.numberAdvice]
  | bytes sink =>
    show (_, _) = (_, _)
    rw [Heap.Read.answer, Heap.Read.advice, bytes, if_pos s.textOk]
  | text sink =>
    refine ⟨c.flags.utf8, ?_⟩
    rw [Heap.Read.answer, Heap.Read.advice, bytes, if_pos s.textOk]
  | truth => exact congrArg (fun b => (Heap.Sight.truth b, [])) (s.truth scalar alive)
  | numeric => exact congrArg (fun b => (Heap.Sight.truth b, [])) s.looksNumeric
  | defined => exact congrArg (fun b => (Heap.Sight.truth b, [])) (s.isDefined alive)
  | referent =>
    show (Heap.Sight.referent (c.referent alive), []) = _
    rw [Cell.referent, s.refOk]
    rfl

/-- **Any reads of a string**, one after the other. -/
theorem Spells.look (s : c.Spells b) (q : c.Quiet) (alive : CellId → Bool) (name : Option String)
    (rs : List Heap.Read) :
    List.Forall₂ (Heap.Read.Tells b) rs (Heap.Read.look alive name rs c) := by
  induction rs generalizing c with
  | nil => exact .nil
  | cons r rs ih =>
    exact .cons (s.tells q.scalar r alive name) (ih (s.leaves r alive) (q.leaves r alive))

end Cell

end

namespace Heap

section
variable {h : Heap} {i : CellId} {c : Cell} {b : Bytes} {out : List CellId}

/-- **Storing bytes** makes a cell hold them. -/
theorem setBytes_spells (o : h.Owned out) (hi : i ∈ out) (hc : h.cell? i = some c) (q : c.Quiet)
    (writable : c.flags.readOnly = false) (b : Bytes) :
    ∃ h' d, setBytes i b h = .ok () h' ∧ h'.cell? i = some d ∧ d.Quiet ∧ d.Spells b := by
  obtain ⟨t, h', write, quiet, filled⟩ := write_quiet { text := true } none
    (fun c => { c with text := b, flags := { c.flags with textOk := true } })
    o hi hc q writable (by simp) (fun _ => rfl) (fun _ => rfl)
    (fun _ bare => congrArg kept bare) (fun _ => rfl) fun _ => rfl
  obtain ⟨n, hn⟩ := filled.filled
  exact ⟨h', _, write, hn, ⟨quiet.scalar, quiet.unhooked⟩, rfl, rfl, rfl, nofun, nofun⟩

/-- **Storing a text** makes a cell hold its bytes. -/
theorem setText_spells (o : h.Owned out) (hi : i ∈ out) (hc : h.cell? i = some c) (q : c.Quiet)
    (writable : c.flags.readOnly = false) (s : String) :
    ∃ h' d, setText i s h = .ok () h' ∧ h'.cell? i = some d ∧ d.Quiet ∧
      d.Spells (Text.encode s) := by
  obtain ⟨t, h', write, quiet, filled⟩ := write_quiet { text := true } none
    (fun c => { c with
      text := Text.encode s
      flags := { c.flags with textOk := true, utf8 := !Text.isAscii s } })
    o hi hc q writable (by simp) (fun _ => rfl) (fun _ => rfl)
    (fun _ bare => congrArg kept bare) (fun _ => rfl) fun _ => rfl
  obtain ⟨n, hn⟩ := filled.filled
  exact ⟨h', _, write, hn, ⟨quiet.scalar, quiet.unhooked⟩, rfl, rfl, rfl, nofun, nofun⟩

end

/-- **Reading a string.**  Whatever reads there are of a cell that holds a string and that no hook
watches, and in whatever order: each succeeds and shows what it would show as the first one.  Bytes
are those of the string, an integer is the number at its front, truth and numericness are those of
a new cell.  Conversions to a number report that the string is not numeric, once each, exactly if it
is not; nothing else is reported. -/
theorem text_reads {h : Heap} {i : CellId} {c : Cell} {b : Bytes} (hc : h.cell? i = some c)
    (q : c.Quiet) (s : c.Spells b) (rs : List Read) :
    ∃ seen h', rs.mapM (observe i) h = .ok seen h' ∧ List.Forall₂ (Read.Tells b) rs seen := by
  obtain ⟨h', looks⟩ := mapM_observe hc q rs
  exact ⟨_, h', looks, s.look q _ _ rs⟩

/-- A string with a number at its front alone: its bytes stay, and both conversions report. -/
theorem text_reads_partial :
    let b := Text.encode "12abc"
    let h : Heap := { cells := #[some (.ofBytes b)] }
    let rs : List Read := [.int (.site none), .bytes .silent, .int (.site none), .numeric]
    ∃ h', rs.mapM (observe 0) h = .ok [(.int 12, [.notNumeric b]), (.bytes b, []),
      (.int 12, [.notNumeric b]), (.truth false, [])] h' := by
  intro b h rs
  obtain ⟨seen, h', looks, tells⟩ :=
    text_reads (h := h) (i := 0) rfl ⟨rfl, rfl⟩ (Cell.spells_ofBytes b) rs
  have value : (parseNumber b).1.asInt = 12 := by decide +kernel
  have partly : (Sink.site none).passes (doubts b) = [.notNumeric b] := by decide +kernel
  have doubtful : (Cell.ofBytes b).looksNumeric = false := by decide +kernel
  change List.Forall₂ _ [_, _, _, _] seen at tells
  obtain _ | ⟨first, _ | ⟨second, _ | ⟨third, _ | ⟨fourth, _ | _⟩⟩⟩⟩ := tells
  simp only [Read.Tells, value, partly, doubtful] at first second third fourth
  rw [first, second, third, fourth] at looks
  exact ⟨h', looks⟩

end Heap

end ScriptCore
