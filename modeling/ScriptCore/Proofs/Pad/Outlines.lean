import Mathlib.Data.List.ReduceOption
import ScriptCore.Proofs.Key.Identity
import ScriptCore.Proofs.Pad.Directives
import ScriptCore.Proofs.Pad.Scopes

/-!
# Pad — the declarations of a unit, scope by scope

A unit keeps its slots in one list, and of the scopes that are open the first slot of each.  Who
compiles a unit may keep an `Outline` of it instead: what was declared in the innermost scope, and
around it scope by scope.  `CodeUnit.Draws` says that a unit is as an outline has it.  It has more
slots than the outline shows: temporaries, captures, prototypes, and names whose scope was left.

* `CodeUnit.Draws.declare`, `CodeUnit.Draws.enter`, `CodeUnit.Draws.leave`: a unit and its outline
  change alike, also when scopes are left together with those inside.
* `CodeUnit.Draws.hides_iff`: a name hides another exactly if the outline has a clashing declaration
  in the innermost scope.
-/

namespace ScriptCore

/-- A declaration, as a program makes it. -/
structure Declaration where
  name : String
  sigil : Sigil
  declarator : Declarator
  deriving DecidableEq, Repr

/-- Two declarations are of one variable, unless both are `our` in different packages. -/
structure Declaration.Clashes (old new : Declaration) : Prop where
  name : old.name = new.name
  sigil : old.sigil = new.sigil
  package : ∀ p q, new.declarator = .our p → old.declarator = .our q → p.same q = true

theorem Declarator.clashes_iff {new old : Declarator} : new.clashes old = true ↔
    ∀ p q, new = .our p → old = .our q → p.same q = true := by
  cases new <;> cases old <;> simp [Declarator.clashes]

instance (old new : Declaration) : Decidable (old.Clashes new) :=
  decidable_of_iff (old.name = new.name ∧ old.sigil = new.sigil ∧
      new.declarator.clashes old.declarator = true)
    ⟨fun h => ⟨h.1, h.2.1, Declarator.clashes_iff.mp h.2.2⟩,
      fun h => ⟨h.name, h.sigil, Declarator.clashes_iff.mpr h.package⟩⟩

/-- What is declared in a unit: in the innermost open scope, and around it, innermost first, where
the mark of each scope stands with what was declared around the scope when it was entered. -/
structure Outline where
  made : List Declaration := []
  around : List (ScopeMark × List Declaration) := []

namespace Outline

/-- A declaration is made in the innermost scope. -/
def declare (o : Outline) (d : Declaration) : Outline := { o with made := o.made ++ [d] }

/-- A scope is entered. -/
def enter (o : Outline) (mark : ScopeMark) : Outline := ⟨[], (mark, o.made) :: o.around⟩

/-- A scope is left, with those inside. -/
def leave (o : Outline) (mark : ScopeMark) : Outline :=
  match o.around.dropWhile fun e => e.1 ≠ mark with
  | [] => o
  | (_, made) :: around => ⟨made, around⟩

/-- The scopes that are open. -/
def marks (o : Outline) : List ScopeMark := o.around.map (·.1)

variable {mark : ScopeMark} {o : Outline}

/-- A scope that is open can be told from those inside. -/
theorem leave_of_mem (h : mark ∈ o.marks) : ∃ inside before around,
    o.around = inside ++ (mark, before) :: around ∧ o.leave mark = ⟨before, around⟩ := by
  have split : ∃ inside before around, o.around = inside ++ (mark, before) :: around ∧
      o.around.dropWhile (fun e => e.1 ≠ mark) = (mark, before) :: around := by
    unfold marks at h
    generalize o.around = all at h
    induction all with
    | nil => cases h
    | cons e all ih =>
      by_cases here : e.1 = mark
      · subst here
        exact ⟨[], e.2, all, rfl, List.dropWhile_cons_of_neg (by simp)⟩
      · obtain ⟨inside, before, around, all, left⟩ :=
          ih ((List.mem_cons.mp h).resolve_left (Ne.symm here))
        refine ⟨e :: inside, before, around, congrArg (e :: ·) all, ?_⟩
        rwa [List.dropWhile_cons_of_pos (by simpa using here)]
  obtain ⟨inside, before, around, all, left⟩ := split
  refine ⟨inside, before, around, all, ?_⟩
  rw [leave, left]

end Outline

/-! ### Slots -/

/-- The name is open, and the one that was declared. -/
structure PadName.Stems (seed : Seed) (n : PadName) (d : Declaration) : Prop where
  own : n.isCaptured = false
  unclosed : n.isOpen = true
  sigil : n.sigil = d.sigil
  declarator : n.declarator = d.declarator
  letters : n.name.letters = (Spelling.ofText d.name).letters
  hash : n.name.hash = seed.hash (Spelling.ofText d.name).bytes

/-- It reads as the declaration does. -/
theorem PadName.Stems.label {seed : Seed} {n : PadName} {d : Declaration} (h : n.Stems seed d) :
    n.label = d.sigil.char.toString ++ d.name := by
  have text : n.name.text = d.name := by
    rw [← Spelling.decode_letters_ofText d.name, ← h.letters]
    rfl
  rw [PadName.label, h.sigil, text]

/-- What an outline has of a slot. -/
inductive Depicts (seed : Seed) : Option PadName → Option Declaration → Prop
  /-- Of a temporary it has nothing. -/
  | temporary : Depicts seed none none
  /-- Nor of a capture, of a name whose scope was left, or of a prototype. -/
  | aside {n : PadName} : n.isCaptured = true ∨ n.isOpen = false ∨ n.IsAnonymous →
    Depicts seed (some n) none
  /-- It has the declarations of open names. -/
  | declared {n : PadName} {d : Declaration} : n.Stems seed d → Depicts seed (some n) (some d)

namespace Depicts
variable {seed : Seed} {o : Option PadName} {d : Option Declaration} {n : PadName}
  {e : Declaration}

/-- What is depicted of a name does not depend on when it was introduced, or on types. -/
theorem of_same {f : PadName → PadName} (same : ∀ n : PadName, n.Same (f n))
    (closed : ∀ n, (f n).closed = n.closed) (h : Depicts seed o d) : Depicts seed (o.map f) d := by
  cases h with
  | temporary => exact .temporary
  | @aside n why =>
    refine .aside ?_
    rwa [(same n).isCaptured, PadName.isOpen, closed, PadName.IsAnonymous, (same n).name]
  | @declared n d stems =>
    have s := same n
    exact .declared {
      own := s.isCaptured.trans stems.own
      unclosed := by rw [PadName.isOpen, closed]; exact stems.unclosed
      sigil := s.sigil.trans stems.sigil
      declarator := s.declarator.trans stems.declarator
      letters := s.name.symm ▸ stems.letters
      hash := s.name.symm ▸ stems.hash }

/-- Nothing is depicted of a name whose scope is left. -/
theorem shut (o : Option PadName) (c : UInt32) :
    Depicts seed (o.map (CodeUnit.closeName c)) none := by
  cases o with
  | none => exact .temporary
  | some n =>
    refine .aside ?_
    rcases CodeUnit.closeName_cases c n with ⟨same, captured | ⟨last, closed⟩⟩ | ⟨-, -, closed⟩
    · exact .inl (by rwa [same])
    · exact .inr (.inl (by rw [same, PadName.isOpen, closed]; rfl))
    · exact .inr (.inl (by rw [closed]; rfl))

theorem shut_all (slots : List (Option PadName)) (c : UInt32) :
    List.Forall₂ (Depicts seed) (slots.map (Option.map (CodeUnit.closeName c)))
      (List.replicate slots.length none) := by
  induction slots with
  | nil => exact .nil
  | cons o slots ih => exact .cons (shut o c) ih

end Depicts

/-- Texts are told apart by their keys under one seed. -/
theorem Key.same_iff_of_texts {k l : Key} {seed : Seed} {s t : String}
    (hk : k.letters = (Spelling.ofText s).letters)
    (hk' : k.hash = seed.hash (Spelling.ofText s).bytes)
    (hl : l.letters = (Spelling.ofText t).letters)
    (hl' : l.hash = seed.hash (Spelling.ofText t).bytes) : k.same l = true ↔ s = t := by
  have same : k.same l = true ↔ k.hash = l.hash ∧ k.letters = l.letters := by
    simp [Key.same, Key.letters, and_assoc]
  rw [same, hk, hk', hl, hl']
  constructor
  · exact fun e => Spelling.ofText_letters_inj e.2
  · rintro rfl
    exact ⟨rfl, rfl⟩

namespace Depicts
variable {seed : Seed} {o : Option PadName} {d : Option Declaration} {n : PadName}
  {e : Declaration}

/-- **A name that is declared** clashes with what is depicted of a slot exactly if it would hide the
name of the slot. -/
theorem hides_iff (stems : n.Stems seed e) (spelt : e.name ≠ "__ANON__") : Depicts seed o d →
    ((match o with
      | some old => !old.isCaptured && old.isOpen && old.answersTo n.name n.sigil &&
        n.declarator.clashes old.declarator
      | none => false) = true ↔ ∃ d' ∈ d, d'.Clashes e) := by
  intro h
  cases h with
  | temporary => simp
  | @aside old why =>
    refine iff_of_false (fun hides => ?_) (by simp)
    simp only [Bool.and_eq_true, Bool.not_eq_true'] at hides
    obtain ⟨⟨⟨own, unclosed⟩, answers⟩, -⟩ := hides
    rcases why with captured | shut | anonymous
    · cases own.symm.trans captured
    · cases shut.symm.trans unclosed
    · exact PadName.not_isAnonymous answers stems.letters spelt anonymous
  | @declared old d there =>
    have named : old.answersTo n.name n.sigil = true ↔ d.sigil = e.sigil ∧ d.name = e.name := by
      rw [PadName.answersTo_iff, there.sigil, stems.sigil,
        Key.same_iff_of_texts there.letters there.hash stems.letters stems.hash]
    have packages : n.declarator.clashes old.declarator = true ↔
        ∀ p q, e.declarator = .our p → d.declarator = .our q → p.same q = true := by
      rw [there.declarator, stems.declarator, Declarator.clashes_iff]
    simp only [Bool.and_eq_true, there.own, there.unclosed, named, packages, Option.mem_def,
      Option.some.injEq, exists_eq_left']
    constructor
    · rintro ⟨⟨-, sigil, name⟩, package⟩
      exact ⟨name, sigil, package⟩
    · rintro ⟨name, sigil, package⟩
      exact ⟨⟨⟨rfl, trivial⟩, sigil, name⟩, package⟩

end Depicts

/-! ### Scopes -/

/-- The slots, with what is depicted of each, are laid out in scopes: those of a scope come after
all that was there when it was entered. -/
def Outline.Lays (u : Nat) (slots : List (Option Declaration)) (made : List Declaration) :
    List (ScopeMark × List Declaration) → Prop
  | [] => slots.reduceOption = made
  | (mark, before) :: around => ∃ outer inner, slots = outer ++ inner ∧
      inner.reduceOption = made ∧ mark = ⟨u, outer.length, around.length + 1⟩ ∧
      Lays u outer before around

namespace Outline
variable {u : Nat} {slots more : List (Option Declaration)} {made before : List Declaration}
  {around inside : List (ScopeMark × List Declaration)} {mark : ScopeMark}

/-- What comes to the slots comes to the innermost scope. -/
theorem Lays.append (h : Lays u slots made around) (more : List (Option Declaration)) :
    Lays u (slots ++ more) (made ++ more.reduceOption) around := by
  cases around with
  | nil =>
    rw [Lays] at h ⊢
    rw [List.reduceOption_append, h]
  | cons e around =>
    obtain ⟨outer, inner, rfl, rfl, mark, rest⟩ := h
    exact ⟨outer, inner ++ more, List.append_assoc .., List.reduceOption_append .., mark, rest⟩

/-- Of what is not depicted nothing comes. -/
theorem Lays.pad (h : Lays u slots made around) (n : Nat) :
    Lays u (slots ++ List.replicate n none) made around := by
  have := h.append (List.replicate n none)
  rwa [List.reduceOption_replicate_none, List.append_nil] at this

/-- The declarations of the innermost scope are those from its first slot on. -/
theorem Lays.drop_start (h : Lays u slots made around) :
    (slots.drop ((around.head?.map (·.1.start)).getD 0)).reduceOption = made := by
  cases around with
  | nil => exact h
  | cons e around =>
    obtain ⟨outer, inner, rfl, same, mark, -⟩ := h
    rw [List.head?_cons, Option.map_some, Option.getD_some, mark, List.drop_left, same]

/-- **Leaving a scope** goes back to the slots that there were when it was entered. -/
theorem Lays.leave (h : Lays u slots made (inside ++ (mark, before) :: around)) :
    mark.unit = u ∧ mark.depth = around.length + 1 ∧ mark.start ≤ slots.length ∧
      Lays u (slots.take mark.start) before around := by
  induction inside generalizing slots made with
  | nil =>
    obtain ⟨outer, inner, rfl, -, rfl, rest⟩ := h
    refine ⟨rfl, rfl, ?_, ?_⟩
    · rw [List.length_append]
      exact Nat.le_add_right _ _
    · rwa [List.take_left]
  | cons e inside ih =>
    obtain ⟨outer, inner, rfl, -, -, rest⟩ := h
    obtain ⟨unit, depth, le, rest⟩ := ih rest
    refine ⟨unit, depth, ?_, ?_⟩
    · rw [List.length_append]
      exact le.trans (Nat.le_add_right _ _)
    · rwa [List.take_append_of_le_length le]

end Outline

/-- **The unit is as an outline has it**: its slots are laid out in the scopes of the outline, and
these are open in it. -/
structure CodeUnit.Draws (seed : Seed) (u : Nat) (x : CodeUnit) (o : Outline) : Prop where
  scopes : x.scopes = (o.around.map (·.1.start)).reverse
  layout : ∃ slots, List.Forall₂ (Depicts seed) x.slots slots ∧ Outline.Lays u slots o.made o.around

namespace CodeUnit.Draws
variable {seed : Seed} {u : Nat} {x y : CodeUnit} {o : Outline} {n : PadName} {d : Declaration}
  {mark : ScopeMark}

theorem empty (slots : x.slots = []) (scopes : x.scopes = []) : x.Draws seed u {} where
  scopes := scopes
  layout := ⟨[], slots ▸ .nil, rfl⟩

/-- New slots come behind the others. -/
theorem append (h : x.Draws seed u o) (scopes : y.scopes = x.scopes) {n : Option PadName}
    {d : Option Declaration} (slots : y.slots = x.slots ++ [n]) (depicts : Depicts seed n d) :
    y.Draws seed u { o with made := o.made ++ d.toList } := by
  obtain ⟨v, shown, lays⟩ := h.layout
  have more := lays.append [d]
  refine ⟨scopes.trans h.scopes, v ++ [d], ?_, ?_⟩
  · exact slots ▸ List.rel_append shown (.cons depicts .nil)
  · cases d <;> exact more

/-- A declaration is made. -/
theorem declare (h : x.Draws seed u o) (stems : n.Stems seed d) :
    (x.addSlot (some n)).Draws seed u (o.declare d) :=
  h.append (y := x.addSlot (some n)) rfl rfl (.declared stems)

/-- A slot comes that is no declaration. -/
theorem aside (h : x.Draws seed u o) (scopes : y.scopes = x.scopes) {n : Option PadName}
    (slots : y.slots = x.slots ++ [n]) (depicts : Depicts seed n none) : y.Draws seed u o := by
  have more := h.append scopes slots depicts
  rwa [Option.toList_none, List.append_nil] at more

/-- Names change that stay the same. -/
theorem changed (h : x.Draws seed u o) (scopes : y.scopes = x.scopes) {f : Nat → PadName → PadName}
    (slots : ∀ i : Nat, y.slots[i]? = (x.slots[i]?).map (Option.map (f i)))
    (same : ∀ i (n : PadName), n.Same (f i n) ∧ (f i n).closed = n.closed) : y.Draws seed u o := by
  obtain ⟨v, shown, lays⟩ := h.layout
  refine ⟨scopes.trans h.scopes, v, ?_, lays⟩
  have all : y.slots = x.slots.mapIdx fun i => Option.map (f i) :=
    List.ext_getElem? fun i => by rw [slots, List.getElem?_mapIdx]
  obtain ⟨length, each⟩ := List.forall₂_iff_get.mp shown
  refine all ▸ List.forall₂_iff_get.mpr ⟨List.length_mapIdx.trans length, fun i h₁ h₂ => ?_⟩
  rw [List.get_eq_getElem, List.getElem_mapIdx]
  exact (each i (length.symm ▸ h₂) h₂).of_same (fun n => (same i n).1) fun n => (same i n).2

/-- Names are introduced. -/
theorem introduce (h : x.Draws seed u o) (sequence : UInt32) :
    (x.introduce sequence).Draws seed u o := by
  refine h.changed rfl (slots_introduce x sequence) fun _ n => ?_
  split
  · exact ⟨⟨rfl, rfl, rfl, rfl⟩, rfl⟩
  · exact ⟨.refl n, rfl⟩

/-- A name gets a type. -/
theorem annotate (h : x.Draws seed u o) (slot : Nat) (key : Key) : CodeUnit.Draws seed u { x with
    slots := x.slots.modify slot (·.map fun n => { n with typeName := some key }) } o := by
  refine h.changed rfl (slots_annotate x slot key) fun _ n => ?_
  split
  · exact ⟨⟨rfl, rfl, rfl, rfl⟩, rfl⟩
  · exact ⟨.refl n, rfl⟩

/-- A scope is entered. -/
theorem enter (h : x.Draws seed u o) :
    CodeUnit.Draws seed u { x with scopes := x.scopes ++ [x.slots.length] }
      (o.enter ⟨u, x.slots.length, x.scopes.length + 1⟩) := by
  obtain ⟨v, shown, lays⟩ := h.layout
  refine ⟨?_, v, shown, ?_⟩
  · rw [h.scopes, Outline.enter, List.map_cons, List.reverse_cons]
  · refine ⟨v, [], (List.append_nil v).symm, rfl, ?_, lays⟩
    rw [shown.length_eq, h.scopes, List.length_reverse, List.length_map]

/-- **Scopes are left**, one and those inside. -/
theorem leave (h : x.Draws seed u o) (there : mark ∈ o.marks) (c : UInt32) :
    ({ x with scopes := x.scopes.take (mark.depth - 1) }.close mark.start c).Draws seed u
      (o.leave mark) := by
  obtain ⟨inside, before, around, all, left⟩ := Outline.leave_of_mem there
  obtain ⟨v, shown, lays⟩ := h.layout
  rw [all] at lays
  obtain ⟨-, depth, le, lays⟩ := lays.leave
  rw [left]
  refine ⟨?_, v.take mark.start ++ List.replicate (x.slots.drop mark.start).length none, ?_, ?_⟩
  · show x.scopes.take (mark.depth - 1) = _
    rw [h.scopes, all, depth, Nat.add_sub_cancel, List.map_append, List.reverse_append,
      List.map_cons, List.reverse_cons, List.append_assoc]
    exact List.take_left' (by rw [List.length_reverse, List.length_map])
  · exact List.rel_append (List.forall₂_take _ shown) (Depicts.shut_all _ c)
  · exact lays.pad _

/-- **What a declaration hides.**  The name that is declared hides one of its scope exactly if the
outline has a declaration there that clashes with it. -/
theorem hides_iff (h : x.Draws seed u o) (stems : n.Stems seed d) (spelt : d.name ≠ "__ANON__") :
    x.hides n = true ↔ ∃ e ∈ o.made, e.Clashes d := by
  obtain ⟨v, shown, lays⟩ := h.layout
  have start : x.scopeStart = (o.around.head?.map (·.1.start)).getD 0 := by
    rw [CodeUnit.scopeStart, h.scopes, List.getLast?_reverse, List.head?_map]
  rw [CodeUnit.hides, start, ← lays.drop_start]
  have inner := List.forall₂_drop ((o.around.head?.map (·.1.start)).getD 0) shown
  generalize x.slots.drop _ = l, v.drop _ = m at inner
  induction inner with
  | nil => simp
  | @cons a b l m first _ ih =>
    rw [List.any_cons, Bool.or_eq_true]
    refine (or_congr (Depicts.hides_iff stems spelt first) ih).trans ?_
    cases b <;> simp [List.reduceOption]

end CodeUnit.Draws

end ScriptCore
