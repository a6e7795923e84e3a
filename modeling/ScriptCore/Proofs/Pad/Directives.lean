import ScriptCore.Proofs.Pad.Compile

/-!
# Pad — compiling, piece by piece

Whatever a directive does to pads, it does in few ways: it opens a unit, adds a slot of the unit's
own, says something new of the names there are, or lets a slot stand for an outer one.

`Compiles P`: each of these keeps `P`.  Then every directive does (`Compiles.perform`), and so does
compiling (`Compiles.compile`).  `Persists` is the first such property: a name stays what it is, in
the slot where it is, and declarations are all that changes.
-/

namespace ScriptCore

/-- The same name, whatever is declared of it. -/
structure PadName.Same (n n' : PadName) : Prop where
  name : n'.name = n.name
  sigil : n'.sigil = n.sigil
  declarator : n'.declarator = n.declarator
  origin : n'.origin = n.origin

/-- A later unit: the slots there were are there, with the same names. -/
structure CodeUnit.Persists (x y : CodeUnit) : Prop where
  outer : y.outer = x.outer
  old : ∀ (i : Nat) (n : Option PadName), x.slots[i]? = some n →
    ∃ n', y.slots[i]? = some n' ∧ Option.Rel PadName.Same n n'

/-- Later pads: all units are there. -/
def Pads.Persists (p q : Pads) : Prop :=
  ∀ (u : Nat) (x : CodeUnit), p.units[u]? = some x → ∃ y, q.units[u]? = some y ∧ x.Persists y

/-- The unit has the slots it had, and captures what it did. -/
structure CodeUnit.Redeclares (x y : CodeUnit) : Prop extends CodeUnit.Persists x y where
  width : y.slots.length = x.slots.length
  captures : y.captures = x.captures

/-- A slot that a unit itself adds: without a name, for a name of its own, or for a prototype. -/
def PadName.IsOwn (n : Option PadName) : Prop :=
  ∀ m, n = some m → m.isCaptured = false ∧ (m.nested?.isSome = true → m.declarator = .my)

theorem PadName.isOwn_none : PadName.IsOwn none := by
  intro m e
  cases e

/-- A unit with one more slot, which stands for a slot of the unit around it. -/
def CodeUnit.standingFor (x : CodeUnit) (m : PadName) (slot : Nat) : CodeUnit :=
  { x.addSlot (some (m.captured slot)) with captures := true }

/-- What compiling may do to pads keeps `P`. -/
structure Pads.Compiles (P : Pads → Prop) : Prop where
  same : ∀ {p q : Pads}, P p → q.units = p.units → P q
  opens : ∀ {p : Pads} {x : CodeUnit}, P p → x.slots = [] → x.captures = false →
    P { p with units := p.units.push x }
  changes : ∀ {p : Pads} {u : Nat} {x y : CodeUnit}, P p → p.units[u]? = some x →
    x.Redeclares y → P { p with units := p.units.setIfInBounds u y }
  adds : ∀ {p : Pads} {u : Nat} {x : CodeUnit} {n : Option PadName}, P p → p.units[u]? = some x →
    PadName.IsOwn n → P { p with units := p.units.setIfInBounds u (x.addSlot n) }
  standsIn : ∀ {p : Pads} {u o slot : Nat} {x y : CodeUnit} {m : PadName} {name : Key}
    {sigil : Sigil}, P p → p.units[u]? = some x → x.outer = some o → p.units[o]? = some y →
    y.slots[slot]? = some (some m) → m.answersTo name sigil = true →
    x.capturedSlot? name sigil slot = none →
    P { p with units := p.units.setIfInBounds u (x.standingFor m slot) }

/-! ### Names persist -/

namespace PadName.Same
variable {n n' n'' : PadName}

theorem refl (n : PadName) : n.Same n := ⟨rfl, rfl, rfl, rfl⟩

theorem trans (h : n.Same n') (h' : n'.Same n'') : n.Same n'' :=
  ⟨h'.name.trans h.name, h'.sigil.trans h.sigil, h'.declarator.trans h.declarator,
    h'.origin.trans h.origin⟩

theorem outerSlot? (h : n.Same n') : n'.outerSlot? = n.outerSlot? := by
  simp [PadName.outerSlot?, h.origin]

theorem nested? (h : n.Same n') : n'.nested? = n.nested? := by
  simp [PadName.nested?, h.origin]

theorem isCaptured (h : n.Same n') : n'.isCaptured = n.isCaptured := by
  simp [PadName.isCaptured, h.outerSlot?]

end PadName.Same

namespace CodeUnit
variable {x y z : CodeUnit} {i : Nat}

theorem Persists.refl (x : CodeUnit) : x.Persists x := ⟨rfl, retains_refl (fun _ => .refl) x⟩

theorem Persists.trans (h : x.Persists y) (h' : y.Persists z) : x.Persists z where
  outer := h'.outer.trans h.outer
  old := Retains.trans h.old h'.old fun _ _ _ _ same same' => same.trans same'

theorem Persists.slot (h : x.Persists y) {n : PadName} (hn : x.slots[i]? = some (some n)) :
    ∃ n', y.slots[i]? = some (some n') ∧ n.Same n' :=
  Retains.slot h.old hn

/-- A named slot where there was a slot before is one that was named. -/
theorem Persists.slot_inv (h : x.Persists y) {n' : PadName} (lt : i < x.slots.length)
    (hn : y.slots[i]? = some (some n')) : ∃ n, x.slots[i]? = some (some n) ∧ n.Same n' :=
  Retains.slot_inv h.old lt hn

/-- The named slots of a unit that only says something new of its names. -/
theorem Redeclares.slot_inv (h : x.Redeclares y) {n' : PadName}
    (hn : y.slots[i]? = some (some n')) : ∃ n, x.slots[i]? = some (some n) ∧ n.Same n' :=
  h.toPersists.slot_inv (h.width ▸ (List.getElem?_eq_some_iff.mp hn).1) hn

/-- A change of each name that leaves it the same. -/
theorem redeclares_map {f : Nat → PadName → PadName} (outer : y.outer = x.outer)
    (captures : y.captures = x.captures)
    (slots : ∀ i : Nat, y.slots[i]? = (x.slots[i]?).map (Option.map (f i)))
    (same : ∀ (i : Nat) (n : PadName), n.Same (f i n)) : x.Redeclares y where
  outer := outer
  captures := captures
  old := retains_map slots same
  width := by
    refine Nat.le_antisymm (Nat.not_lt.mp fun lt => ?_) (Nat.not_lt.mp fun lt => ?_)
    · have there := slots x.slots.length
      rw [List.getElem?_eq_getElem lt, List.getElem?_eq_none (Nat.le_refl _)] at there
      cases there
    · have there := slots y.slots.length
      rw [List.getElem?_eq_getElem lt, List.getElem?_eq_none (Nat.le_refl _)] at there
      cases there

/-- The slots of a unit that got one more. -/
theorem getElem?_addSlot_iff {n a : Option PadName} :
    (x.addSlot n).slots[i]? = some a ↔ x.slots[i]? = some a ∨ i = x.slots.length ∧ a = n :=
  getElem?_concat_eq_some_iff

theorem persists_addSlot (x : CodeUnit) (n : Option PadName) (captures : Bool) :
    x.Persists { x.addSlot n with captures } where
  outer := rfl
  old := retains_addSlot (fun _ => .refl) x n captures

theorem redeclares_introduce (x : CodeUnit) (sequence : UInt32) :
    x.Redeclares (x.introduce sequence) := by
  refine redeclares_map rfl rfl (slots_introduce x sequence) fun _ n => ?_
  split
  · exact ⟨rfl, rfl, rfl, rfl⟩
  · exact .refl n

theorem redeclares_close (x : CodeUnit) (start : Nat) (sequence : UInt32) (scopes : List Nat) :
    x.Redeclares (close { x with scopes } start sequence) := by
  refine redeclares_map rfl rfl (slots_close { x with scopes } start sequence) fun i n => ?_
  split
  · exact .refl n
  · rcases closeName_cases sequence n with ⟨same, -⟩ | ⟨-, -, shut⟩
    · rw [same]
      exact .refl n
    · rw [shut]
      exact ⟨rfl, rfl, rfl, rfl⟩

theorem redeclares_annotate (x : CodeUnit) (slot : Nat) (key : Key) : x.Redeclares { x with
    slots := x.slots.modify slot (·.map fun n => { n with typeName := some key }) } := by
  refine redeclares_map rfl rfl (slots_annotate x slot key) fun i n => ?_
  split
  · exact ⟨rfl, rfl, rfl, rfl⟩
  · exact .refl n

theorem redeclares_enterScope (x : CodeUnit) :
    x.Redeclares { x with scopes := x.scopes ++ [x.slots.length] } :=
  redeclares_map (f := fun _ n => n) rfl rfl (fun i => by simp) fun _ n => .refl n

theorem redeclares_leaveScope (x : CodeUnit) (depth start : Nat) (sequence : UInt32) :
    x.Redeclares ({ x with scopes := x.scopes.take (depth - 1) }.close start sequence) :=
  x.redeclares_close start sequence _

end CodeUnit

namespace Pads
open Beside

section
variable {P : Pads → Prop} {p q r : Pads} {u o slot levels i : Nat} {x y : CodeUnit} {name : Key}
  {sigil : Sigil}

theorem Persists.refl (p : Pads) : p.Persists p := fun _ x hx => ⟨x, hx, .refl x⟩

theorem Persists.trans (h : p.Persists q) (h' : q.Persists r) : p.Persists r := by
  intro u x hx
  obtain ⟨y, hy, same⟩ := h u x hx
  obtain ⟨z, hz, same'⟩ := h' u y hy
  exact ⟨z, hz, same.trans same'⟩

theorem persists_set (hx : p.units[u]? = some x) (same : x.Persists y) :
    p.Persists { p with units := p.units.setIfInBounds u y } :=
  fun _ _ => units_set (R := fun _ x y => x.Persists y) hx same fun _ z => .refl z

/-- **Names persist** whatever is compiled. -/
theorem compiles_persists (p : Pads) : Compiles p.Persists where
  same h units := by
    unfold Persists
    rwa [units]
  opens {q x} h _ _ := h.trans fun v z hz => ⟨z, units_push hz, .refl z⟩
  changes h hx same := h.trans (persists_set hx same.toPersists)
  adds {q u x n} h hx _ := h.trans (persists_set hx (x.persists_addSlot n x.captures))
  standsIn {q u o slot x y m name sigil} h hx _ _ _ _ _ :=
    h.trans (persists_set hx (x.persists_addSlot _ true))

/-- What is true of every unit, as it comes and as it gets its slots. -/
theorem compiles_units {Q : CodeUnit → Prop}
    (empty : ∀ x : CodeUnit, x.slots = [] → x.captures = false → Q x)
    (redeclared : ∀ x y : CodeUnit, Q x → x.Redeclares y → Q y)
    (addSlot : ∀ (x : CodeUnit) n, Q x → PadName.IsOwn n → Q (x.addSlot n))
    (standingFor : ∀ (x : CodeUnit) m name sigil slot, Q x → m.answersTo name sigil = true →
      x.capturedSlot? name sigil slot = none → Q (x.standingFor m slot)) :
    Compiles fun p => ∀ (u : Nat) (x : CodeUnit), p.units[u]? = some x → Q x := by
  -- one unit is another than before
  have set {p : Pads} {u : Nat} {y : CodeUnit}
      (h : ∀ (u : Nat) (x : CodeUnit), p.units[u]? = some x → Q x) (hy : Q y) (v : Nat)
      (z : CodeUnit) (hz : (p.units.setIfInBounds u y)[v]? = some z) : Q z := by
    rcases units_set_cases hz with ⟨-, rfl⟩ | hz
    · exact hy
    · exact h v z hz
  refine ⟨fun h units => units ▸ h, fun h slots captures v z hz => ?_, fun h hx same => ?_,
    fun h hx own => ?_, fun h hx _ _ _ an absent => ?_⟩
  · rcases units_push_cases hz with ⟨-, rfl⟩ | hz
    · exact empty _ slots captures
    · exact h v z hz
  · exact set h (redeclared _ _ (h _ _ hx) same)
  · exact set h (addSlot _ _ (h _ _ hx) own)
  · exact set h (standingFor _ _ _ _ _ (h _ _ hx) an absent)

/-! ### Capturing -/

theorem Compiles.standIn (c : Compiles P) (h : P p) {m : PadName} {found : Nat × Pads}
    (hx : p.units[u]? = some x) (ho : x.outer = some o) (hy : p.units[o]? = some y)
    (hm : y.slots[slot]? = some (some m)) (an : m.answersTo name sigil = true)
    (e : p.standIn u o name sigil slot = some found) : P found.2 := by
  unfold Pads.standIn at e
  rw [hx, hy] at e
  simp only [Option.bind_eq_bind, Option.bind_some, hm, Option.join_some] at e
  split at e
  · cases e
    exact h
  · rename_i absent
    cases e
    exact c.standsIn h hx ho hy hm an absent

theorem Compiles.captureWithin (c : Compiles P) (nests : p.WellNested) (h : P p) (lt : u < levels)
    (e : Pads.captureWithin name sigil levels p u = some (i, q)) : P q := by
  induction levels generalizing u i q with
  | zero => cases e
  | succ levels ih =>
    unfold Pads.captureWithin at e
    obtain ⟨x, hx, e⟩ := Option.bind_eq_some_iff.mp e
    obtain ⟨o, ho, e⟩ := Option.bind_eq_some_iff.mp e
    obtain ⟨y, hy, e⟩ := Option.bind_eq_some_iff.mp e
    have out := nests.nested u x o hx ho
    split at e
    · rename_i slot found
      obtain ⟨⟨m, hm, an, -⟩, -⟩ := CodeUnit.visibleSlot?_eq_some_iff.mp found
      exact c.standIn h hx ho hy hm an e
    · obtain ⟨⟨slot, p'⟩, here, e⟩ := Option.bind_eq_some_iff.mp e
      obtain ⟨captured, y', m, hy', hm, an, -⟩ := nests.of_captureWithin (by omega) here
      obtain ⟨x', hx', becomes⟩ := (captured.widens.becomes 0).unit u x hx
      exact c.standIn (ih (by omega) here) hx' (becomes.outer.trans ho) hy' hm an e

theorem Compiles.capture (c : Compiles P) (nests : p.WellNested) (h : P p) {text : String}
    (e : p.capture u text sigil = some (i, q)) : P q := by
  by_cases lt : u < p.units.size
  · exact c.captureWithin nests h lt e
  · rw [capture_of_vacant (Array.getElem?_eq_none (Nat.not_lt.mp lt))] at e
    cases e

theorem Compiles.lookup (c : Compiles P) (nests : p.WellNested) (h : P p) {text : String}
    (e : p.lookup u text sigil = some (i, q)) : P q := by
  unfold Pads.lookup at e
  split at e
  · cases e
    exact h
  · exact c.capture nests h e

end

/-! ### Directives -/

section
variable {P : Pads → Prop}

theorem Compiles.changeUnit (c : Compiles P) (u : Nat) {f : CodeUnit → CodeUnit}
    (hf : ∀ x : CodeUnit, x.Redeclares (f x)) :
    Keeps (fun s : Beside Pads => P s.own) (Pads.changeUnit u f) := by
  refine Keeps.changeSelf fun p h => ?_
  cases hx : p.units[u]? with
  | some x =>
    rw [units_modify hx]
    exact c.changes h hx (hf x)
  | none => exact c.same h (units_modify_of_none hx f)

theorem Compiles.advance (c : Compiles P) :
    Keeps (fun s : Beside Pads => P s.own) Pads.advance := by
  refine Keeps.bind (Keeps.changeSelf fun p h => ?_) fun _ => Keeps.self.bind fun _ => Keeps.pure _
  exact c.same h rfl

theorem Compiles.intern (c : Compiles P) (name : String) :
    Keeps (fun s : Beside Pads => P s.own) (Pads.intern name) :=
  keeps_intern (fun _ _ h => c.same h rfl) name

theorem Compiles.addSlot (c : Compiles P) (u : Nat) {n : Option PadName} (own : PadName.IsOwn n) :
    Keeps (fun s : Beside Pads => P s.own) (Pads.addSlot u n) := by
  refine Leads.bind (leads_unit u) fun x => ?_
  refine Leads.bind (Q := fun _ s => P s.own) ?_ fun _ => Leads.pure fun _ h => h
  rintro s ⟨hx, h⟩
  show P { s.own with units := s.own.units.modify u (·.addSlot n) }
  rw [units_modify hx]
  exact c.adds h hx own

theorem Compiles.openUnit (c : Compiles P) (name : Option String) (outer : Option Nat) :
    Keeps (fun s : Beside Pads => P s.own) (Pads.openUnit name outer) :=
  keeps_openUnit_of name outer c.intern fun _ => Keeps.changeSelf fun _ h => c.opens h rfl rfl

theorem Compiles.declare (c : Compiles P) (u : Nat) (name : String) (sigil : Sigil)
    (declarator : Declarator) :
    Keeps (fun s : Beside Pads => P s.own) (Pads.declare u name sigil declarator) := by
  refine (c.intern name).bind fun key => (keeps_unit u).bind fun x => ?_
  have add : Keeps (fun s : Beside Pads => P s.own)
      (Pads.addSlot u (some { name := key, sigil, declarator })) := by
    refine c.addSlot u fun m hm => ?_
    cases hm
    exact ⟨rfl, nofun⟩
  split
  · exact (Keeps.onHeap _).bind fun _ => add
  · exact add

theorem Compiles.addPrototype (c : Compiles P) (u nested : Nat) :
    Keeps (fun s : Beside Pads => P s.own) (Pads.addPrototype u nested) := by
  unfold Pads.addPrototype
  refine (keeps_unit nested).bind fun x => ?_
  dsimp only
  split
  · exact Leads.bind (Q := fun _ _ => False) (Leads.throw fun _ h => h) fun _ _ h => h.elim
  · refine (c.intern _).bind fun key => Keeps.self.bind fun p => c.addSlot u fun m hm => ?_
    cases hm
    exact ⟨rfl, fun _ => rfl⟩

/-- **Every directive** keeps what its pieces keep. -/
theorem Compiles.perform (c : Compiles P) (d : Directive) :
    Keeps (fun s : Beside Pads => s.own.WellNested ∧ P s.own) d.perform := by
  have beside (keeps : Keeps (fun s : Beside Pads => P s.own) d.perform) :
      Keeps (fun s : Beside Pads => s.own.WellNested ∧ P s.own) d.perform :=
    Keeps.of_ends fun s h => ((keeps_perform d).ends h.1).and (keeps.ends h.2)
  cases d with
  | openUnit name outer => exact beside (c.openUnit name outer).discard
  | declare u name sigil declarator => exact beside (c.declare u name sigil declarator).discard
  | annotate u slot typeName =>
    refine beside ((c.intern typeName).bind fun key => (keeps_unit u).discard.bind fun _ => ?_)
    exact c.changeUnit u fun x => x.redeclares_annotate slot key
  | addTemporary u => exact beside (c.addSlot u PadName.isOwn_none).discard
  | addPrototype u nested => exact beside (c.addPrototype u nested).discard
  | introduce u =>
    refine beside (Keeps.discard ((keeps_unit u).discard.bind fun _ => Keeps.self.bind fun p => ?_))
    refine (c.changeUnit u fun x => x.redeclares_introduce p.clock).bind fun _ => ?_
    exact c.advance.discard.bind fun _ => Keeps.pure _
  | advance => exact beside c.advance.discard
  | enterScope u =>
    refine beside (Keeps.discard ((keeps_unit u).bind fun x => ?_))
    exact (c.changeUnit u fun x => x.redeclares_enterScope).bind fun _ => Keeps.pure _
  | leaveScope mark =>
    refine beside ((keeps_unit mark.unit).discard.bind fun _ => Keeps.self.bind fun p => ?_)
    refine (c.changeUnit mark.unit fun x => ?_).bind fun _ => c.advance.discard
    exact x.redeclares_leaveScope mark.depth mark.start p.clock
  | capture u name sigil =>
    exact keeps_search (P := fun p => p.WellNested ∧ P p) fun p i q h e =>
      ⟨(h.1.of_capture e).nests, c.capture h.1 h.2 e⟩
  | lookup u name sigil =>
    exact keeps_search (P := fun p => p.WellNested ∧ P p) fun p i q h e =>
      ⟨(h.1.of_lookup e).nests, c.lookup h.1 h.2 e⟩

/-- **Compiling** keeps it. -/
theorem Compiles.compile (c : Compiles P) (ds : List Directive) {s : Beside Pads}
    (nests : s.own.WellNested) (h : P s.own) : P (Pads.compile ds s).own := by
  unfold Pads.compile
  induction ds generalizing s with
  | nil => exact h
  | cons d ds ih =>
    have done := Keeps.after (c.perform d) ⟨nests, h⟩
    exact ih done.1 done.2

end

end Pads

end ScriptCore
