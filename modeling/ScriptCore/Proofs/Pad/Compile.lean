import ScriptCore.Proofs.Outcome
import ScriptCore.Proofs.Pad.Capture

/-!
# Pad — compiling as a sequence of directives

A `Directive` is one compile-time operation, and `compile` carries out a list of them, going on
after those that fail.

Each directive keeps the invariants of units and, until the clock comes round, of scopes
(`leads_perform`), so all pads that compiling reaches have them (`wellNested_compile`,
`scopedTill_compile`).
-/

namespace ScriptCore.Pads
open Beside

/-- A compile-time operation. -/
inductive Directive
  | openUnit (name : Option String) (outer : Option Nat)
  | declare (u : Nat) (name : String) (sigil : Sigil) (declarator : Declarator)
  | annotate (u slot : Nat) (typeName : String)
  | addTemporary (u : Nat)
  | addPrototype (u nested : Nat)
  | introduce (u : Nat)
  | advance
  | enterScope (u : Nat)
  | leaveScope (mark : ScopeMark)
  | capture (u : Nat) (name : String) (sigil : Sigil)
  | lookup (u : Nat) (name : String) (sigil : Sigil)

/-- Carries out a directive. -/
def Directive.perform : Directive → OnPads Unit
  | openUnit name outer => discard (Pads.openUnit name outer)
  | declare u name sigil declarator => discard (Pads.declare u name sigil declarator)
  | annotate u slot typeName => Pads.annotate u slot typeName
  | addTemporary u => discard (Pads.addTemporary u)
  | addPrototype u nested => discard (Pads.addPrototype u nested)
  | introduce u => discard (Pads.introduce u)
  | advance => discard Pads.advance
  | enterScope u => discard (Pads.enterScope u)
  | leaveScope mark => Pads.leaveScope mark
  | capture u name sigil => changeSelf fun p => ((p.capture u name sigil).map (·.2)).getD p
  | lookup u name sigil => changeSelf fun p => ((p.lookup u name sigil).map (·.2)).getD p

/-- How often a directive moves the clock on, at most. -/
def Directive.ticks : Directive → Nat
  | introduce _ | advance | leaveScope _ => 1
  | _ => 0

/-- How often directives move the clock on, at most. -/
def ticks : List Directive → Nat
  | [] => 0
  | d :: ds => d.ticks + ticks ds

theorem ticks_cons (d : Directive) (ds : List Directive) :
    ticks (d :: ds) = d.ticks + ticks ds := rfl

theorem ticks_append (ds ds' : List Directive) : ticks (ds ++ ds') = ticks ds + ticks ds' := by
  induction ds with
  | nil => exact (Nat.zero_add _).symm
  | cons d ds ih => rw [List.cons_append, ticks_cons, ticks_cons, ih, Nat.add_assoc]

/-- Carries out directives one after the other, whether they succeed or fail. -/
def compile (ds : List Directive) (s : Beside Pads) : Beside Pads :=
  ds.foldl (fun s d => after d.perform s) s

/-! ### Later units -/

theorem units_modify {p : Pads} {u : Nat} {x : CodeUnit} (hx : p.units[u]? = some x)
    (f : CodeUnit → CodeUnit) : p.units.modify u f = p.units.setIfInBounds u (f x) := by
  apply Array.ext_getElem?
  intro v
  rw [Array.getElem?_modify, Array.getElem?_setIfInBounds]
  split
  · subst u
    rw [if_pos (Array.getElem?_eq_some_iff.mp hx).1, hx]
    rfl
  · rfl

section
variable {p q : Pads} {u : Nat} {x : CodeUnit} {c : UInt32}

theorem WellNested.changeUnit (h : p.WellNested) (u : Nat) {f : CodeUnit → CodeUnit}
    (hf : ∀ x : CodeUnit, x.Step c (f x)) :
    WellNested { p with units := p.units.modify u f } := by
  cases hx : p.units[u]? with
  | none => rwa [units_modify_of_none hx]
  | some x =>
    rw [units_modify hx]
    refine h.set hx (hf x).toBecomes fun i n k le hn hk => ?_
    have := (hf x).own i n le hn
    rw [PadName.isCaptured_eq_false, hk] at this
    cases this

theorem WellScoped.changeUnit (h : p.WellScoped) (u : Nat) {f : CodeUnit → CodeUnit}
    (hf : ∀ x : CodeUnit, x.Step p.clock (f x)) :
    WellScoped { p with units := p.units.modify u f } := by
  have nests := h.toWellNested.changeUnit u hf
  cases hx : p.units[u]? with
  | none => rwa [units_modify_of_none hx]
  | some x =>
    rw [units_modify hx] at nests ⊢
    refine h.set hx (hf x).toBecomes nests fun i n k le hn hk => ?_
    have := (hf x).own i n le hn
    rw [PadName.isCaptured_eq_false, hk] at this
    cases this

/-- Nothing but units counts. -/
theorem WellNested.of_units (h : p.WellNested) (units : q.units = p.units) : q.WellNested where
  nested u x o hx := h.nested u x o (units ▸ hx)
  aliased u x i n k hx hn hk := by
    obtain ⟨o, y, m, ho, hy, hm⟩ := h.aliased u x i n k (units ▸ hx) hn hk
    exact ⟨o, y, m, ho, units ▸ hy, hm⟩

/-- Nothing but units and the clock counts. -/
theorem WellScoped.of_units (h : p.WellScoped) (units : q.units = p.units)
    (clock : p.clock ≤ q.clock) : q.WellScoped where
  toWellNested := h.toWellNested.of_units units
  opened u x o hx ho := (h.opened u x o (units ▸ hx) ho).trans clock
  inForce u x i n k hx hn hk o y m ho hy :=
    h.inForce u x i n k (units ▸ hx) hn hk o y m ho (units ▸ hy)

theorem becomes_push (c : UInt32) (p : Pads) (x : CodeUnit) :
    p.Becomes c { p with units := p.units.push x } :=
  ⟨rfl, fun _ y hy => ⟨y, units_push hy, .refl _ y⟩⟩

/-- A unit that came without slots has none. -/
theorem not_added_push (hs : x.slots = []) {v i : Nat} {z : CodeUnit} {n : PadName}
    (hz : (p.units.push x)[v]? = some z) (hn : z.slots[i]? = some (some n))
    (new : ∀ y, p.units[v]? = some y → y.slots.length ≤ i) : False := by
  rcases units_push_cases hz with ⟨-, rfl⟩ | hz
  · rw [hs] at hn
    cases hn
  · exact absurd (List.getElem?_eq_some_iff.mp hn).1 (Nat.not_lt.mpr (new z hz))

theorem WellNested.openUnit (h : p.WellNested) (hs : x.slots = [])
    (ho : ∀ o, x.outer = some o → o < p.units.size) :
    WellNested { p with units := p.units.push x } := by
  refine h.becomes (becomes_push 0 p x) (fun u y o hx hy ho' => ?_)
    fun u y i n k hy hn _ new => (not_added_push hs hy hn new).elim
  rcases units_push_cases hy with ⟨rfl, rfl⟩ | hy
  · exact ho o ho'
  · cases hx.symm.trans hy

theorem WellScoped.openUnit (h : p.WellScoped) (hs : x.slots = [])
    (ho : ∀ o, x.outer = some o → o < p.units.size) (hc : x.outerSequence ≤ p.clock) :
    WellScoped { p with units := p.units.push x } := by
  refine h.becomes (becomes_push p.clock p x) le_rfl (h.toWellNested.openUnit hs ho)
    (fun u y o hx hy ho' => ?_) fun u y i n k hy hn _ new => (not_added_push hs hy hn new).elim
  rcases units_push_cases hy with ⟨rfl, rfl⟩ | hy
  · exact hc
  · cases hx.symm.trans hy

end

end ScriptCore.Pads

namespace ScriptCore.CodeUnit
variable {c : UInt32} {x : CodeUnit}

/-- A change of each name that keeps what was declared. -/
theorem step_map {f : Nat → PadName → PadName} {y : CodeUnit} (ho : y.outer = x.outer)
    (hs : y.outerSequence = x.outerSequence)
    (hy : ∀ i : Nat, y.slots[i]? = (x.slots[i]?).map (Option.map (f i)))
    (hf : ∀ (i : Nat) (n : PadName), n.Becomes c (f i n)) : x.Step c y where
  outer := ho
  outerSequence := hs
  old := retains_map hy hf
  added i n le hn := by
    rw [hy, List.getElem?_eq_none le] at hn
    cases hn
  own i n le hn := by
    rw [hy, List.getElem?_eq_none le] at hn
    cases hn

theorem step_addSlot {n : Option PadName}
    (h : ∀ m, n = some m → m.isCaptured = false ∧ ∀ s ≤ c, ¬ m.DeclaredAt s) :
    x.Step c (x.addSlot n) where
  toBecomes := becomes_addSlot c x n x.captures fun m hm _ => (h m hm).2
  own i m le hm := by
    obtain ⟨-, e⟩ := getElem?_addSlot le hm
    exact (h m e.symm).1

theorem slots_introduce (x : CodeUnit) (sequence : UInt32) (i : Nat) :
    (x.introduce sequence).slots[i]? =
    (x.slots[i]?).map (Option.map fun n =>
      if n.isPending then { n with introduced := some sequence } else n) := by
  simp [introduce]

theorem becomes_introduced {n : PadName} (pending : n.introduced = none) :
    n.Becomes c { n with introduced := some c } := by
  refine ⟨rfl, rfl, rfl, fun s hs => ?_⟩
  simp only [PadName.DeclaredAt, pending, Option.some.injEq, reduceCtorEq, false_and,
    exists_false, iff_false]
  rintro ⟨_, rfl, lt, -⟩
  exact absurd hs (not_le.mpr lt)

/-- Introducing names at a sequence changes nothing at sequences up to it. -/
theorem step_introduce : x.Step c (x.introduce c) := by
  refine step_map rfl rfl (slots_introduce x c) fun _ n => ?_
  split
  · rename_i pending
    simp only [PadName.isPending, Bool.and_eq_true, Option.isNone_iff_eq_none] at pending
    exact becomes_introduced pending.2
  · exact .refl c n

theorem closeName_of_captured {n : PadName} (h : n.isCaptured = true) : closeName c n = n := by
  simp [closeName, h]

theorem closeName_of_closed {n : PadName} {last : UInt32} (h : n.closed = some last) :
    closeName c n = n := by
  simp [closeName, PadName.isOpen, h]

theorem closeName_of_open {n : PadName} (own : n.isCaptured = false) (h : n.closed = none) :
    closeName c n = { n with introduced := n.introduced.or (some c), closed := some c } := by
  simp [closeName, PadName.isOpen, own, h]

/-- A name that is to be closed is captured, or closed already, or is closed now. -/
theorem closeName_cases (c : UInt32) (n : PadName) :
    closeName c n = n ∧ (n.isCaptured = true ∨ ∃ last, n.closed = some last) ∨
      n.isCaptured = false ∧ n.closed = none ∧
        closeName c n = { n with introduced := n.introduced.or (some c), closed := some c } := by
  cases own : n.isCaptured with
  | true => exact .inl ⟨closeName_of_captured own, .inl rfl⟩
  | false =>
    cases h : n.closed with
    | none => exact .inr ⟨rfl, rfl, closeName_of_open own h⟩
    | some last => exact .inl ⟨closeName_of_closed h, .inr ⟨last, rfl⟩⟩

theorem becomes_closeName (n : PadName) : n.Becomes c (closeName c n) := by
  rcases closeName_cases c n with ⟨same, -⟩ | ⟨-, isOpen, shut⟩
  · rw [same]
    exact .refl c n
  · rw [shut]
    refine ⟨rfl, rfl, rfl, fun s hs => ?_⟩
    simp only [PadName.DeclaredAt, isOpen]
    cases n.introduced with
    | none =>
      simp only [Option.none_or, Option.some.injEq, reduceCtorEq, false_and, exists_false,
        iff_false]
      rintro ⟨_, rfl, lt, -⟩
      exact absurd hs (not_le.mpr lt)
    | some first =>
      simp only [Option.some_or, Option.some.injEq, reduceCtorEq, false_implies, implies_true,
        and_true]
      constructor
      · rintro ⟨_, rfl, lt, -⟩
        exact ⟨first, rfl, lt⟩
      · rintro ⟨_, rfl, lt⟩
        exact ⟨first, rfl, lt, fun last e => e ▸ hs⟩

theorem getElem?_take_append_map {α : Type} (l : List α) (k : Nat) (g : α → α) (i : Nat) :
    (l.take k ++ (l.drop k).map g)[i]? = l[i]?.map fun a => if i < k then a else g a := by
  by_cases lt : i < l.length
  · rw [List.getElem?_append, List.length_take]
    by_cases h : i < k
    · rw [if_pos (by omega), List.getElem?_take_of_lt h]
      simp [h]
    · rw [if_neg (by omega), List.getElem?_map, List.getElem?_drop,
        show k + (i - min k l.length) = i by omega]
      simp [h]
  · have len : (l.take k ++ (l.drop k).map g).length = l.length := by simp; omega
    rw [List.getElem?_eq_none (by omega), List.getElem?_eq_none (by omega)]
    rfl

theorem slots_close (x : CodeUnit) (start : Nat) (sequence : UInt32) (i : Nat) :
    (x.close start sequence).slots[i]? =
      (x.slots[i]?).map (Option.map fun n => if i < start then n else closeName sequence n) := by
  rw [close, getElem?_take_append_map]
  congr 1
  funext n
  by_cases h : i < start <;> cases n <;> simp [h]

/-- Closing names at a sequence changes nothing at sequences up to it. -/
theorem step_close (start : Nat) (scopes : List Nat) :
    x.Step c (close { x with scopes } start c) := by
  refine step_map rfl rfl (slots_close { x with scopes } start c) fun i n => ?_
  split
  · exact .refl c n
  · exact becomes_closeName n

theorem slots_annotate (x : CodeUnit) (slot : Nat) (key : Key) (i : Nat) :
    (x.slots.modify slot (·.map fun n => { n with typeName := some key }))[i]? =
      (x.slots[i]?).map (Option.map fun n =>
        if i = slot then { n with typeName := some key } else n) := by
  simp only [List.getElem?_modify]
  by_cases h : i = slot
  · simp [h]
  · simp [h, Ne.symm h]

/-- The type of a name declares nothing. -/
theorem step_annotate (slot : Nat) (key : Key) : x.Step c { x with
    slots := x.slots.modify slot (·.map fun n => { n with typeName := some key }) } := by
  refine step_map rfl rfl (slots_annotate x slot key) fun i n => ?_
  split
  · exact ⟨rfl, rfl, rfl, fun _ _ => Iff.rfl⟩
  · exact .refl c n

theorem step_enterScope : x.Step c { x with scopes := x.scopes ++ [x.slots.length] } :=
  step_map (f := fun _ n => n) rfl rfl (fun i => by simp) fun _ n => .refl c n

end ScriptCore.CodeUnit

namespace ScriptCore.Pads
open Beside

/-! ### Directives keep the invariants -/

/-- Pads are well nested; and well scoped, unless the clock may have gone on `m` times and come
round. -/
structure ScopedTill (m : Nat) (p : Pads) : Prop where
  nests : p.WellNested
  scopes : m < 2 ^ 32 → p.WellScoped ∧ p.clock.toNat ≤ m

/-- The pads beside a heap are. -/
def Scoped (m : Nat) (s : Beside Pads) : Prop := s.own.ScopedTill m

section
variable {m : Nat}

theorem ScopedTill.later {m' : Nat} {p : Pads} (h : p.ScopedTill m) (le : m ≤ m') :
    p.ScopedTill m' := by
  refine ⟨h.nests, fun few => ?_⟩
  obtain ⟨scopes, clock⟩ := h.scopes (Nat.lt_of_le_of_lt le few)
  exact ⟨scopes, clock.trans le⟩

theorem ScopedTill.of_units {p q : Pads} (h : p.ScopedTill m) (units : q.units = p.units)
    (clock : q.clock = p.clock) : q.ScopedTill m := by
  refine ⟨h.nests.of_units units, fun few => ?_⟩
  obtain ⟨scopes, le⟩ := h.scopes few
  exact ⟨scopes.of_units units clock.ge, clock ▸ le⟩

theorem ScopedTill.changeUnit {p : Pads} (h : p.ScopedTill m) (u : Nat) {f : CodeUnit → CodeUnit}
    (hf : ∀ x : CodeUnit, x.Step p.clock (f x)) :
    ScopedTill m { p with units := p.units.modify u f } :=
  ⟨h.nests.changeUnit u hf, fun few => (h.scopes few).imp_left fun scopes => scopes.changeUnit u hf⟩

theorem ScopedTill.openUnit {p : Pads} (h : p.ScopedTill m) {x : CodeUnit} (hs : x.slots = [])
    (ho : ∀ o, x.outer = some o → o < p.units.size) (hc : x.outerSequence ≤ p.clock) :
    ScopedTill m { p with units := p.units.push x } :=
  ⟨h.nests.openUnit hs ho, fun few => (h.scopes few).imp_left fun scopes =>
    scopes.openUnit hs ho hc⟩

/-- The clock goes on, and may come round. -/
theorem ScopedTill.advance {p : Pads} (h : p.ScopedTill m) :
    ScopedTill (m + 1) { p with clock := p.clock + 1 } := by
  refine ⟨h.nests.of_units rfl, fun few => ?_⟩
  obtain ⟨scopes, clock⟩ := h.scopes (Nat.lt_of_succ_lt few)
  obtain ⟨on, next⟩ := lt_next (c := p.clock) (by omega)
  refine ⟨scopes.of_units rfl on.le, ?_⟩
  show (p.clock + 1).toNat ≤ m + 1
  omega

theorem ScopedTill.captured {p q : Pads} (h : p.ScopedTill m) (c : p.Captured q) :
    q.ScopedTill m :=
  ⟨c.nests, fun few => (h.scopes few).imp c.scopes fun le => c.widens.clock ▸ le⟩

theorem keeps_changeUnit (u : Nat) {f : CodeUnit → CodeUnit}
    (hf : ∀ (c : UInt32) (x : CodeUnit), x.Step c (f x)) : Keeps (Scoped m) (changeUnit u f) :=
  Keeps.changeSelf (P := ScopedTill m) fun _ h => h.changeUnit u fun x => hf _ x

/-- A change of a unit that depends on the clock. -/
theorem leads_changeUnit_clock (u : Nat) {f : UInt32 → CodeUnit → CodeUnit} {p : Pads}
    (hf : ∀ (c : UInt32) (x : CodeUnit), x.Step c (f c x)) {E : Beside Pads → Prop} :
    Leads (fun s => p = s.own ∧ Scoped m s) (changeUnit u (f p.clock)) (fun _ => Scoped m) E := by
  rintro s ⟨rfl, h⟩
  exact h.changeUnit u fun x => hf _ x

theorem leads_advance {E : Beside Pads → Prop} :
    Leads (Scoped m) advance (fun _ => Scoped (m + 1)) E := by
  intro s h
  exact h.advance

end

/-- Reading a unit. -/
theorem leads_unit {P : Beside Pads → Prop} (u : Nat) :
    Leads P (unit u) (fun x s => s.own.units[u]? = some x ∧ P s) P := by
  refine Leads.self.bind fun p => ?_
  cases hx : p.units[u]? with
  | none => exact Leads.throw fun _ h => h.2
  | some x => exact Leads.pure fun s h => ⟨h.1 ▸ hx, h.2⟩

theorem keeps_unit {P : Beside Pads → Prop} (u : Nat) : Keeps P (unit u) :=
  (leads_unit u).imp (fun _ h => h) (fun _ _ h => h.2) fun _ h => h

/-- Interning a name changes no unit. -/
theorem keeps_intern {P : Pads → Prop} (hP : ∀ p names, P p → P { p with interned := names })
    (name : String) : Keeps (fun s => P s.own) (intern name) :=
  Keeps.readHeap.bind fun _ => Keeps.self.bind fun _ => (Keeps.changeHeap _).bind fun _ =>
    (Keeps.changeSelf fun p hp => hP p _ hp).bind fun _ => Keeps.pure _

/-- Opening a unit keeps what interning names and adding a unit keep. -/
theorem keeps_openUnit_of {P : Beside Pads → Prop} (name : Option String) (outer : Option Nat)
    (interns : ∀ text, Keeps P (intern text))
    (opens : ∀ name, Keeps P (changeSelf fun p =>
      { p with units := p.units.push { name, outer, outerSequence := p.clock } })) :
    Keeps P (openUnit name outer) := by
  have names : Keeps P (name.mapM intern) := by
    cases name with
    | none => exact Keeps.pure _
    | some text => exact (interns text).bind fun _ => Keeps.pure _
  have opened : Keeps P (do
      let name ← name.mapM intern
      let p ← self
      changeSelf fun p =>
        { p with units := p.units.push { name, outer, outerSequence := p.clock } }
      return p.units.size) :=
    names.bind fun name => Keeps.self.bind fun _ => (opens name).bind fun _ => Keeps.pure _
  unfold openUnit
  cases outer with
  | none => exact opened
  | some o => exact (keeps_unit o).discard.bind fun _ => opened

section
variable {m : Nat}

theorem keeps_intern_scoped (name : String) : Keeps (Scoped m) (intern name) :=
  keeps_intern (P := ScopedTill m) (fun _ _ h => h.of_units rfl rfl) name

theorem keeps_openUnit (name : Option String) (outer : Option Nat) :
    Keeps (Scoped m) (openUnit name outer) := by
  -- what the check of `outer` leaves behind, on which the new unit relies
  let P (p : Pads) : Prop := (∀ o, outer = some o → o < p.units.size) ∧ p.ScopedTill m
  have names : Keeps (fun s => P s.own) (name.mapM intern) := by
    cases name with
    | none => exact Keeps.pure _
    | some text =>
      exact (keeps_intern (fun _ _ h => ⟨h.1, h.2.of_units rfl rfl⟩) text).bind fun _ =>
        Keeps.pure _
  have rest : Leads (fun s => P s.own) (do
      let name ← name.mapM intern
      let p ← self
      changeSelf fun p =>
        { p with units := p.units.push { name, outer, outerSequence := p.clock } }
      return p.units.size) (fun _ => Scoped m) (Scoped m) := by
    refine (names.imp (fun _ h => h) (fun _ _ h => h) fun _ h => h.2).bind fun name =>
      Leads.bind (Q := fun _ (s : Beside Pads) => P s.own) (fun _ h => h) fun p => ?_
    refine Leads.bind (Q := fun _ => Scoped m) (fun s h => ?_) fun _ => Keeps.pure _
    exact h.2.openUnit rfl (fun o ho => h.1 o ho) le_rfl
  unfold openUnit
  cases outer with
  | none => exact rest.imp (fun s h => ⟨by simp, h⟩) (fun _ _ h => h) fun _ h => h
  | some o =>
    refine Leads.bind (Q := fun _ s => P s.own) ?_ fun _ => rest
    refine (leads_unit o).bind fun x => Leads.pure ?_
    rintro s ⟨hx, h⟩
    refine ⟨fun o' e => ?_, h⟩
    obtain rfl := Option.some.inj e
    exact (Array.getElem?_eq_some_iff.mp hx).1

/-- Adding a slot that depends on the clock. -/
theorem leads_addSlot_clock (u : Nat) {n : UInt32 → PadName} {p : Pads}
    (own : ∀ c, (n c).isCaptured = false) (hn : ∀ c, ∀ s ≤ c, ¬ (n c).DeclaredAt s) :
    Leads (fun s => p = s.own ∧ Scoped m s) (addSlot u (some (n p.clock))) (fun _ => Scoped m)
      (Scoped m) := by
  refine Leads.bind ((keeps_unit u).imp (fun _ h => h) (fun _ _ h => h) fun _ h => h.2)
    fun x => ?_
  refine (leads_changeUnit_clock u (f := fun c => (·.addSlot (some (n c)))) fun c x =>
    CodeUnit.step_addSlot fun m hm => ?_).bind fun _ => Keeps.pure _
  obtain rfl := Option.some.inj hm
  exact ⟨own c, hn c⟩

theorem keeps_addSlot (u : Nat) {n : Option PadName}
    (hn : ∀ m, n = some m → m.isCaptured = false ∧ m.introduced = none) :
    Keeps (Scoped m) (addSlot u n) := by
  refine (keeps_unit u).bind fun x => (keeps_changeUnit u fun c x => ?_).bind fun _ =>
    Keeps.pure _
  refine CodeUnit.step_addSlot fun m hm => ⟨(hn m hm).1, fun s _ => ?_⟩
  rintro ⟨_, e, -⟩
  rw [(hn m hm).2] at e
  cases e

theorem keeps_declare (u : Nat) (name : String) (sigil : Sigil) (declarator : Declarator) :
    Keeps (Scoped m) (declare u name sigil declarator) := by
  refine (keeps_intern_scoped name).bind fun key => (keeps_unit u).bind fun x => ?_
  have add := keeps_addSlot (m := m) u (n := some { name := key, sigil, declarator }) fun m hm => by
    obtain rfl := Option.some.inj hm
    exact ⟨rfl, rfl⟩
  split
  · exact (Keeps.onHeap (P := ScopedTill m) _).bind fun _ => add
  · exact add

theorem keeps_annotate (u slot : Nat) (typeName : String) :
    Keeps (Scoped m) (annotate u slot typeName) := by
  refine (keeps_intern_scoped typeName).bind fun key => (keeps_unit u).discard.bind fun _ =>
    keeps_changeUnit u fun c x => CodeUnit.step_annotate slot key

theorem keeps_addPrototype (u nested : Nat) : Keeps (Scoped m) (addPrototype u nested) := by
  unfold addPrototype
  refine (keeps_unit nested).bind fun x => ?_
  dsimp only
  split
  · exact Leads.bind (Q := fun _ _ => False) (Leads.throw fun _ h => h) fun _ _ h => h.elim
  · refine (keeps_intern_scoped _).bind fun key => Leads.self.bind fun p => ?_
    refine leads_addSlot_clock u
      (n := fun c => { name := key, sigil := .code, origin := .prototype nested
                       introduced := some c })
      (fun _ => rfl) fun c s le => ?_
    rintro ⟨_, e, lt, -⟩
    obtain rfl := Option.some.inj e
    exact absurd le (not_le.mpr lt)

/-- What keeps them is known to lead to them later. -/
theorem leads_later {α : Type} {x : OnPads α} (keeps : Keeps (Scoped m) x) :
    Leads (Scoped m) x (fun _ => Scoped m) (Scoped (m + 1)) :=
  keeps.imp (fun _ h => h) (fun _ _ h => h) fun _ h => h.later (Nat.le_succ m)

theorem leads_introduce (u : Nat) :
    Leads (Scoped m) (introduce u) (fun _ => Scoped (m + 1)) (Scoped (m + 1)) := by
  refine (leads_later (keeps_unit u).discard).bind fun _ => ?_
  refine (Leads.self.imp (fun _ h => h) (fun _ _ h => h) fun _ h => h.later (Nat.le_succ m)).bind
    fun p => ?_
  refine (leads_changeUnit_clock u (f := fun c => (·.introduce c)) fun c x =>
    CodeUnit.step_introduce).bind fun _ => ?_
  exact Leads.bind (leads_advance.bind fun _ => Keeps.pure _) fun _ => Keeps.pure _

theorem keeps_enterScope (u : Nat) : Keeps (Scoped m) (enterScope u) := by
  exact (keeps_unit u).bind fun x =>
    (keeps_changeUnit u fun c x => CodeUnit.step_enterScope).bind fun _ => Keeps.pure _

theorem leads_leaveScope (mark : ScopeMark) :
    Leads (Scoped m) (leaveScope mark) (fun _ => Scoped (m + 1)) (Scoped (m + 1)) := by
  refine (leads_later (keeps_unit mark.unit).discard).bind fun _ => ?_
  refine (Leads.self.imp (fun _ h => h) (fun _ _ h => h) fun _ h => h.later (Nat.le_succ m)).bind
    fun p => ?_
  refine (leads_changeUnit_clock mark.unit
    (f := fun c x => CodeUnit.close { x with scopes := x.scopes.take (mark.depth - 1) }
      mark.start c) fun c x => CodeUnit.step_close _ _).bind fun _ => ?_
  exact leads_advance.bind fun _ => Keeps.pure _

/-- Changing the pads to what an invariant-keeping search left of them. -/
theorem keeps_search {P : Pads → Prop} {f : Pads → Option (Nat × Pads)}
    (hf : ∀ p i q, P p → f p = some (i, q) → P q) :
    Keeps (fun s : Beside Pads => P s.own) (changeSelf fun p => ((f p).map (·.2)).getD p) := by
  refine Keeps.changeSelf (P := P) fun p h => ?_
  cases e : f p with
  | none => exact h
  | some found => exact hf p found.1 found.2 h e

theorem WellNested.of_capture {p q : Pads} {u i : Nat} {text : String} {sigil : Sigil}
    (h : p.WellNested) (e : p.capture u text sigil = some (i, q)) : p.Captured q := by
  have := h.capture u text sigil
  rw [e] at this
  exact this.1

theorem WellNested.of_lookup {p q : Pads} {u i : Nat} {text : String} {sigil : Sigil}
    (h : p.WellNested) (e : p.lookup u text sigil = some (i, q)) : p.Captured q := by
  unfold Pads.lookup at e
  split at e
  · obtain ⟨-, rfl⟩ := Prod.mk.inj (Option.some.inj e)
    exact .refl h
  · exact h.of_capture e

/-- **Every directive keeps the invariants** of units and scopes, while the clock has not come
round. -/
theorem leads_perform (d : Directive) :
    Leads (Scoped m) d.perform (fun _ => Scoped (m + d.ticks)) (Scoped (m + d.ticks)) := by
  cases d with
  | openUnit name outer => exact (keeps_openUnit name outer).discard
  | declare u name sigil declarator => exact (keeps_declare u name sigil declarator).discard
  | annotate u slot typeName => exact keeps_annotate u slot typeName
  | addTemporary u => exact (keeps_addSlot u (n := none) (by simp)).discard
  | addPrototype u nested => exact (keeps_addPrototype u nested).discard
  | introduce u => exact (leads_introduce u).bind fun _ => Keeps.pure _
  | advance => exact leads_advance.bind fun _ => Keeps.pure _
  | enterScope u => exact (keeps_enterScope u).discard
  | leaveScope mark => exact leads_leaveScope mark
  | capture u name sigil =>
    exact keeps_search (P := ScopedTill m) fun _ _ _ h e => h.captured (h.nests.of_capture e)
  | lookup u name sigil =>
    exact keeps_search (P := ScopedTill m) fun _ _ _ h e => h.captured (h.nests.of_lookup e)

end

/-- Every directive keeps the invariant of units. -/
theorem keeps_perform (d : Directive) : Keeps (fun s => s.own.WellNested) d.perform :=
  -- once the clock may have come round, nothing is said of scopes
  (leads_perform (m := 2 ^ 32) d).imp
    (fun _ h => ⟨h, fun few => absurd few (Nat.lt_irrefl _)⟩) (fun _ _ h => h.nests)
    fun _ h => h.nests

theorem scopedTill_inPool (ring : Keyring) (pool : Nat) : (inPool ring pool).ScopedTill 1 := by
  have nests : (inPool ring pool).WellNested :=
    ⟨fun u x o hx => by simp [inPool] at hx, fun u x i n k hx => by simp [inPool] at hx⟩
  refine ⟨nests, fun _ => ⟨⟨nests, fun u x o hx => ?_, fun u x i n k hx => ?_⟩, le_rfl⟩⟩ <;>
    simp [inPool] at hx

theorem wellNested_inPool (ring : Keyring) (pool : Nat) : (inPool ring pool).WellNested :=
  (scopedTill_inPool ring pool).nests

/-- All pads that compiling reaches are well nested. -/
theorem wellNested_compile (ds : List Directive) {s : Beside Pads} (h : s.own.WellNested) :
    (compile ds s).own.WellNested := by
  unfold compile
  induction ds generalizing s with
  | nil => exact h
  | cons d ds ih => exact ih ((keeps_perform d).after h)

/-- They are well scoped, unless the clock may have come round. -/
theorem scopedTill_compile {m : Nat} (ds : List Directive) {s : Beside Pads}
    (h : s.own.ScopedTill m) : (compile ds s).own.ScopedTill (m + ticks ds) := by
  unfold compile
  induction ds generalizing s m with
  | nil => exact h
  | cons d ds ih =>
    have done := ih ((leads_perform d).after h (fun _ => id) id)
    rwa [Nat.add_assoc] at done

end ScriptCore.Pads
