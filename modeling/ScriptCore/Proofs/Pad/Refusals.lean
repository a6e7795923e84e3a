import ScriptCore.Proofs.Pad.Pools
import ScriptCore.Proofs.Pad.Sweeping

/-!
# Pad — what a refused operation leaves

An operation on pads is refused if it names a unit that is not there, a unit or an activation that
lies elsewhere, or a handle that is stale.  What it was given is looked at before anything is done,
but that to declare a name or a type interns it first.

* `Op.Grants`: what an operation needs.
* `run_refuses`: at any time of any run an operation succeeds exactly where it is granted.  Refused,
  it leaves everything as it was, except for a name that it interned first.
* `not_declare_atomic`: that name has one user more.
-/

namespace ScriptCore.Pads
open Beside Key

/-- What a directive needs: the units that it names, and a nested one inside the one around it. -/
def Directive.Grants (p : Pads) : Directive → Prop
  | openUnit _ outer => ∀ o, outer = some o → o < p.units.size
  | declare u _ _ _ | annotate u _ _ | addTemporary u | introduce u | enterScope u =>
    u < p.units.size
  | addPrototype u nested => ∃ x, p.units[nested]? = some x ∧ x.outer = some u
  | leaveScope mark => mark.unit < p.units.size
  | advance | capture _ _ _ | lookup _ _ _ => True

/-- The name that a directive interns before it looks for the unit. -/
def Directive.internsFirst : Directive → Option String
  | declare _ name _ _ | annotate _ _ name => some name
  | _ => none

/-- What an operation on pads needs: the unit and an activation of the one around it, or a handle
that is live. -/
def Op.Grants (p : Pads) : Op → Prop
  | compile d => d.Grants p
  | activate u outer | makeClosure u outer => p.Admits u outer
  | push id | pop id | release id => (p.activation? id).isSome = true
  | cell id slot => (p.cellAt? id slot).isSome = true
  | sweep | onHeap _ => True

/-- A name was interned, and nothing else happened. -/
def interning (name : String) (s : Beside Pads) : Beside Pads :=
  let result := s.heap.ring.intern s.own.pool (.ofText name)
  ⟨{ s.heap with ring := result.2 }, { s.own with interned := s.own.interned ++ [result.1] }⟩

theorem intern_eq (name : String) (s : Beside Pads) :
    intern name s = .ok (s.heap.ring.intern s.own.pool (.ofText name)).1 (interning name s) := rfl

theorem declare_missing {u : Nat} {s : Beside Pads} (none : s.own.units[u]? = none) (name : String)
    (sigil : Sigil) (declarator : Declarator) :
    declare u name sigil declarator s = .error (.mismatch .foreignUnit) (interning name s) :=
  (bind_ok (intern_eq name s)).trans (bind_error (unit_missing none))

/-- What a directive that is refused leaves. -/
def Directive.residue (d : Directive) (s : Beside Pads) : Beside Pads :=
  d.internsFirst.elim s (interning · s)

/-- The operation was refused: it was not granted, and leaves at most a name.  One on the heap may
fail otherwise, and leaves the pads as they were. -/
def Op.Refused (s t : Beside Pads) : Op → Prop
  | compile d => ¬ d.Grants s.own ∧ t = d.residue s
  | onHeap _ => t.own = s.own
  | op => ¬ op.Grants s.own ∧ t = s

section
variable {h₀ : Heap} {out held : List CellId} {s : Beside Pads} {u : Nat} {α : Type}
  {E : Beside Pads → Prop}

/-! ### Compiling -/

/-- A unit is looked for, and what is done where it is found does not fail. -/
theorem ends_where_unit {f : CodeUnit → OnPads α} (missing : ¬ u < s.own.units.size → E s)
    (done : ∀ x, s.own.units[u]? = some x → Ends (f x) s (fun _ _ => True) fun _ => False) :
    Ends (unit u >>= f) s (fun _ _ => u < s.own.units.size) E := by
  refine ((ends_unit u s).imp (fun _ _ q => q) ?_).bind ?_
  · rintro t ⟨rfl, hx⟩
    exact missing (Nat.not_lt.mpr (Array.getElem?_eq_none_iff.mp hx))
  · rintro x t ⟨rfl, hx⟩
    have there := (Array.getElem?_eq_some_iff.mp hx).1
    exact (done x hx).imp (fun _ _ _ => there) fun _ => False.elim

theorem ends_addSlot_unit (n : Option PadName) (missing : ¬ u < s.own.units.size → E s) :
    Ends (addSlot u n) s (fun _ _ => u < s.own.units.size) E :=
  ends_where_unit missing fun _ _ => trivial

/-- So it is where nothing of the unit is used. -/
theorem ends_where_found {f : Unit → OnPads α} (missing : ¬ u < s.own.units.size → E s)
    (done : ∀ x, s.own.units[u]? = some x → Ends (f ()) s (fun _ _ => True) fun _ => False) :
    Ends (discard (unit u) >>= f) s (fun _ _ => u < s.own.units.size) E := by
  have same : (discard (unit u) >>= f) s = (unit u >>= fun _ => f ()) s := by
    show EStateM.bind (EStateM.map _ (unit u)) f s = EStateM.bind (unit u) (fun _ => f ()) s
    unfold EStateM.bind EStateM.map
    cases unit u s <;> rfl
  exact (ends_where_unit missing done).of_eq same

theorem ends_openUnit_unit (name : Option String) (outer : Option Nat) :
    Ends (openUnit name outer) s (fun _ _ => ∀ o, outer = some o → o < s.own.units.size)
      fun t => (¬ ∀ o, outer = some o → o < s.own.units.size) ∧ t = s := by
  have opened (t : Beside Pads) : Ends (do
      let name ← name.mapM Pads.intern
      let p ← self
      changeSelf fun p =>
        { p with units := p.units.push { name, outer, outerSequence := p.clock } }
      return p.units.size : OnPads Nat) t (fun _ _ => True) fun _ => False := by
    cases name <;> trivial
  unfold Pads.openUnit
  cases outer with
  | none => exact (opened s).imp (fun _ _ _ => nofun) fun _ => False.elim
  | some o =>
    have found : (∀ o', some o = some o' → o' < s.own.units.size) ↔ o < s.own.units.size := by
      simp only [Option.some.injEq, forall_eq']
    rw [found]
    exact ends_where_found (fun missing => ⟨missing, rfl⟩) fun _ _ => opened s

theorem ends_declare_unit (name : String) (sigil : Sigil) (declarator : Declarator) :
    Ends (declare u name sigil declarator) s (fun _ _ => u < s.own.units.size)
      fun t => ¬ u < s.own.units.size ∧ t = interning name s := by
  refine Ends.step (intern_eq name s) (ends_where_unit (fun missing => ⟨missing, rfl⟩) ?_)
  intro x hx
  have added (t : Beside Pads) (units : t.own.units = s.own.units) (n : Option PadName) :
      Ends (addSlot u n) t (fun _ _ => True) fun _ => False :=
    Ends.step (unit_eq (units ▸ hx)) trivial
  split
  · exact Ends.step rfl (added _ (by rfl) _)
  · exact added _ (by rfl) _

theorem ends_addPrototype_unit (nests : s.own.WellNested) (nested : Nat) :
    Ends (addPrototype u nested) s
      (fun _ _ => ∃ x, s.own.units[nested]? = some x ∧ x.outer = some u)
      fun t => (¬ ∃ x, s.own.units[nested]? = some x ∧ x.outer = some u) ∧ t = s := by
  refine ((ends_unit nested s).imp (fun _ _ q => q) ?_).bind ?_
  · rintro t ⟨rfl, none⟩
    refine ⟨?_, rfl⟩
    rintro ⟨x, hx, -⟩
    cases none.symm.trans hx
  rintro x t ⟨rfl, hx⟩
  dsimp only
  split
  · rename_i elsewhere
    refine ⟨?_, rfl⟩
    rintro ⟨y, hy, outer⟩
    cases hx.symm.trans hy
    exact elsewhere outer
  · rename_i inside
    have inside := Decidable.not_not.mp inside
    -- the unit around one that is there is there too
    have lt := (nests.nested nested x u hx inside).trans (Array.getElem?_eq_some_iff.mp hx).1
    refine Ends.step (intern_eq _ t) (Ends.self ?_)
    refine Ends.step (unit_eq (Array.getElem?_eq_getElem lt)) ?_
    exact ⟨x, hx, inside⟩

/-- **A directive** is carried out where it is granted, and refused it leaves no more than a
name. -/
theorem ends_perform_granted (nests : s.own.WellNested) (d : Directive) :
    Ends d.perform s (fun _ _ => d.Grants s.own)
      fun t => ¬ d.Grants s.own ∧ t = d.residue s := by
  cases d with
  | openUnit name outer => exact (ends_openUnit_unit name outer).discard
  | declare u name sigil declarator => exact (ends_declare_unit name sigil declarator).discard
  | annotate u slot name =>
    exact Ends.step (intern_eq name s)
      (ends_where_found (fun missing => ⟨missing, rfl⟩) fun _ _ => trivial)
  | addTemporary u => exact (ends_addSlot_unit none fun missing => ⟨missing, rfl⟩).discard
  | addPrototype u nested => exact (ends_addPrototype_unit nests nested).discard
  | introduce u =>
    exact Ends.discard (ends_where_found (fun missing => ⟨missing, rfl⟩) fun _ _ => trivial)
  | advance => trivial
  | enterScope u =>
    exact Ends.discard (ends_where_unit (fun missing => ⟨missing, rfl⟩) fun _ _ => trivial)
  | leaveScope mark => exact ends_where_found (fun missing => ⟨missing, rfl⟩) fun _ _ => trivial
  | capture u name sigil => trivial
  | lookup u name sigil => trivial

/-! ### Running -/

/-- **Ending a call** is granted for every live handle. -/
theorem ends_pop_granted (b : Balanced h₀ out s) (id : ActivationId) :
    Ends (pop id) s (fun _ _ => (s.own.activation? id).isSome = true)
      fun t => ¬ (s.own.activation? id).isSome = true ∧ t = s := by
  cases ha : s.own.activation? id with
  | none => exact Ends.of_eq (t := s) (y := throw _) (isStale ha).pop ⟨Bool.false_ne_true, rfl⟩
  | some a =>
    cases frame : a.base with
    | none => exact (ends_pop_base b ha frame).imp (fun _ _ _ => rfl) fun _ => False.elim
    | some base => exact (ends_pop_frame b ha frame).imp (fun _ _ _ => rfl) fun _ => False.elim

theorem ends_release_granted (id : ActivationId) :
    Ends (release id) s (fun _ _ => (s.own.activation? id).isSome = true)
      fun t => ¬ (s.own.activation? id).isSome = true ∧ t = s := by
  cases ha : s.own.activation? id with
  | none => exact Ends.of_eq (t := s) (y := throw _) (isStale ha).release ⟨Bool.false_ne_true, rfl⟩
  | some a =>
    refine ((ends_remove id s).imp (fun _ _ _ => rfl) ?_).bind fun _ _ there => there
    rintro t ⟨-, none⟩
    cases ha.symm.trans none

theorem ends_push_granted (b : Balanced h₀ out s) (id : ActivationId) :
    Ends (push id) s (fun _ _ => (s.own.activation? id).isSome = true)
      fun t => ¬ (s.own.activation? id).isSome = true ∧ t = s := by
  refine (ends_push b id).imp (fun _ t q => ?_) ?_
  · obtain ⟨a, ha, -⟩ := q.2.runs
    exact ha ▸ rfl
  · rintro t ⟨rfl, none⟩
    exact ⟨by rw [none]; exact Bool.false_ne_true, rfl⟩

theorem ends_cell_granted (id : ActivationId) (slot : Nat) :
    Ends (Op.act held (.cell id slot)) s (fun _ _ => (s.own.cellAt? id slot).isSome = true)
      fun t => ¬ (s.own.cellAt? id slot).isSome = true ∧ t = s := by
  refine Ends.bind (Q := fun _ _ => (s.own.cellAt? id slot).isSome = true) ?_ fun _ _ there => there
  refine ((ends_activation id s).imp (fun _ _ q => q) ?_).bind ?_
  · rintro t ⟨rfl, none⟩
    exact ⟨by rw [cellAt?, none]; exact Bool.false_ne_true, rfl⟩
  rintro a t ⟨rfl, ha⟩
  rw [cellAt?_eq ha]
  cases a.cells[slot]? with
  | none => exact ⟨Bool.false_ne_true, rfl⟩
  | some i => exact rfl

theorem ends_makeClosure_granted (b : Balanced h₀ out s) (outer : Option ActivationId) :
    Ends (makeClosure u outer) s (fun _ _ => s.own.Admits u outer)
      fun t => ¬ s.own.Admits u outer ∧ t = s := by
  refine (ends_activate b u outer).bind ?_
  rintro id t ⟨admits, activates⟩
  obtain ⟨child, clone⟩ := activates.cloned.clone
  obtain ⟨a, x, ha, hx, -⟩ := clone.live
  exact (ends_closureOf activates.balanced hx ha).imp (fun _ _ _ => admits) fun _ => False.elim

/-- **An operation** is carried out where it is granted, and refused it leaves no more than a
name. -/
theorem Balanced.ends_act (b : Balanced h₀ out s) (tallies : s.own.Tallies) (held : List CellId)
    (op : Op) : Ends (op.act held) s (fun _ _ => op.Grants s.own) (op.Refused s) := by
  have only {α : Type} {x : OnPads α} {P : Prop} {E : Beside Pads → Prop}
      (hx : Ends x s (fun _ _ => P) E) : Ends (Op.only held x) s (fun _ _ => P) E :=
    hx.discard.bind fun _ _ there => there
  cases op with
  | compile d => exact only (ends_perform_granted b.formed.nested d)
  | activate u outer => exact only ((ends_activate b u outer).imp (fun _ _ q => q.1) fun _ e => e)
  | makeClosure u outer => exact (ends_makeClosure_granted b outer).bind fun _ _ admits => admits
  | push id => exact only (ends_push_granted b id)
  | pop id => exact only (ends_pop_granted b id)
  | release id => exact only (ends_release_granted id)
  | sweep =>
    obtain ⟨gone, t, swept, -⟩ := b.sweeps tallies
    exact only (Ends.of_ok swept trivial)
  | cell id slot => exact ends_cell_granted id slot
  | onHeap op => exact (Ends.of_after rfl).lift.imp (fun _ _ _ => trivial) fun _ e => e.1

end

/-- A name that was interned has one user more in its pool, and nothing else has. -/
theorem Pooled.users_interning {since : Keyring} {pool : Nat} {s : Beside Pads}
    (h : Pooled since pool s) (name : String) {q : Nat} (hq : q < since.pools.size)
    (y : Spelling) : ((interning name s).heap.ring.pool q).users y = (s.heap.ring.pool q).users y +
      if pool = q ∧ (Spelling.ofText name).letters = y.letters then 1 else 0 := by
  rw [← h.size] at hq
  rw [← h.home]
  exact h.exact.users_intern hq s.own.pool (.ofText name) y

/-- **What a refused operation leaves**, at any time of any run.  An operation on pads succeeds
exactly where it is granted.  Refused, it changes nothing at all, but that a directive which interns
a name first leaves it interned: one key of the pads' pool has one user more. -/
theorem run_refuses (seeds : Array Seed) (supply : Supply) (pool : Nat) (ops : List Op)
    (held : List CellId) (op : Op) :
    let s := reached seeds supply pool ops
    (match op.act held s with
      | .ok _ _ => op.Grants s.own
      | .error _ t => op.Refused s t) ∧
    ∀ name, ∀ q < seeds.size, ∀ y : Spelling,
      ((interning name s).heap.ring.pool q).users y = (s.heap.ring.pool q).users y +
        if pool = q ∧ (Spelling.ofText name).letters = y.letters then 1 else 0 := by
  intro s
  have balanced := (balanced_start seeds supply pool).run ops
  have tallies :=
    (balanced_start seeds supply pool).tallies_run (tallies_start seeds supply pool) ops
  have pooled : Pooled _ pool s := pooled_reached seeds supply pool ops
  refine ⟨?_, fun name q hq y => pooled.users_interning name ?_ y⟩
  · have ended : Ends (op.act held) s _ _ := balanced.ends_act tallies held op
    unfold Ends at ended
    split <;> rename_i e <;> rw [e] at ended <;> exact ended
  · rwa [Keyring.ofSeeds, Array.size_map]

/-- A refused operation may change how many users a key has: here a name is declared in a unit that
is not there. -/
theorem not_declare_atomic :
    ¬ ∀ (seeds : Array Seed) (supply : Supply) (pool : Nat) (ops : List Op) (u : Nat)
      (name : String) (sigil : Sigil) (declarator : Declarator) (e : Fault) (t : Beside Pads),
      declare u name sigil declarator (reached seeds supply pool ops) = .error e t →
      ∀ q < seeds.size, ∀ y : Spelling, (t.heap.ring.pool q).users y =
        ((reached seeds supply pool ops).heap.ring.pool q).users y := by
  intro h
  let s := reached #[default] {} 0 [.compile (.openUnit none none)]
  have missing : s.own.units[5]? = none := by decide +kernel
  have refused := declare_missing missing "x" .scalar .my
  have same := h _ _ _ _ _ _ _ _ _ _ refused 0 (by decide) (.ofText "x")
  exact absurd same (by decide +kernel)

end ScriptCore.Pads
