import ScriptCore.Proofs.Heap.Audit
import ScriptCore.Proofs.Pad.Running

/-!
# Pad — the ledger beside pads

Pads have the names that were interned for their units, and no hash of theirs shares a pool.  Only
to intern a name puts it on the account of the pads (`Audited.keeps_intern`); whatever else is
compiled and run is on cells, as far as keys go.

* `Audited.keeps_act`: whatever a host does to pads keeps the ledger.
* `Audited.dispose`: who gives up pads gives their names back.
-/

namespace ScriptCore.Pads
open Beside Key Heap

/-- What pads have, beside others with an account of theirs. -/
def charge (a : Account) (p : Pads) : Account :=
  { a with own := fun q x => a.own q x + if some p.pool = some q then tally x p.interned else 0 }

/-- The ledger beside pads. -/
abbrev Audited (a : Account) (pool : Nat) : Beside Pads → Prop :=
  Charged (charge a) (·.pool = pool)

section
variable {a : Account} {pool : Nat} {α : Type}

/-- **Interning** puts a name on the account of the pads. -/
theorem Audited.keeps_intern (name : String) : Keeps (Audited a pool) (Pads.intern name) := by
  intro s c
  have held : Ledger { a with own := fun q x => a.own q x +
      (if (some s.own.pool) = some q then tally x s.own.interned else 0) } s.heap := c.ledger
  exact ⟨held.intern (.ofText name), c.fine⟩

/-! ### What concerns no key -/

theorem Audited.keeps_changeSelf {f : Pads → Pads} (same : ∀ p, (f p).pool = p.pool)
    (names : ∀ p, (f p).interned = p.interned) : Keeps (Audited a pool) (changeSelf f) :=
  Charged.keeps_changeSelf (fun p => by simp only [charge, same, names])
    fun p home => (same p).trans home

theorem Audited.keeps_letGo (is : List CellId) :
    Keeps (Audited a pool) (changeHeap (·.letGo is)) :=
  Charged.keeps_changeHeap fun _ _ l => l.letGo is

theorem Audited.keeps_changeUnit (u : Nat) (f : CodeUnit → CodeUnit) :
    Keeps (Audited a pool) (changeUnit u f) := keeps_changeSelf (fun _ => rfl) fun _ => rfl

theorem Audited.keeps_changeActivation (id : ActivationId) (f : Activation → Activation) :
    Keeps (Audited a pool) (changeActivation id f) :=
  keeps_changeSelf (fun p => by split <;> rfl)
    fun p => by split <;> rfl

/-! ### Compiling -/

/-- The pads have the names they had, in the same pool. -/
def NamesAlike (p q : Pads) : Prop := q.pool = p.pool ∧ q.interned = p.interned

theorem NamesAlike.standIn {p q : Pads} {u o slot : Nat} {name : Key} {sigil : Sigil}
    {found : Nat × Pads} (h : NamesAlike p q) (e : q.standIn u o name sigil slot = some found) :
    NamesAlike p found.2 := by
  rcases pads_of_standIn e with same | ⟨x, m, -, added⟩
  · exact same ▸ h
  · exact added ▸ h

theorem Audited.keeps_search {f : Pads → Option (Nat × Pads)}
    (names : ∀ p found, f p = some found → NamesAlike p found.2) :
    Keeps (Audited a pool) (changeSelf fun p => ((f p).map (·.2)).getD p) := by
  have same (p : Pads) : NamesAlike p (((f p).map (·.2)).getD p) := by
    cases e : f p with
    | none => exact ⟨rfl, rfl⟩
    | some found => exact names p _ e
  exact keeps_changeSelf (fun p => (same p).1) fun p => (same p).2

theorem Audited.keeps_addSlot (u : Nat) (n : Option PadName) :
    Keeps (Audited a pool) (addSlot u n) :=
  (keeps_unit u).bind fun _ => (keeps_changeUnit u _).bind fun _ => Keeps.pure _

theorem Audited.keeps_advance : Keeps (Audited a pool) advance := by
  refine Keeps.bind (keeps_changeSelf ?_ ?_) fun _ => Keeps.self.bind fun _ => Keeps.pure _
  · exact fun _ => rfl
  · exact fun _ => rfl

/-- **Compiling** interns names, and does nothing else to keys. -/
theorem Audited.keeps_directive (d : Directive) : Keeps (Audited a pool) d.perform := by
  cases d with
  | openUnit name outer =>
    refine (keeps_openUnit_of name outer keeps_intern fun name => ?_).discard
    exact keeps_changeSelf (fun _ => rfl) fun _ => rfl
  | declare u name sigil declarator =>
    refine Keeps.discard ((keeps_intern name).bind fun key => (keeps_unit u).bind fun x => ?_)
    dsimp only
    split
    · refine (Charged.keeps_onHeap fun _ => Ledger.keeps_report _ _).bind fun _ => ?_
      exact keeps_addSlot u _
    · exact keeps_addSlot u _
  | annotate u slot typeName =>
    refine (keeps_intern typeName).bind fun key => (keeps_unit u).discard.bind fun _ => ?_
    exact keeps_changeUnit u _
  | addTemporary u => exact (keeps_addSlot u none).discard
  | addPrototype u nested =>
    refine Keeps.discard ((keeps_unit nested).bind fun x => ?_)
    dsimp only
    split
    · exact Keeps.throw _
    · exact (keeps_intern _).bind fun name => Keeps.self.bind fun p => keeps_addSlot u _
  | introduce u =>
    refine Keeps.discard ((keeps_unit u).discard.bind fun _ => Keeps.self.bind fun p => ?_)
    exact (keeps_changeUnit u _).bind fun _ => keeps_advance.discard.bind fun _ => Keeps.pure _
  | advance => exact keeps_advance.discard
  | enterScope u =>
    exact Keeps.discard ((keeps_unit u).bind fun x => (keeps_changeUnit u _).bind fun _ =>
      Keeps.pure _)
  | leaveScope mark =>
    refine (keeps_unit mark.unit).discard.bind fun _ => Keeps.self.bind fun p => ?_
    exact (keeps_changeUnit _ _).bind fun _ => keeps_advance.discard
  | capture u name sigil =>
    refine keeps_search (f := fun p => p.capture u name sigil) fun p found e => ?_
    exact captureWithin_keeps (P := NamesAlike p) (fun h e => h.standIn e) ⟨rfl, rfl⟩ e
  | lookup u name sigil =>
    refine keeps_search (f := fun p => p.lookup u name sigil) fun p found e => ?_
    exact lookup_keeps (P := NamesAlike p) (fun h e => h.standIn e) ⟨rfl, rfl⟩ e

/-! ### Running -/

theorem Audited.keeps_insert (x : Activation) : Keeps (Audited a pool) (Pads.insert x) := by
  unfold Pads.insert
  refine Keeps.self.bind fun p => ?_
  split
  · refine Keeps.bind ?_ fun _ => Keeps.pure _
    exact keeps_changeSelf (fun _ => rfl) fun _ => rfl
  · refine Keeps.bind ?_ fun _ => Keeps.pure _
    exact keeps_changeSelf (fun _ => rfl) fun _ => rfl

theorem Audited.keeps_remove (id : ActivationId) : Keeps (Audited a pool) (Pads.remove id) := by
  refine (keeps_activation id).bind fun x => Keeps.bind ?_ fun _ => Keeps.pure _
  exact keeps_changeSelf (fun _ => rfl) fun _ => rfl

theorem Audited.keeps_release (id : ActivationId) : Keeps (Audited a pool) (Pads.release id) :=
  (keeps_remove id).bind fun cells => keeps_letGo cells

theorem Audited.keeps_sweep : Keeps (Audited a pool) sweep := by
  refine Keeps.self.bind fun p => ?_
  generalize p.live = rounds
  induction rounds with
  | zero => exact Keeps.pure _
  | succ rounds ih =>
    refine Keeps.self.bind fun p => Keeps.readHeap.bind fun h => ?_
    dsimp only
    split
    · exact Keeps.pure _
    · exact (Keeps.forM keeps_release _).bind fun _ => ih.bind fun _ => Keeps.pure _

variable {b : Account}

/-- A new cell for a slot has no key of a pool. -/
theorem keeps_newCell (n : Option PadName) : Keeps (Ledger b) (newCell n) := by
  unfold newCell
  cases n with
  | none => exact Ledger.keeps_new rfl
  | some name =>
    show Keeps (Ledger b) (Heap.new name.sigil.freshCell)
    cases name.sigil with
    | hash => exact Ledger.keeps_newHash {}
    | _ => exact Ledger.keeps_new rfl

theorem keeps_sharedCell (n : Option PadName) (outer : Option CellId) :
    Keeps (Ledger b) (sharedCell n outer) := by
  cases outer with
  | none => exact keeps_newCell n
  | some i => exact (Keeps.modify fun _ l => l.retainAll [i]).bind fun _ => Keeps.pure _

theorem keeps_frameCell (base : List CellId) (n : Option PadName) (slot : Nat) :
    Keeps (Ledger b) (frameCell base n slot) := by
  unfold frameCell
  cases n with
  | none => exact keeps_newCell none
  | some name =>
    dsimp only
    split
    · exact keeps_sharedCell none _
    · exact keeps_newCell _

theorem keeps_renewedCell (n : Option PadName) (i : CellId) :
    Keeps (Ledger b) (renewedCell n i) := by
  unfold renewedCell
  cases n with
  | none => exact Keeps.pure _
  | some name =>
    dsimp only
    split
    · exact Keeps.pure _
    · exact keeps_newCell _

theorem Audited.keeps_closureOf (u : Nat) (id : ActivationId) :
    Keeps (Audited a pool) (closureOf u id) := by
  refine (keeps_unit u).bind fun x => ?_
  refine (Charged.keeps_onHeap fun _ => Ledger.keeps_new rfl).bind fun code => ?_
  exact (keeps_changeActivation id _).bind fun _ => Keeps.pure _

theorem Audited.keeps_insertFilled (x : Activation) (fresh : List (Nat × Nat))
    {closure : Nat → ActivationId → OnPads CellId}
    (hc : ∀ v id, Keeps (Audited a pool) (closure v id)) :
    Keeps (Audited a pool) (insertFilled x fresh closure) := by
  refine (keeps_insert x).bind fun id => ?_
  have filled : Keeps (Audited a pool)
      (fresh.forM fun e => closure e.2 id >>= replaceCell id e.1) := by
    refine Keeps.forM (fun e => (hc e.2 id).bind fun i => ?_) fresh
    refine (keeps_activation id).bind fun y => (keeps_changeActivation id _).bind fun _ => ?_
    exact keeps_letGo _
  refine filled.attempt.bind fun r => ?_
  cases r with
  | ok _ => exact Keeps.pure _
  | error e =>
    exact (keeps_release id).bind fun _ => keeps_sweep.discard.bind fun _ => Keeps.throw e

theorem Audited.keeps_activate (u : Nat) (outer : Option ActivationId) :
    Keeps (Audited a pool) (activate u outer) := by
  refine Keeps.self.bind fun p => ?_
  generalize p.units.size = levels
  induction levels generalizing u outer with
  | zero => exact Keeps.throw _
  | succ levels ih =>
    unfold Pads.activateWithin
    refine (keeps_unit u).bind fun x => ?_
    have rest (lent : List CellId) : Keeps (Audited a pool) (do
        let cells ← x.slots.mapM fun n => (activatedCell lent n : OnHeap CellId)
        Pads.insertFilled { unit := u, cells, outer } (prototypes x.slots) fun nested id => do
          Pads.closureOf nested (← Pads.activateWithin levels nested (some id)) :
          OnPads ActivationId) := by
      refine Keeps.bind (Keeps.mapM (fun n => ?_) _) fun cells => ?_
      · exact Charged.keeps_onHeap fun _ => keeps_sharedCell n _
      · exact keeps_insertFilled _ _ fun v id => (ih v (some id)).bind fun y =>
          keeps_closureOf v y
    cases outer with
    | none => exact rest []
    | some o =>
      refine (keeps_activation o).bind fun y => ?_
      split
      · exact Keeps.throw _
      · exact rest y.cells

theorem Audited.keeps_makeClosure (u : Nat) (outer : Option ActivationId) :
    Keeps (Audited a pool) (makeClosure u outer) :=
  (keeps_activate u outer).bind fun id => keeps_closureOf u id

theorem Audited.keeps_push (base : ActivationId) : Keeps (Audited a pool) (push base) := by
  refine (keeps_activation base).bind fun x => (keeps_changeActivation base _).bind fun _ => ?_
  dsimp only
  split
  · exact Keeps.pure _
  refine (keeps_unit x.unit).bind fun y => ?_
  refine Keeps.bind (Keeps.mapM (fun n => ?_) _) fun cells => ?_
  · exact Charged.keeps_onHeap fun _ => keeps_frameCell x.cells n.1 n.2
  refine Keeps.bind (Keeps.attempt (keeps_insertFilled _ _ fun v id => keeps_makeClosure v _))
    fun r => ?_
  cases r with
  | ok frame => exact Keeps.pure _
  | error e => exact (keeps_changeActivation base _).bind fun _ => Keeps.throw e

theorem Audited.keeps_pop (id : ActivationId) : Keeps (Audited a pool) (pop id) := by
  refine (keeps_activation id).bind fun x => ?_
  split
  · refine (keeps_remove id).bind fun cells => (keeps_changeActivation _ _).bind fun _ => ?_
    exact keeps_letGo cells
  · refine (keeps_changeActivation id _).bind fun _ => ?_
    split
    · refine (keeps_unit x.unit).bind fun y => ?_
      refine Keeps.bind (Keeps.mapM (fun n => ?_) _) fun cells => ?_
      · exact Charged.keeps_onHeap fun _ => keeps_renewedCell n.2 n.1
      · exact (keeps_changeActivation id _).bind fun _ => keeps_letGo _
    · exact Keeps.pure _

theorem Audited.keeps_cell (id : ActivationId) (slot : Nat) :
    Keeps (Audited a pool) (Pads.cell id slot) := by
  refine (keeps_activation id).bind fun x => ?_
  split
  · exact Keeps.pure _
  · exact Keeps.throw _

/-- **Whatever a host does to pads** keeps the ledger, unless it makes a hash that shares a pool. -/
theorem Audited.keeps_act (held : List CellId) {op : Op}
    (own : ∀ p, op ≠ .onHeap (.hash (.pool p))) : Keeps (Audited a pool) (op.act held) := by
  have only {α : Type} {x : OnPads α} (hx : Keeps (Audited a pool) x) :
      Keeps (Audited a pool) (Op.only held x) := hx.discard.bind fun _ => Keeps.pure _
  cases op with
  | compile d => exact only (keeps_directive d)
  | activate u outer => exact only (keeps_activate u outer)
  | makeClosure u outer => exact (keeps_makeClosure u outer).bind fun _ => Keeps.pure _
  | push base => exact only (keeps_push base)
  | pop id => exact only (keeps_pop id)
  | release id => exact only (keeps_release id)
  | sweep => exact only keeps_sweep
  | cell id slot =>
    exact (keeps_cell id slot).bind fun i =>
      Charged.keeps_onHeap fun _ => Ledger.keeps_takeHold held (some i)
  | onHeap op =>
    exact Charged.keeps_onHeap fun _ => Ledger.keeps_act held fun p e => own p (by rw [e])

/-- **Giving up** pads gives their names back. -/
theorem Audited.dispose {h : Heap} {p : Pads} (c : Audited a pool ⟨h, p⟩) :
    Ledger a (after p.dispose h) := by
  have held : Ledger { a with own := fun q x => a.own q x +
      (if (some p.pool) = some q then tally x p.interned else 0) } _ :=
    c.ledger.letGo (p.places.toList.flatMap fun place =>
      (place.activation.map (·.cells)).getD [])
  exact held.giveBack

end

end ScriptCore.Pads
