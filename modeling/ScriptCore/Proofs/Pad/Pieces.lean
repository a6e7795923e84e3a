import ScriptCore.Proofs.Heap.Adding
import ScriptCore.Proofs.Pad.Arena

/-!
# Pad — running, piece by piece

What is done to activations is made of few pieces: one is inserted, removed, or changed in ways
that leave it the activation it is (`Activation.origin`); and cells are made, shared and let go
(`Heap.Lasts`).

`Fills P`: the pieces other than removal keep `P`.  Then activating, closing over and calling keep
it, as long as they succeed (`Fills.activate`, `Fills.makeClosure`, `Fills.push`): only a failure
takes an activation back.  `Empties S P`: the pieces other than insertion keep `P`, where those that
go are in `S`.  Then releasing, sweeping and ending a call keep it (`Empties.release`,
`Empties.sweep`, `Empties.pop`).
-/

namespace ScriptCore

/-- What an activation is made with and keeps: its unit, what it was made in, and, for a frame, its
base. -/
structure Activation.Origin where
  unit : Nat
  outer : Option ActivationId
  base : Option ActivationId
  deriving DecidableEq, Repr

/-- The origin of an activation. -/
def Activation.origin (a : Activation) : Activation.Origin := ⟨a.unit, a.outer, a.base⟩

namespace Pads
open Beside

/-- Activations may change and cells may be made, shared and let go. -/
structure Bears (P : Beside Pads → Prop) : Prop where
  change : ∀ id (f : Activation → Activation), (∀ a, (f a).origin = a.origin) →
    Keeps P (changeActivation id f)
  heap : ∀ s h, s.heap.Lasts h → P s → P { s with heap := h }

/-- Activations may come as well. -/
structure Fills (P : Beside Pads → Prop) : Prop extends Bears P where
  insert : ∀ a, Keeps P (insert a)

/-- Those in `S` may go. -/
structure Empties (S : ActivationId → Prop) (P : Beside Pads → Prop) : Prop extends Bears P where
  remove : ∀ id, S id → Keeps P (remove id)

section
variable {α : Type} {P : Beside Pads → Prop} {Q : α → Beside Pads → Prop} {n : Option PadName}
  {E : Heap → Prop}

/-! ### Cells -/

theorem lasts_newCell (n : Option PadName) (h : Heap) :
    Ends (newCell n) h (fun _ h' => h.Lasts h') E :=
  (Heap.adds_allocate h (emptyCell_owned n)).lasts

theorem lasts_sharedCell (n : Option PadName) (outer : Option CellId) (h : Heap) :
    Ends (sharedCell n outer) h (fun _ h' => h.Lasts h') E := by
  cases outer with
  | none => exact lasts_newCell n h
  | some i => exact (Heap.adds_retainAll h [i]).lasts

theorem lasts_frameCell (base : List CellId) (n : Option PadName) (slot : Nat) (h : Heap) :
    Ends (frameCell base n slot) h (fun _ h' => h.Lasts h') E := by
  unfold frameCell
  cases n with
  | none => exact lasts_newCell none h
  | some name =>
    dsimp only
    split
    · exact lasts_sharedCell none _ h
    · exact lasts_newCell _ h

theorem lasts_renewedCell (n : Option PadName) (i : CellId) (h : Heap) :
    Ends (renewedCell n i) h (fun _ h' => h.Lasts h') E := by
  unfold renewedCell
  cases n with
  | none => exact Heap.Lasts.refl h
  | some name =>
    dsimp only
    split
    · exact Heap.Lasts.refl h
    · exact lasts_newCell _ h

/-! ### Activations -/

theorem keeps_activation (id : ActivationId) : Keeps P (activation id) :=
  Keeps.of_ends fun s hs => (ends_activation id s).imp (fun _ _ q => q.1 ▸ hs) fun _ e => e.1 ▸ hs

/-- What is not asked for holds. -/
theorem leads_any (x : OnPads α) : Leads P x (fun _ _ => True) fun _ => True :=
  Leads.of_ends fun _ _ => (Ends.error (x := x)).imp (fun _ _ q => q) fun _ _ => trivial

/-- What keeps something keeps it also where failures are not looked at. -/
theorem Keeps.results {x : OnPads α} (h : Keeps P x) : Leads P x (fun _ => P) fun _ => True :=
  h.imp (fun _ => id) (fun _ _ => id) fun _ _ => trivial

namespace Bears

theorem onHeap (b : Bears P) {x : OnHeap α}
    (hx : ∀ h, Ends x h (fun _ h' => h.Lasts h') fun _ => False) :
    Keeps P (liftM x : OnPads α) := by
  refine Keeps.of_ends fun s hs => (hx s.heap).liftSure.imp ?_ fun _ e => e
  rintro _ ⟨heap, own⟩ ⟨same, lasts⟩
  obtain rfl : own = s.own := same
  exact b.heap s heap lasts hs

theorem letGo (b : Bears P) (is : List CellId) : Keeps P (changeHeap (·.letGo is)) :=
  fun s hs => b.heap s _ (s.heap.lasts_letGo is) hs

theorem closureOf (b : Bears P) (u : Nat) (id : ActivationId) : Keeps P (closureOf u id) := by
  refine (keeps_unit u).bind fun x => (b.onHeap fun h => ?_).bind fun code => ?_
  · exact (Heap.adds_allocate h rfl).lasts
  · have owned := b.change id (fun a => { a with owner := some code }) fun _ => rfl
    exact owned.bind fun _ => Keeps.pure _

theorem replaceCell (b : Bears P) (id : ActivationId) (slot : Nat) (i : CellId) :
    Keeps P (replaceCell id slot i) :=
  (keeps_activation id).bind fun _ =>
    (b.change id (fun a => { a with cells := a.cells.set slot i }) fun _ => rfl).bind
      fun _ => b.letGo _

theorem endCall (b : Bears P) (id : ActivationId) : Keeps P (endCall id) :=
  b.change id _ fun _ => rfl

end Bears

namespace Fills

/-- A new activation gets its closures, or is taken back. -/
theorem insertFilled (f : Fills P) (a : Activation) (fresh : List (Nat × Nat))
    {closure : Nat → ActivationId → OnPads CellId}
    (hc : ∀ v id, Leads P (closure v id) (fun _ => P) fun _ => True) :
    Leads P (insertFilled a fresh closure) (fun _ => P) fun _ => True := by
  refine (Keeps.results (f.insert a)).bind fun id => ?_
  have filled : Leads P (fresh.forM fun e => closure e.2 id >>= replaceCell id e.1) (fun _ => P)
      fun _ => True := by
    induction fresh with
    | nil => exact fun _ hs => hs
    | cons e fresh ih =>
      refine Leads.bind ((hc e.2 id).bind fun i => ?_) fun _ => ih
      exact Keeps.results (f.toBears.replaceCell id e.1 i)
  refine Leads.bind (Leads.of_ends fun s hs => (filled.ends hs).attempt) fun r => ?_
  cases r with
  | ok _ => exact Leads.pure fun _ hs => hs
  | error e =>
    refine (leads_any _).bind fun _ => (leads_any _).bind fun _ => ?_
    exact Leads.throw fun _ _ => trivial

theorem activateWithin (f : Fills P) (levels u : Nat) (outer : Option ActivationId) :
    Leads P (activateWithin levels u outer) (fun _ => P) fun _ => True := by
  induction levels generalizing u outer with
  | zero => exact Leads.throw fun _ _ => trivial
  | succ levels ih =>
    unfold Pads.activateWithin
    refine (Keeps.results (keeps_unit u)).bind fun x => ?_
    have rest (lent : List CellId) : Leads P (do
        let cells ← x.slots.mapM fun n => (activatedCell lent n : OnHeap CellId)
        Pads.insertFilled { unit := u, cells, outer } (prototypes x.slots) fun nested id => do
          Pads.closureOf nested (← Pads.activateWithin levels nested (some id)) :
          OnPads ActivationId) (fun _ => P) fun _ => True := by
      refine Leads.bind (Keeps.results (Keeps.mapM (fun n => ?_) _)) fun cells => ?_
      · exact f.toBears.onHeap fun h => lasts_sharedCell n _ h
      · refine f.insertFilled _ _ fun v id => (ih v (some id)).bind fun y => ?_
        exact Keeps.results (f.toBears.closureOf v y)
    cases outer with
    | none => exact rest []
    | some o =>
      refine (Keeps.results (keeps_activation o)).bind fun a => ?_
      split
      · exact fun _ _ => trivial
      · exact rest a.cells

theorem activate (f : Fills P) (u : Nat) (outer : Option ActivationId) :
    Leads P (activate u outer) (fun _ => P) fun _ => True :=
  (Keeps.results Keeps.self).bind fun _ => f.activateWithin _ u outer

theorem makeClosure (f : Fills P) (u : Nat) (outer : Option ActivationId) :
    Leads P (makeClosure u outer) (fun _ => P) fun _ => True :=
  (f.activate u outer).bind fun id => Keeps.results (f.toBears.closureOf u id)

/-- A frame gets its closures, or is taken back. -/
theorem insertFrame (f : Fills P) (a : Activation) (fresh : List (Nat × Nat)) :
    Leads P (Pads.insertFilled a fresh fun nested id => do
      Pads.closureOf nested (← Pads.activate nested (some id))) (fun _ => P) fun _ => True :=
  f.insertFilled a fresh fun v id => f.makeClosure v (some id)

theorem push (f : Fills P) (base : ActivationId) :
    Leads P (push base) (fun _ => P) fun _ => True := by
  refine (Keeps.results (keeps_activation base)).bind fun a => ?_
  have started := f.change base (fun b => { b with depth := a.depth + 1 }) fun _ => rfl
  refine (Keeps.results started).bind fun _ => ?_
  split
  · exact fun _ hs => hs
  refine (Keeps.results (keeps_unit a.unit)).bind fun x => ?_
  refine Leads.bind (Keeps.results (Keeps.mapM (fun n => ?_) _)) fun cells => ?_
  · exact f.toBears.onHeap fun h => lasts_frameCell a.cells n.1 n.2 h
  refine Leads.bind (Leads.of_ends fun s hs => ((f.insertFrame _ _).ends hs).attempt) fun r => ?_
  cases r with
  | ok frame => exact fun _ hs => hs
  | error e => exact (leads_any _).bind fun _ => fun _ _ => trivial

end Fills

namespace Empties
variable {S : ActivationId → Prop} {id : ActivationId}

theorem release (e : Empties S P) (hS : S id) : Keeps P (release id) :=
  (e.remove id hS).bind fun _ => e.toBears.letGo _

theorem sweepWithin (e : Empties S P) (hS : ∀ id, S id) (rounds : Nat) :
    Keeps P (sweepWithin rounds) := by
  induction rounds with
  | zero => exact Keeps.pure _
  | succ rounds ih =>
    refine Keeps.self.bind fun p => Keeps.readHeap.bind fun h => ?_
    dsimp only
    split
    · exact Keeps.pure _
    · refine (Keeps.forM (fun id => e.release (hS id)) _).bind fun _ => ?_
      exact ih.bind fun _ => Keeps.pure _

theorem sweep (e : Empties S P) (hS : ∀ id, S id) : Keeps P sweep :=
  Keeps.self.bind fun p => e.sweepWithin hS p.live

/-- Only a frame goes when its call ends. -/
theorem pop (e : Empties S P) {s : Beside Pads} (hs : P s)
    (hS : ∀ a, s.own.activation? id = some a → a.base ≠ none → S id) :
    Ends (pop id) s (fun _ => P) P := by
  refine ((ends_activation id s).imp (fun _ _ q => q) fun t e => e.1 ▸ hs).bind ?_
  rintro a t ⟨rfl, ha⟩
  dsimp only
  cases base : a.base with
  | some base =>
    refine Keeps.ends ?_ hs
    refine (e.remove id (hS a ha (by rw [base]; nofun))).bind fun cells => ?_
    exact (e.toBears.endCall _).bind fun _ => e.toBears.letGo cells
  | none =>
    refine Keeps.ends ((e.toBears.endCall id).bind fun _ => ?_) hs
    split
    · refine (keeps_unit a.unit).bind fun x => ?_
      refine Keeps.bind (Keeps.mapM (fun y => ?_) _) fun cells => ?_
      · exact e.toBears.onHeap fun h => lasts_renewedCell y.2 y.1 h
      · have renewed := e.change id (fun a => { a with cells }) fun _ => rfl
        exact renewed.bind fun _ => e.toBears.letGo _
    · exact Keeps.pure _

end Empties

end

end Pads

end ScriptCore
