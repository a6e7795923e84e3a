import ScriptCore.Heap.Assign
import ScriptCore.Pad.Scope

/-!
# Pad — running: activations, closures and recursion

To activate a unit is to give it a cell for each slot: the enclosing activation's own cell for a
captured slot, a closure over the new activation for a prototype, a new cell otherwise.

A call runs on an activation itself; a call during a call gets a frame that shares the captured,
`state` and `our` slots.  When the last call ends the plain slots get new cells, so closures keep
the old ones.

An activation made for a closure stays until its code cell has gone and `sweep` runs.
-/

namespace ScriptCore.Pads
open Beside

/-- The activation serves no call and the code cell it was made for has gone. -/
def isOrphan (p : Pads) (h : Heap) (id : ActivationId) : Bool :=
  ((p.activation? id).map fun a =>
    a.depth == 0 && (a.owner.map fun i => !h.isAlive i).getD false).getD false

/-- Sweeps until nothing is left to sweep, in at most `rounds` rounds. -/
def sweepWithin : Nat → OnPads Nat
  | 0 => return 0
  | rounds + 1 => do
    let p ← self
    let gone := p.handles.filter (p.isOrphan (← onHeap))
    if gone = [] then return 0
    gone.forM release
    return gone.length + (← sweepWithin rounds)

/-- Removes activations whose code cell has gone, also those it frees by that, and counts them.
Each round but the last removes one at least. -/
def sweep : OnPads Nat := do sweepWithin (← self).live

/-- A new cell for a slot. -/
def newCell (n : Option PadName) : OnHeap CellId := Heap.new ((n.map (·.sigil.freshCell)).getD {})

/-- The cell of an outer slot, shared, or a new one. -/
def sharedCell (n : Option PadName) (outer : Option CellId) : OnHeap CellId := do
  match outer with
  | some i =>
    modify (·.retain i)
    return i
  | none => newCell n

/-- The cell a slot gets in a new activation, given the cells of the outer one. -/
def activatedCell (outer : List CellId) (n : Option PadName) : OnHeap CellId :=
  sharedCell n ((n.bind (·.outerSlot?)).bind fun slot => outer[slot]?)

/-- The slots that hold prototypes, each with the nested unit. -/
def prototypes (slots : List (Option PadName)) : List (Nat × Nat) :=
  slots.zipIdx.filterMap fun (n, slot) => (n.bind (·.nested?)).map (slot, ·)

/-- Puts a cell in a slot of an activation and lets go of the one that was there. -/
def replaceCell (id : ActivationId) (slot : Nat) (i : CellId) : OnPads Unit := do
  let old := (← activation id).cells[slot]?
  changeActivation id fun a => { a with cells := a.cells.set slot i }
  changeHeap (·.letGo old.toList)

/-- Inserts an activation and fills its prototypes; one that cannot be filled is taken back. -/
def insertFilled (a : Activation) (fresh : List (Nat × Nat))
    (closure : Nat → ActivationId → OnPads CellId) : OnPads ActivationId := do
  let id ← insert a
  let filled ← attempt (fresh.forM fun (slot, nested) => do
    replaceCell id slot (← closure nested id))
  match filled with
  | .ok _ => return id
  | .error e =>
    release id
    discard sweep
    throw e

/-- Wraps an activation of a unit in a code cell, which becomes its owner. -/
def closureOf (u : Nat) (id : ActivationId) : OnPads CellId := do
  let name := (← unit u).name
  let code ← Heap.new (.ofRoutine { name, unit := some u, activation := some id })
  changeActivation id fun a => { a with owner := some code }
  return code

/-- Activates a unit inside an outer activation, with units nested at most `levels` deep. -/
def activateWithin : Nat → Nat → Option ActivationId → OnPads ActivationId
  | 0, _, _ => throw (.mismatch .foreignUnit)
  | levels + 1, u, outer => do
    let code ← unit u
    let cells ← match outer with
      | none => pure []
      | some id =>
        let a ← activation id
        if code.outer ≠ some a.unit then throw (.mismatch .activationElsewhere)
        pure a.cells
    let cells ← code.slots.mapM fun n => (activatedCell cells n : OnHeap CellId)
    insertFilled { unit := u, cells, outer } (prototypes code.slots) fun nested id => do
      closureOf nested (← activateWithin levels nested (some id))

/-- Activates a unit inside an activation of the enclosing one.  Without it captured slots get
new cells.  A unit is nested in an earlier one, so units nest less deep than there are units. -/
def activate (u : Nat) (outer : Option ActivationId) : OnPads ActivationId := do
  activateWithin (← self).units.size u outer

/-- Activates a unit and hands over a code cell that owns the activation. -/
def makeClosure (u : Nat) (outer : Option ActivationId) : OnPads CellId := do
  closureOf u (← activate u outer)

/-- One call fewer runs on an activation, if it is live. -/
def endCall (id : ActivationId) : OnPads Unit :=
  changeActivation id fun a => { a with depth := a.depth - 1 }

/-- The cell a slot gets in a frame: the base's own cell if frames share it. -/
def frameCell (base : List CellId) (n : Option PadName) (slot : Nat) : OnHeap CellId :=
  match n with
  | some name =>
    if name.sharedByFrames then sharedCell none base[slot]? else newCell n
  | none => newCell none

/-- The prototypes that a frame makes anew. -/
def framePrototypes (slots : List (Option PadName)) : List (Nat × Nat) :=
  prototypes (slots.map fun n => n.filter fun name => !name.sharedByFrames)

/-- Starts a call on an activation and gives the one to run on: itself for the first call, a
frame for a call during a call. -/
def push (base : ActivationId) : OnPads ActivationId := do
  let a ← activation base
  let depth := a.depth + 1
  changeActivation base fun a => { a with depth }
  if depth = 1 then return base
  let slots := (← unit a.unit).slots
  let cells ← slots.zipIdx.mapM fun (n, slot) => (frameCell a.cells n slot : OnHeap CellId)
  let frame ← attempt (insertFilled
    { unit := a.unit, cells, outer := a.outer, depth, base := some base }
    (framePrototypes slots) fun nested id => do
      closureOf nested (← activate nested (some id)))
  if let .error _ := frame then endCall base
  frame

/-- A new cell for a plain slot; a slot that frames share, or that holds a prototype, keeps its
own. -/
def renewedCell (n : Option PadName) (i : CellId) : OnHeap CellId :=
  match n with
  | some name => if name.sharedByFrames || name.nested?.isSome then pure i else newCell n
  | none => pure i

/-- Ends the call on an activation.  A frame is removed. -/
def pop (id : ActivationId) : OnPads Unit := do
  let a ← activation id
  match a.base with
  | some base =>
    let cells ← remove id
    endCall base
    changeHeap (·.letGo cells)
  | none =>
    endCall id
    if a.depth ≤ 1 then
      let slots := (← unit a.unit).slots
      let cells ← (a.cells.zip slots).mapM fun (i, n) => (renewedCell n i : OnHeap CellId)
      changeActivation id fun a => { a with cells }
      let gone := (a.cells.zip cells).filter fun (old, new) => old ≠ new
      changeHeap (·.letGo (gone.map (·.1)))

end ScriptCore.Pads
