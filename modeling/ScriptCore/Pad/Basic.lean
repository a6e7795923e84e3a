import ScriptCore.Heap.Beside
import ScriptCore.Heap.Convert
import ScriptCore.Pad.Name

/-!
# Pad — units and their activations

A unit is a compiled piece of code with a list of slots.  An activation is one run of it, with a
cell for each slot.  Units are numbered in order and stay.  An activation takes a vacant place or
a new one; when it is removed the place moves on to its next generation, so a handle that
outlives its activation is stale and never reaches another.

The compile clock counts sequences; scopes and captures are told in them.  It has 32 bits, so it
comes round after `2 ^ 32` of them.
-/

namespace ScriptCore

/-- A compiled unit: the unit it was compiled inside and the sequence then, its slots, the
first slot of every scope that is open, and whether it captures anything. -/
structure CodeUnit where
  name : Option Key := none
  outer : Option Nat := none
  outerSequence : UInt32 := 0
  slots : List (Option PadName) := []
  scopes : List Nat := []
  captures : Bool := false
  deriving Repr, Inhabited

/-- A run of a unit.  `depth` counts the calls running on it; a frame of a recursive call names
its `base`.  An activation whose `owner`, the code cell it was made for, has gone can be
swept. -/
structure Activation where
  unit : Nat
  cells : List CellId
  outer : Option ActivationId := none
  depth : Nat := 0
  base : Option ActivationId := none
  owner : Option CellId := none
  deriving Repr, Inhabited

/-- A place for an activation, and how often it has been vacated. -/
structure Pads.Place where
  generation : UInt32 := 0
  activation : Option Activation := none
  deriving Repr, Inhabited

/-- Units and activations, with the names they have interned. -/
structure Pads where
  pool : Nat
  seed : Seed
  units : Array CodeUnit := #[]
  places : Array Pads.Place := #[]
  vacant : List Nat := []
  live : Nat := 0
  clock : UInt32 := 1
  interned : List Key := []
  deriving Inhabited

/-- Operations on pads. -/
abbrev OnPads := OnBeside Pads

namespace Pads
open Beside

/-- No units, with names interned in a pool. -/
def inPool (ring : Keyring) (pool : Nat) : Pads := { pool, seed := (ring.pool pool).seed }

/-- A key to look a name up by. -/
def keyOf (p : Pads) (name : String) : Key := .probe (.ofText name) p.seed

/-- A unit, which must be one of these. -/
def unit (u : Nat) : OnPads CodeUnit := do
  match (← self).units[u]? with
  | some unit => return unit
  | none => throw (.mismatch .foreignUnit)

/-- Changes a unit. -/
def changeUnit (u : Nat) (f : CodeUnit → CodeUnit) : OnPads Unit :=
  changeSelf fun p => { p with units := p.units.modify u f }

/-- Interns a name, to be given back with the pads. -/
def intern (name : String) : OnPads Key := do
  let (key, ring) := (← onHeap).ring.intern (← self).pool (.ofText name)
  changeHeap fun h => { h with ring }
  changeSelf fun p => { p with interned := p.interned ++ [key] }
  return key

/-- The activation of a handle. -/
def activation? (p : Pads) (id : ActivationId) : Option Activation :=
  (p.places[id.index]?).bind fun place =>
    if place.generation = id.generation then place.activation else none

/-- The activation of a handle, which must be live. -/
def activation (id : ActivationId) : OnPads Activation := do
  match (← self).activation? id with
  | some a => return a
  | none => throw (.stale id)

/-- Changes a live activation. -/
def changeActivation (id : ActivationId) (f : Activation → Activation) : OnPads Unit :=
  changeSelf fun p =>
    if (p.activation? id).isSome then
      { p with places := p.places.modify id.index fun place =>
          { place with activation := place.activation.map f } }
    else p

/-- The handles of every live activation, by place. -/
def handles (p : Pads) : List ActivationId :=
  p.places.toList.zipIdx.filterMap fun (place, index) =>
    place.activation.map fun _ => ⟨index, place.generation⟩

/-- Puts an activation in the place vacated last, or in a new one. -/
def insert (a : Activation) : OnPads ActivationId := do
  let p ← self
  match p.vacant with
  | index :: vacant =>
    let places := p.places.modify index fun place => { place with activation := some a }
    changeSelf fun p => { p with places, vacant, live := p.live + 1 }
    return ⟨index, (places.getD index {}).generation⟩
  | [] =>
    changeSelf fun p =>
      { p with places := p.places.push { activation := some a }, live := p.live + 1 }
    return ⟨p.places.size, 0⟩

/-- Takes an activation out of its place and gives its cells.  The handle is stale from now
on. -/
def remove (id : ActivationId) : OnPads (List CellId) := do
  let a ← activation id
  changeSelf fun p =>
    { p with places := p.places.modify id.index fun place =>
               { generation := place.generation + 1, activation := none }
             vacant := id.index :: p.vacant
             live := p.live - 1 }
  return a.cells

/-- Removes an activation and lets go of its cells. -/
def release (id : ActivationId) : OnPads Unit := do
  let cells ← remove id
  changeHeap (·.letGo cells)

/-- The cell in a slot of an activation. -/
def cell (id : ActivationId) (slot : Nat) : OnPads CellId := do
  match (← activation id).cells[slot]? with
  | some i => return i
  | none => throw (.mismatch .slotPastEnd)

/-- Lets go of the cells of every activation, then gives every name back. -/
def dispose (p : Pads) : OnHeap Unit :=
  modify fun h =>
    let h := h.letGo (p.places.toList.flatMap fun place => (place.activation.map (·.cells)).getD [])
    { h with ring := h.ring.releaseAll (some p.pool) p.interned }

end Pads

end ScriptCore
