import ScriptCore.Heap.Describe
import ScriptCore.Heap.Scalar
import ScriptCore.Pad.Activation

/-!
# Pad — listings of units and activations

A listing has a line for each slot, with its number, its name, and where it comes from or when
it is visible.
-/

namespace ScriptCore

namespace PadName

/-- The name, where it comes from and how it was declared. -/
def line (n : PadName) : String :=
  let seen (at? : Option UInt32) (never : String) := (at?.map fun s => toString s).getD never
  let place := match n.origin with
    | .captured slot => " [outer <- slot " ++ toString slot ++ "]"
    | .prototype unit => " [closure " ++ toString unit ++ "]"
    | .own => " [" ++ seen n.introduced "pending" ++ ".." ++ seen n.closed "open" ++ "]"
  n.label ++ place ++ (if n.declarator.isOur then " our" else "") ++
    if n.declarator.isState then " state" else ""

end PadName

namespace Pads
open Beside

/-- A number set to the right in four places. -/
def column (n : Nat) : String :=
  let digits := (toString n).toList
  String.ofList (List.replicate (4 - digits.length) ' ' ++ digits)

/-- The text for a slot. -/
def slotText (n : Option PadName) : String := (n.map (·.line)).getD "<temp>"

/-- The line for a slot. -/
def slotLine (slot : Nat) (text : String) : String := column slot ++ ". " ++ text ++ "\n"

/-- The listing of a unit. -/
def listing (u : Nat) : OnPads String := do
  let code ← unit u
  let name := match code.name with
    | some k => " (" ++ k.text ++ ")"
    | none => ""
  let lines := code.slots.zipIdx.map fun (n, slot) => slotLine slot (slotText n)
  return "unit " ++ toString u ++ name ++ "\n" ++ String.join lines

/-- A cell in a listing: its shape if it is an aggregate, else its text. -/
def cellText (i : CellId) : OnHeap String := do
  let h ← get
  let shape := (h.cell i).shape
  if shape.isAggregate then return shape.name
  if !h.isDefined i then return "undef"
  match ← attempt (Heap.getText i .silent) with
  | .ok s => return Text.quote s
  | .error e => return "<" ++ e.message ++ ">"

/-- The listing of an activation, with what each slot holds. -/
def activationListing (id : ActivationId) : OnPads String := do
  let a ← activation id
  let slots := (← unit a.unit).slots
  let lines ← a.cells.zipIdx.mapM fun (i, slot) => do
    let value ← (cellText i : OnHeap String)
    return slotLine slot (slotText (slots[slot]?).join ++ " = " ++ value)
  return "activation " ++ toString id.index ++ "/" ++ toString id.generation.toNat ++
    " of unit " ++ toString a.unit ++ " depth " ++ toString a.depth ++ "\n" ++ String.join lines

/-- The pads in a description. -/
def describe (p : Pads) : String :=
  "PadArena \x7b units: " ++ toString p.units.size ++ ", activations: " ++ toString p.live ++
    ", seq: " ++ toString p.clock ++ ", .. \x7d"

end Pads

/-- The slots of a unit in a description. -/
def CodeUnit.describeSlots (u : CodeUnit) : String :=
  let names := u.slots.map fun n => Text.quote ((n.map (·.label)).getD "<temp>")
  "[" ++ ", ".intercalate names ++ "]"

end ScriptCore
