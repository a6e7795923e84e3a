import ScriptCore.Heap.Basic
import ScriptCore.Heap.Convert

/-!
# Heap — descriptions of cells

A description names the shape and flags of a cell and shows the forms of its value, for a reader
who looks for a fault.
-/

namespace ScriptCore

open Text in
/-- A routine in a description. -/
def Routine.describe (r : Routine) : String :=
  let key (k : Option Key) := describeOption (fun k => quote (Key.text k)) k
  let unit := describeOption (fun n => "UnitId(" ++ toString n ++ ")") r.unit
  let activation := describeOption (fun (a : ActivationId) =>
    "ActivationId \x7b index: " ++ toString a.index ++ ", generation: " ++
      toString a.generation.toNat ++ " \x7d") r.activation
  "CodeBody \x7b name: " ++ key r.name ++ ", package: " ++ key r.package ++ ", unit: " ++ unit ++
    ", activation: " ++ activation ++ ", native: " ++ toString r.native.isSome ++ " \x7d"

namespace Heap

/-- The fields of a payload in a description. -/
def payloadFields : Payload → List (String × String)
  | .none => []
  | .array items => [("len", toString items.length)]
  | .hash t => [("keys", toString t.size)]
  | .code r => [("code", r.describe)]
  | .handle name => [("handle", Text.quote name)]

/-- A cell in a description. -/
def describe (h : Heap) (i : CellId) : String :=
  let c := h.cell i
  let field (name : String) (shown : Bool) (value : String) : List (String × String) :=
    if shown then [(name, value)] else []
  let referent := Text.describeOption (fun j => Text.quote (addressText j)) (h.referent? i)
  let package := match c.package with
    | some p => [("stash", Text.quote p.text)]
    | none => []
  let fields := [("kind", c.shape.name), ("flags", c.flags.describe)] ++
    field "iv" (c.flags.intOk || c.flags.intHeld) (String.ofList (intText c.int)) ++
    field "nv" (c.flags.numOk || c.flags.numHeld) (String.ofList c.num.describe) ++
    field "pv" c.flags.textOk (Text.quote (Utf8.lossy c.text)) ++
    field "rv" c.flags.refOk referent ++
    payloadFields c.payload ++ package
  "Sv \x7b " ++ ", ".intercalate (fields.map fun (n, v) => n ++ ": " ++ v) ++ " \x7d"

end Heap

end ScriptCore
