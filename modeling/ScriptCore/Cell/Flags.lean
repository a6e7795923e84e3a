/-!
# Cell — flags

The first six flags say which forms of a value a cell holds.  A form marked `…Ok` is the value
itself; a number marked only `…Held` is the best reading of a string that is not all numeric, and
readers read the string again.
-/

namespace ScriptCore

/-- The flags of a cell. -/
structure Flags where
  intOk : Bool := false
  numOk : Bool := false
  textOk : Bool := false
  refOk : Bool := false
  intHeld : Bool := false
  numHeld : Bool := false
  utf8 : Bool := false
  readOnly : Bool := false
  tainted : Bool := false
  weak : Bool := false
  object : Bool := false
  inHooks : Bool := false
  deriving DecidableEq, Repr

namespace Flags

/-- The flags in order, with their names in descriptions. -/
def table (f : Flags) : List (Bool × String) :=
  [(f.intOk, "INT_OK"), (f.numOk, "NUM_OK"), (f.textOk, "STR_OK"), (f.refOk, "ROK"),
    (f.intHeld, "P_INT_OK"), (f.numHeld, "P_NUM_OK"), (f.utf8, "UTF8"), (f.readOnly, "READONLY"),
    (f.tainted, "TAINTED"), (f.weak, "WEAKREF"), (f.object, "OBJECT"), (f.inHooks, "IN_MAGIC")]

/-- The flags as bits, the first one lowest. -/
def bits (f : Flags) : Nat := f.table.foldr (fun (b, _) n => b.toNat + 2 * n) 0

/-- The flags in a description. -/
def describe (f : Flags) : String :=
  let names := (f.table.filter (·.1)).map (·.2)
  "SvFlags(" ++ (if names = [] then "0x0" else " | ".intercalate names) ++ ")"

/-- Some form of a value is held. -/
def holdsValue (f : Flags) : Bool :=
  f.intOk || f.numOk || f.textOk || f.refOk || f.intHeld || f.numHeld

/-- The flags without those that belong to a value. -/
def withoutValue (f : Flags) : Flags :=
  { f with intOk := false, numOk := false, textOk := false, refOk := false, intHeld := false,
           numHeld := false, utf8 := false, weak := false }

/-- The flags that go with a value when it is copied. -/
def copied (f : Flags) : Flags :=
  { f with readOnly := false, object := false, inHooks := false }

/-- The flags of either. -/
def union (a b : Flags) : Flags :=
  { intOk := a.intOk || b.intOk, numOk := a.numOk || b.numOk, textOk := a.textOk || b.textOk,
    refOk := a.refOk || b.refOk, intHeld := a.intHeld || b.intHeld,
    numHeld := a.numHeld || b.numHeld, utf8 := a.utf8 || b.utf8,
    readOnly := a.readOnly || b.readOnly, tainted := a.tainted || b.tainted,
    weak := a.weak || b.weak, object := a.object || b.object, inHooks := a.inHooks || b.inHooks }

end Flags

end ScriptCore
