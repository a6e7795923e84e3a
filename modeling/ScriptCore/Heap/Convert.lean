import ScriptCore.Heap.Basic

/-!
# Heap — reading without hooks

Reading a cell as a number or as text keeps the converted form beside the value, and moves the
shape up for it.  A string that is not all numeric gives its leading number and an advisory;
what is kept then is marked as not exact, so the next read converts and reports again.
-/

namespace ScriptCore.Heap

/-- Where the advisories of a read go: nowhere, or to the reports under a site. -/
inductive Sink
  | silent
  | site (number : Option Nat)
  deriving DecidableEq, Repr

/-- Reports an advisory. -/
def report (sink : Sink) (a : Advisory) : OnHeap Unit :=
  match sink with
  | .silent => pure ()
  | .site n => modify fun h => { h with reports := h.reports.push (a.atSite n) }

/-- What a read of a scalar finds. -/
def sourceOf (i : CellId) : OnHeap Cell.Source := do
  let h ← get
  (h.cell i).expectScalar
  return (h.cell i).source h.isAlive

/-- Changes a cell by a step that may fail. -/
def keep (i : CellId) (f : Cell → Except Fault Cell) : OnHeap Unit := do
  let h ← get
  let c ← f (h.cell i)
  set (h.setCell i c)

/-- The number in the text of a cell, kept on it. -/
def numify (i : CellId) (b : Bytes) (sink : Sink) : OnHeap Number := do
  let (n, numeric) := parseNumber b
  keep i (·.keepNumber n numeric)
  if !numeric then report sink (.notNumeric b)
  return n

/-- The address of a cell as an integer. -/
def addressInt (i : CellId) : Int64 := Int64.ofNat (address i)

/-- Reads an integer. -/
def readInt (i : CellId) (sink : Sink) : OnHeap Int64 := do
  match ← sourceOf i with
  | .int v => return v
  | .float v =>
    if v.isInt64 then
      keep i fun c => do return (← c.makeRoomKeeping { int := true }).keepInt v.toInt64 true
    return v.toInt64
  | .ref j => return addressInt j
  | .text b => return (← numify i b sink).asInt
  | .nothing =>
    report sink (.uninitialized "numeric conversion")
    return 0

/-- Reads a float. -/
def readFloat (i : CellId) (sink : Sink) : OnHeap Binary64 := do
  match ← sourceOf i with
  | .float v => return v
  | .int v =>
    let f := Binary64.ofInt v.toInt
    keep i fun c => do return (← c.makeRoomKeeping { num := true }).keepFloat f true
    return f
  | .ref j => return .ofInt (addressInt j).toInt
  | .text b => return (← numify i b sink).asFloat
  | .nothing =>
    report sink (.uninitialized "numeric conversion")
    return .zero false

/-- Writes out a number and keeps the text. -/
def keepText (i : CellId) (cs : List Char) : OnHeap Bytes := do
  let b := Text.encode (String.ofList cs)
  keep i fun c => do
    let c ← c.makeRoomKeeping { text := true }
    return { c with text := b, flags := { c.flags with textOk := true } }
  return b

/-- The decimal text of an integer. -/
def intText (v : Int64) : List Char :=
  if v < 0 then '-' :: decimalDigits v.toInt.natAbs else decimalDigits v.toInt.natAbs

/-- Reads bytes. -/
def readBytes (i : CellId) (sink : Sink) : OnHeap Bytes := do
  let source ← sourceOf i
  let c := (← get).cell i
  if c.flags.textOk then return c.text
  match source with
  | .int v => keepText i (intText v)
  | .float v => keepText i v.format
  | .ref _ => return Text.encode (((← get).refText? i).getD "")
  | .text b => return b
  | .nothing =>
    report sink (.uninitialized "string conversion")
    return []

/-- Reads text, decoding the bytes by the mark of the cell. -/
def readText (i : CellId) (sink : Sink) : OnHeap String := do
  let b ← readBytes i sink
  return Text.decode b ((← get).cell i).flags.utf8

end ScriptCore.Heap
