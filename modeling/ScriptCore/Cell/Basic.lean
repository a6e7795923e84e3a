import ScriptCore.Cell.Flags
import ScriptCore.Cell.Hook
import ScriptCore.Fault
import ScriptCore.Number.Numeral
import ScriptCore.Table.Basic

/-!
# Cell — one value cell

A cell holds a scalar in up to four forms, or the payload of an aggregate, with the attachments
on it and the package it was blessed into.  `owners` counts the handles and references that keep
it alive.

Which forms are meaningful is said by the flags; a form without its flag is left over and never
read.  Functions here concern one cell alone: making room, clearing, caching a conversion.
-/

namespace ScriptCore

/-- A cell by its number on the heap. -/
abbrev CellId := Nat

/-- Built-in routines. -/
inductive Native
  | count
  | first
  | fail
  | sum
  | hello
  deriving DecidableEq, Repr

/-- Every built-in routine. -/
def Native.all : List Native := [.count, .first, .fail, .sum, .hello]

/-- The name of a built-in routine. -/
def Native.name : Native → String
  | count => "count"
  | first => "first"
  | fail => "fail"
  | sum => "sum"
  | hello => "hello"

/-- The built-in routine of a name. -/
def Native.ofName? (s : String) : Option Native := all.find? (·.name = s)

/-- What a code cell runs: a built-in routine, or a compiled unit, which is a closure when it
has an activation. -/
structure Routine where
  name : Option Key := none
  package : Option Key := none
  unit : Option Nat := none
  activation : Option ActivationId := none
  native : Option Native := none
  deriving Repr, Inhabited

/-- A unit bound to an activation. -/
def Routine.isClosure (c : Routine) : Bool := c.unit.isSome && c.activation.isSome

/-- What a reference points at, and whether it keeps that alive. -/
inductive Target
  | strong (cell : CellId)
  | weak (cell : CellId)
  deriving DecidableEq, Repr

/-- The cell pointed at. -/
def Target.cell : Target → CellId
  | strong i => i
  | weak i => i

/-- What an aggregate holds. -/
inductive Payload
  | none
  | array (items : List CellId)
  | hash (table : Table CellId)
  | code (routine : Routine)
  | handle (name : String)
  deriving Inhabited

/-- The cells a payload keeps alive, in the order they are let go. -/
def Payload.cells : Payload → List CellId
  | array items => items
  | hash t => t.values
  | _ => []

/-- The payload of a new aggregate of a shape. -/
def Payload.fresh : Shape → Payload
  | .array => .array []
  | .hash => .hash {}
  | .code => .code {}
  | .handle => .handle ""
  | _ => .none

/-- A value cell. -/
structure Cell where
  shape : Shape := .undef
  flags : Flags := {}
  int : Int64 := 0
  num : Binary64 := .zero false
  text : Bytes := []
  target : Option Target := none
  payload : Payload := .none
  hooks : List Attachment := []
  package : Option Key := none
  owners : Nat := 1
  deriving Inhabited

namespace Cell

/-- The cells this cell keeps alive: its referent first, then its payload. -/
def owned (c : Cell) : List CellId :=
  (match c.target with
    | some (.strong i) => [i]
    | _ => []) ++ c.payload.cells

/-- A cell that holds an integer. -/
def ofInt (v : Int64) : Cell :=
  { shape := .int, int := v, flags := { intOk := true, intHeld := true } }

/-- A cell that holds a float. -/
def ofFloat (v : Binary64) : Cell :=
  { shape := .float, num := v, flags := { numOk := true, numHeld := true } }

/-- A cell that holds bytes. -/
def ofBytes (b : Bytes) : Cell := { shape := .text, text := b, flags := { textOk := true } }

/-- A cell that holds a text, marked when it is not ASCII. -/
def ofText (s : String) : Cell :=
  { shape := .text, text := Text.encode s, flags := { textOk := true, utf8 := !Text.isAscii s } }

/-- A cell that holds a reference. -/
def ofTarget (i : CellId) : Cell :=
  { shape := .ref, target := some (.strong i), flags := { refOk := true } }

/-- An array cell. -/
def ofItems (items : List CellId) : Cell := { shape := .array, payload := .array items }

/-- A hash cell. -/
def ofTable (t : Table CellId) : Cell := { shape := .hash, payload := .hash t }

/-- A code cell. -/
def ofRoutine (r : Routine) : Cell := { shape := .code, payload := .code r }

/-- A handle cell. -/
def ofHandle (name : String) : Cell := { shape := .handle, payload := .handle name }

/-- Refuses an aggregate. -/
def expectScalar (c : Cell) : Except Fault Unit :=
  if c.shape.isAggregate then .error (.mismatch (.notScalar c.shape)) else .ok ()

/-- Refuses a write to a read-only cell, and a plain write that an attachment forbids.  Hooks
may write where a plain write may not. -/
def checkWritable (c : Cell) : Except Fault Unit :=
  if c.flags.readOnly then .error .readOnly
  else if !c.flags.inHooks && c.hooks.any fun a => !a.hook.allowsWrite then .error .readOnly
  else .ok ()

/-- Moves the cell up until there is room. -/
def makeRoom (c : Cell) (need : Room) : Except Fault Cell :=
  match c.shape.growFor need with
  | some shape => .ok { c with shape }
  | none => .error (.mismatch (.notScalar c.shape))

/-- Makes room for more while keeping the room for numbers there is. -/
def makeRoomKeeping (c : Cell) (extra : Room) : Except Fault Cell :=
  c.makeRoom (c.shape.room.numeric.union extra)

/-- Forgets the scalar value. -/
def clearValue (c : Cell) : Cell :=
  { c with flags := c.flags.withoutValue, text := [], target := none }

/-- Keeps an integer beside the value it was read from; `exact` when nothing was lost. -/
def keepInt (c : Cell) (v : Int64) (exact : Bool) : Cell :=
  { c with int := v, flags := { c.flags with intHeld := true, intOk := c.flags.intOk || exact } }

/-- Keeps a float beside the value it was read from. -/
def keepFloat (c : Cell) (v : Binary64) (exact : Bool) : Cell :=
  { c with num := v, flags := { c.flags with numHeld := true, numOk := c.flags.numOk || exact } }

/-- Keeps the number read from the text.  A float that is an integer is kept as both. -/
def keepNumber (c : Cell) (n : Number) (exact : Bool) : Except Fault Cell :=
  match n with
  | .int v => do return (← c.makeRoomKeeping { text := true, int := true }).keepInt v exact
  | .float f => do
    let c := (← c.makeRoomKeeping { text := true, int := true, num := true }).keepFloat f exact
    return if f.isInt64 then c.keepInt f.toInt64 exact else c

/-- What a read finds before any conversion. -/
inductive Source
  | int (v : Int64)
  | float (v : Binary64)
  | text (b : Bytes)
  | ref (cell : CellId)
  | nothing

/-- The cell referred to, if it is alive. -/
def referent (c : Cell) (alive : CellId → Bool) : Option CellId :=
  if c.flags.refOk then
    match c.target with
    | some (.strong i) => some i
    | some (.weak i) => if alive i then some i else none
    | none => none
  else none

/-- What a read finds: integers before floats before references before text. -/
def source (c : Cell) (alive : CellId → Bool) : Source :=
  if c.flags.intOk then .int c.int
  else if c.flags.numOk then .float c.num
  else if c.flags.refOk then ((c.referent alive).map Source.ref).getD .nothing
  else if c.flags.textOk then .text c.text
  else .nothing

/-- Holds a value: an aggregate, a live reference or any form of a scalar. -/
def isDefined (c : Cell) (alive : CellId → Bool) : Bool :=
  c.shape.isAggregate ||
    if c.flags.refOk then (c.referent alive).isSome else c.flags.holdsValue

/-- The truth value: false are undef, the empty text, `0` as text or number and an empty
aggregate. -/
def truth (c : Cell) (alive : CellId → Bool) : Bool :=
  if c.shape.isAggregate then
    match c.payload with
    | .array items => items ≠ []
    | .hash t => t.size ≠ 0
    | _ => true
  else if c.flags.textOk then !(c.text = [] || c.text = [0x30])
  else if c.flags.intOk then c.int ≠ 0
  else if c.flags.numOk then !c.num.isZero
  else (c.referent alive).isSome

/-- Reading the cell as a number would lose nothing. -/
def looksNumeric (c : Cell) : Bool :=
  if c.flags.intOk || c.flags.numOk then true
  else c.flags.textOk && looksLikeNumber c.text

/-- The kind name of this cell as a referent. -/
def referentKind (c : Cell) : String :=
  if c.shape.isAggregate then c.shape.refName
  else if c.flags.refOk then "REF"
  else Shape.undef.refName

end Cell

end ScriptCore
