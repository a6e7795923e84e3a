import ScriptCore.Pad.Basic

/-!
# Pad — compiling: declarations, scopes and captures

Every introduction of names and every end of a scope moves the clock on by one, so what is
visible at a sequence that has passed does not change until the clock comes round.

A name is looked for among the slots of a unit, the last one first, then in the units around it
as of the sequence at which the inner one was opened.  A name found there is captured: each unit
on the way inwards gets a slot that stands for the one outside.
-/

namespace ScriptCore

namespace CodeUnit

/-- Adds a slot. -/
def addSlot (u : CodeUnit) (n : Option PadName) : CodeUnit := { u with slots := u.slots ++ [n] }

/-- The first slot of the innermost scope that is open. -/
def scopeStart (u : CodeUnit) : Nat := u.scopes.getLast?.getD 0

/-- The name would hide one that is open in the same scope and clashes with it. -/
def hides (u : CodeUnit) (n : PadName) : Bool :=
  (u.slots.drop u.scopeStart).any fun
    | some old =>
      !old.isCaptured && old.isOpen && old.answersTo n.name n.sigil &&
        n.declarator.clashes old.declarator
    | none => false

/-- Introduces every pending name. -/
def introduce (u : CodeUnit) (sequence : UInt32) : CodeUnit :=
  { u with slots := u.slots.map fun n => n.map fun n =>
      if n.isPending then { n with introduced := some sequence } else n }

/-- Closes a name; one that was never introduced is from then on never visible. -/
def closeName (sequence : UInt32) (n : PadName) : PadName :=
  if n.isCaptured || !n.isOpen then n
  else { n with introduced := n.introduced.or (some sequence), closed := some sequence }

/-- Closes every open name from a slot on. -/
def close (u : CodeUnit) (start : Nat) (sequence : UInt32) : CodeUnit :=
  { u with slots := u.slots.take start ++
      (u.slots.drop start).map fun n => n.map (closeName sequence) }

/-- The last slot that answers to a name at a sequence. -/
def visibleSlot? (u : CodeUnit) (name : Key) (sigil : Sigil) (sequence : UInt32) :
    Option Nat :=
  (u.slots.zipIdx.reverse.find? fun (n, _) =>
    (n.map fun n => n.answersTo name sigil && n.visibleAt sequence).getD false).map (·.2)

/-- The slot that stands for an outer slot already. -/
def capturedSlot? (u : CodeUnit) (name : Key) (sigil : Sigil) (outerSlot : Nat) : Option Nat :=
  u.slots.findIdx? fun n =>
    (n.map fun n => n.outerSlot? = some outerSlot && n.answersTo name sigil).getD false

end CodeUnit

/-- A scope that was entered: its unit, its first slot, and how many scopes were then open. -/
structure ScopeMark where
  unit : Nat
  start : Nat
  depth : Nat
  deriving DecidableEq, Repr, Inhabited

namespace Pads
open Beside

/-- Moves the clock on and gives the new sequence. -/
def advance : OnPads UInt32 := do
  changeSelf fun p => { p with clock := p.clock + 1 }
  return (← self).clock

/-- Opens a unit, inside another at the present sequence. -/
def openUnit (name : Option String) (outer : Option Nat) : OnPads Nat := do
  if let some o := outer then discard (unit o)
  let name ← name.mapM intern
  let p ← self
  changeSelf fun p =>
    { p with units := p.units.push { name, outer, outerSequence := p.clock } }
  return p.units.size

/-- Adds a slot to a unit and gives its number. -/
def addSlot (u : Nat) (n : Option PadName) : OnPads Nat := do
  let old ← unit u
  changeUnit u (·.addSlot n)
  return old.slots.length

/-- Declares a name, not visible before it is introduced.  To hide a name of the same scope is
reported. -/
def declare (u : Nat) (name : String) (sigil : Sigil) (declarator : Declarator) : OnPads Nat := do
  let entry : PadName := { name := ← intern name, sigil, declarator }
  if (← unit u).hides entry then
    Heap.report (.site none) (.duplicateDeclaration declarator.keyword entry.label)
  addSlot u (some entry)

/-- Records the type of a declared name. -/
def annotate (u slot : Nat) (typeName : String) : OnPads Unit := do
  let key ← intern typeName
  discard (unit u)
  let typed (n : PadName) : PadName := { n with typeName := some key }
  changeUnit u fun unit => { unit with slots := unit.slots.modify slot (·.map typed) }

/-- Adds a slot without a name. -/
def addTemporary (u : Nat) : OnPads Nat := addSlot u none

/-- Adds a slot for the closure prototype of a unit compiled directly inside. -/
def addPrototype (u nested : Nat) : OnPads Nat := do
  if (← unit nested).outer ≠ some u then throw (.mismatch .unitElsewhere)
  let name ← intern "__ANON__"
  addSlot u (some { name, sigil := .code, origin := .prototype nested
                    introduced := some (← self).clock })

/-- Makes pending names visible from the next sequence on, and gives the present one. -/
def introduce (u : Nat) : OnPads UInt32 := do
  discard (unit u)
  let sequence := (← self).clock
  changeUnit u (·.introduce sequence)
  discard advance
  return sequence

/-- Enters a scope. -/
def enterScope (u : Nat) : OnPads ScopeMark := do
  let old ← unit u
  changeUnit u fun unit => { unit with scopes := unit.scopes ++ [unit.slots.length] }
  return ⟨u, old.slots.length, old.scopes.length + 1⟩

/-- Leaves a scope, and any still open inside it.  Its names are not visible after the present
sequence. -/
def leaveScope (mark : ScopeMark) : OnPads Unit := do
  discard (unit mark.unit)
  let sequence := (← self).clock
  changeUnit mark.unit fun unit =>
    { unit with scopes := unit.scopes.take (mark.depth - 1) }.close mark.start sequence
  discard advance

/-- The slot of a name visible in a unit at a sequence. -/
def findAt (p : Pads) (u : Nat) (name : String) (sigil : Sigil) (sequence : UInt32) :
    Option Nat :=
  (p.units[u]?).bind (·.visibleSlot? (p.keyOf name) sigil sequence)

/-- The slot of a name visible in a unit now. -/
def find (p : Pads) (u : Nat) (name : String) (sigil : Sigil) : Option Nat :=
  p.findAt u name sigil p.clock

/-- The slot of a unit that stands for a slot of the enclosing unit, added if there is none. -/
def standIn (p : Pads) (u outer : Nat) (name : Key) (sigil : Sigil) (slot : Nat) :
    Option (Nat × Pads) := do
  let unit ← p.units[u]?
  let template ← ((← p.units[outer]?).slots[slot]?).join
  match unit.capturedSlot? name sigil slot with
  | some i => return (i, p)
  | none =>
    let changed := { unit.addSlot (some (template.captured slot)) with captures := true }
    return (unit.slots.length, { p with units := p.units.setIfInBounds u changed })

/-- Captures a name from the units around one, at most `levels` of them. -/
def captureWithin (name : Key) (sigil : Sigil) : Nat → Pads → Nat → Option (Nat × Pads)
  | 0, _, _ => none
  | levels + 1, p, u => do
    let unit ← p.units[u]?
    let outer ← unit.outer
    match (← p.units[outer]?).visibleSlot? name sigil unit.outerSequence with
    | some slot => p.standIn u outer name sigil slot
    | none =>
      let (slot, p) ← captureWithin name sigil levels p outer
      p.standIn u outer name sigil slot

/-- Captures a name from the units around one.  A unit is compiled inside an earlier one, so
there are fewer around it than units. -/
def capture (p : Pads) (u : Nat) (name : String) (sigil : Sigil) : Option (Nat × Pads) :=
  captureWithin (p.keyOf name) sigil p.units.size p u

/-- The slot of a name in a unit, captured from around it if need be. -/
def lookup (p : Pads) (u : Nat) (name : String) (sigil : Sigil) : Option (Nat × Pads) :=
  match p.find u name sigil with
  | some slot => some (slot, p)
  | none => p.capture u name sigil

end Pads

end ScriptCore
