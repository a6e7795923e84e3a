import ScriptCore.Cell.Basic

/-!
# Pad — names of slots

A named slot of a unit is declared in it, stands for a slot of the enclosing unit, or holds the
prototype of a closure.  A declared name is visible after the sequence at which it was
introduced, up to the one at which its scope was left; a captured name always is.
-/

namespace ScriptCore

/-- The kinds of variable. -/
inductive Sigil
  | scalar
  | array
  | hash
  | code
  deriving DecidableEq, Repr, Inhabited

namespace Sigil

/-- The character before a name of this kind. -/
def char : Sigil → Char
  | scalar => '$'
  | array => '@'
  | hash => '%'
  | code => '&'

/-- The name of a kind. -/
def name : Sigil → String
  | scalar => "Scalar"
  | array => "Array"
  | hash => "Hash"
  | code => "Code"

/-- The kind a character stands for. -/
def ofChar? : Char → Option Sigil
  | '$' => some scalar
  | '@' => some array
  | '%' => some hash
  | '&' => some code
  | _ => none

/-- A new empty cell for a variable of this kind. -/
def freshCell : Sigil → Cell
  | scalar => {}
  | code => {}
  | array => .ofItems []
  | hash => .ofTable {}

end Sigil

/-- How a name was declared: for one activation, as an alias of a package's variable, or to keep
its value from call to call. -/
inductive Declarator
  | my
  | our (package : Key)
  | state
  deriving DecidableEq, Repr

namespace Declarator

/-- The word that declares. -/
def keyword : Declarator → String
  | my => "my"
  | our _ => "our"
  | state => "state"

/-- The package whose variable the name stands for. -/
def package? : Declarator → Option Key
  | our p => some p
  | _ => none

/-- The name stands for a package's variable. -/
def isOur (d : Declarator) : Bool := d.package?.isSome

/-- The name keeps its value from call to call. -/
def isState : Declarator → Bool
  | state => true
  | _ => false

/-- Two declarations of one name clash, unless both stand for variables of different
packages. -/
def clashes (a b : Declarator) : Bool :=
  match a, b with
  | our p, our q => p.same q
  | _, _ => true

end Declarator

/-- Where a name comes from: it is the unit's own, stands for a slot of the enclosing unit, or
holds the closure prototype of a nested unit. -/
inductive PadName.Origin
  | own
  | captured (outerSlot : Nat)
  | prototype (nested : Nat)
  deriving DecidableEq, Repr

/-- A named slot.  It is `introduced` and `closed` at sequences of the compile clock. -/
structure PadName where
  name : Key
  sigil : Sigil
  declarator : Declarator := .my
  origin : PadName.Origin := .own
  introduced : Option UInt32 := none
  closed : Option UInt32 := none
  typeName : Option Key := none
  deriving DecidableEq, Repr

namespace PadName

/-- The slot of the enclosing unit that the name stands for. -/
def outerSlot? (n : PadName) : Option Nat :=
  match n.origin with
  | .captured slot => some slot
  | _ => none

/-- The unit whose closure prototype the slot holds. -/
def nested? (n : PadName) : Option Nat :=
  match n.origin with
  | .prototype unit => some unit
  | _ => none

/-- The name stands for a slot of the enclosing unit. -/
def isCaptured (n : PadName) : Bool := n.outerSlot?.isSome

/-- Declared and not yet introduced. -/
def isPending (n : PadName) : Bool := !n.isCaptured && n.introduced.isNone

/-- The scope of the name has not been left. -/
def isOpen (n : PadName) : Bool := n.closed.isNone

/-- The name can be found at a sequence. -/
def visibleAt (n : PadName) (sequence : UInt32) : Bool :=
  n.isCaptured ||
    match n.introduced with
    | none => false
    | some first =>
      first < sequence && (n.closed.map fun last => decide (sequence ≤ last)).getD true

/-- The slot answers to a name and sigil. -/
def answersTo (n : PadName) (name : Key) (sigil : Sigil) : Bool :=
  n.sigil = sigil && n.name.same name

/-- The name by which an inner unit refers to this one in the given slot. -/
def captured (n : PadName) (slot : Nat) : PadName :=
  { n with origin := .captured slot, introduced := none, closed := none }

/-- Every frame of a call shares the cell of this slot. -/
def sharedByFrames (n : PadName) : Bool :=
  n.isCaptured || n.declarator.isState || n.declarator.isOur

/-- How the name was declared and where it comes from, as bits: `our`, `state`, captured,
prototype. -/
def marks (n : PadName) : Nat :=
  [n.declarator.isOur, n.declarator.isState, n.isCaptured, n.nested?.isSome].foldr
    (fun b rest => b.toNat + 2 * rest) 0

/-- The name with its sigil. -/
def label (n : PadName) : String := n.sigil.char.toString ++ n.name.text

end PadName

end ScriptCore
