import ScriptCore.Advisory.Code
import ScriptCore.Cell.Shape
import ScriptCore.Table.Refusal

/-!
# Fault — why an operation fails

A fault ends the one operation that raised it and is handed to the caller.  A fault of a fatal
code ends the instance as well.
-/

namespace ScriptCore

/-- One activation of a unit: its place among activations, and how often that place had been
vacated when it was taken. -/
structure ActivationId where
  index : Nat
  generation : UInt32
  deriving DecidableEq, Repr, Inhabited

/-- A value of one kind where another is wanted. -/
inductive Mismatch
  | notScalar (got : Shape)
  | notReference (got : Shape)
  | notShape (wanted got : Shape)
  | parentsNotArray
  | notBlessed
  | foreignUnit
  | unitElsewhere
  | activationElsewhere
  | slotPastEnd
  deriving DecidableEq, Repr

/-- What was wanted. -/
def Mismatch.wanted : Mismatch → String
  | notScalar _ => "a scalar"
  | notReference _ => "a reference"
  | notShape wanted _ => wanted.refName
  | parentsNotArray => "an ISA array"
  | notBlessed => "a blessed reference"
  | foreignUnit => "a unit of this arena"
  | unitElsewhere => "a unit compiled inside the enclosing unit"
  | activationElsewhere => "an activation of the enclosing unit"
  | slotPastEnd => "a pad slot"

/-- What was there. -/
def Mismatch.got : Mismatch → String
  | notScalar got => got.refName
  | notReference got => got.refName
  | notShape _ got => got.refName
  | parentsNotArray => "a scalar"
  | notBlessed => "an unblessed value"
  | foreignUnit => "a foreign unit id"
  | unitElsewhere => "a unit compiled elsewhere"
  | activationElsewhere => "an activation of another unit"
  | slotPastEnd => "an index past the end of the pad"

/-- A failed operation. -/
inductive Fault
  | mismatch (what : Mismatch)
  | readOnly
  | denied (key : String) (why : Denial)
  | cycle (package : String)
  | inconsistent (package : String)
  | outOfMemory (buckets : Nat)
  | stale (activation : ActivationId)
  deriving DecidableEq, Repr

namespace Fault

/-- A refused table operation as a fault. -/
def ofRefusal : Refusal → Fault
  | .denied key why => .denied key why
  | .outOfMemory n => .outOfMemory n

/-- The code of a fault. -/
def code : Fault → Code
  | mismatch _ => .kindMismatch
  | readOnly => .readOnly
  | denied _ _ => .accessDenied
  | cycle _ => .inheritanceCycle
  | inconsistent _ => .inconsistentHierarchy
  | outOfMemory _ => .outOfMemory
  | stale _ => .staleActivation

/-- The fault ends the instance. -/
def isFatal (f : Fault) : Bool := f.code.isFatal

/-- The name of a kind of fault. -/
def name : Fault → String
  | mismatch _ => "TypeMismatch"
  | readOnly => "Immutable"
  | denied _ _ => "AccessDenied"
  | cycle _ => "InheritanceCycle"
  | inconsistent _ => "InconsistentHierarchy"
  | outOfMemory _ => "OutOfMemory"
  | stale _ => "StaleActivation"

/-- The rule that a denied access broke. -/
def denial? : Fault → Option Denial
  | denied _ why => some why
  | _ => none

/-- The text of a fault. -/
def message : Fault → String
  | mismatch m => "Not " ++ m.wanted ++ ": got " ++ m.got
  | readOnly => "Modification of a read-only value attempted"
  | denied key why => why.message key
  | cycle p => "Recursive inheritance detected in package '" ++ p ++ "'"
  | inconsistent p => "Inconsistent hierarchy during C3 merge of class '" ++ p ++ "'"
  | outOfMemory n => "Out of memory (" ++ toString n ++ " buckets requested)"
  | stale a =>
    "Activation " ++ toString a.index ++ " (generation " ++ toString a.generation.toNat ++
      ") is no longer live"

end Fault

/-- A computation without state, inside one that keeps its state when it fails. -/
instance liftOutcome {ε σ : Type} : MonadLift (Except ε) (EStateM ε σ) where
  monadLift x := fun s =>
    match x with
    | .ok a => .ok a s
    | .error e => .error e s

/-- Runs a computation and gives its outcome; what it did stays done. -/
def attempt {ε σ α : Type} (x : EStateM ε σ α) : EStateM ε σ (Except ε α) := fun s =>
  match x s with
  | .ok a s => .ok (.ok a) s
  | .error e s => .ok (.error e) s

end ScriptCore
