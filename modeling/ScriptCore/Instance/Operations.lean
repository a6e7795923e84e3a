import ScriptCore.Instance.Basic

/-!
# Instance — what a host may ask for

Every operation here is refused by a poisoned instance before it does anything, except `sweep`
and that `resolveFor` looks at its reference first.
-/

namespace ScriptCore.Instance
open Beside

/-- The seed of the names of an instance. -/
def seed (i : Instance) (ring : Keyring) : Seed := (ring.pool i.pool).seed

/-- A new empty hash with keys of its own. -/
def newMap : OnInstance CellId := do
  checkUsable
  Heap.new (.ofTable { seed := (← self).seed (← onHeap).ring })

/-- Room for a number of keys in a hash. -/
def reserve (map : CellId) (expected : Nat) : OnInstance Unit :=
  guarded (Heap.reserve map expected : OnHeap Unit)

/-- Interns a name, to be held as long as the instance. -/
def intern (name : String) : OnInstance Key := do
  checkUsable
  let (key, ring) := (← onHeap).ring.intern (← self).pool (.ofText name)
  changeHeap fun h => { h with ring }
  changeSelf fun i => { i with interned := i.interned ++ [key] }
  return key

/-- Defines a package and gives its interned name. -/
def definePackage (name : String) : OnInstance Key :=
  guarded (onPackages do
    discard (Registry.define name)
    return (← self).keyOf name)

/-- Blesses the referent of a reference into a package, defined now if it is new. -/
def bless (reference : CellId) (package : String) : OnInstance Unit := do
  let key ← definePackage package
  Heap.bless reference key

/-- A new cell bound to a variable of an environment. -/
def variableOf (environment : Nat) (name : String) (anyCase : Bool) : OnInstance CellId := do
  checkUsable
  let i ← Heap.new {}
  Heap.attach i .environment (.environment environment name anyCase)
  return i

/-- Replaces the parents of a package. -/
def setParents (name : String) (list : List String) : OnInstance Nat :=
  guarded (onPackages (Registry.setParents name list))

/-- Defines a method. -/
def defineMethod (package method : String) (code : CellId) : OnInstance Unit :=
  guarded (onPackages (Registry.defineMethod package method code))

/-- Defines a built-in method. -/
def defineNative (package method : String) (body : Native) : OnInstance Unit := do
  let name ← intern method
  let code ← Heap.new (.ofRoutine { name := some name, native := some body })
  let defined ← attempt (defineMethod package method code)
  changeHeap (·.release code)
  defined

/-- Removes a method and hands over its code. -/
def removeMethod (package method : String) : OnInstance (Option CellId) :=
  guarded (onPackages (Registry.removeMethod package method))

/-- The lineage of a package by the algorithm of the settings. -/
def linearize (name : String) : OnInstance Lineage :=
  guarded (onPackages (Registry.linearize name))

/-- The lineage of a package by an algorithm. -/
def linearizeBy (algorithm : Lineage.Algorithm) (name : String) : OnInstance Lineage :=
  guarded (onPackages (Registry.linearizeBy algorithm name))

/-- The method of a package. -/
def resolve (package method : String) : OnInstance (Option Method) :=
  guarded (onPackages (Registry.resolve package method))

/-- The method after the package itself in its lineage. -/
def resolveSuper (package method : String) : OnInstance (Option Method) :=
  guarded (onPackages (Registry.resolveSuper package method))

/-- The method of the package of the object a reference points at. -/
def resolveFor (reference : CellId) (method : String) : OnInstance (Option Method) := do
  match (← onHeap).blessed? reference with
  | none => throw (.mismatch .notBlessed)
  | some package => resolve package.text method

/-- The package has or inherits a method. -/
def can (package method : String) : OnInstance Bool := return (← resolve package method).isSome

/-- The package is the other one or inherits from it. -/
def isA (package ancestor : String) : OnInstance Bool :=
  guarded (onPackages (Registry.isA package ancestor))

/-- Opens a unit. -/
def openUnit (name : Option String) (outer : Option Nat) : OnInstance Nat :=
  guarded (onPads (Pads.openUnit name outer))

/-- Declares a name in a unit. -/
def declare (u : Nat) (name : String) (sigil : Sigil) (declarator : Declarator) :
    OnInstance Nat :=
  guarded (onPads (Pads.declare u name sigil declarator))

/-- A closure of a unit inside an activation. -/
def makeClosure (u : Nat) (outer : Option ActivationId) : OnInstance CellId :=
  guarded (onPads (Pads.makeClosure u outer))

/-- Removes activations whose code cell has gone, and counts them. -/
def sweep : OnInstance Nat := onPads Pads.sweep

/-- Reports an advisory of the host. -/
def advise (a : Advisory) : OnInstance Unit :=
  changeSelf fun i => { i with queue := (i.queue.add a).2 }

/-- Takes every advisory reported so far. -/
def takeAdvisories : OnInstance (List Advisory) := do
  let (taken, queue) := (← self).queue.flush
  changeSelf fun i => { i with queue }
  return taken

end ScriptCore.Instance
