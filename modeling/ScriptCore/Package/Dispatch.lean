import ScriptCore.Package.Ancestry

/-!
# Package — methods and where they are found

A method is looked for along the lineage of a package.  The answer is remembered, also when
there is none, and holds while neither the package has forgotten its lineage nor any method has
changed since.
-/

namespace ScriptCore.Registry
open Beside

/-- Defines a method, and the package if it is new.  Code without a package becomes its own.
Replacing a method is reported. -/
def defineMethod (package method : String) (code : CellId) : OnRegistry Unit := do
  discard (define package)
  let owner := (← self).keyOf package
  Heap.updateRoutine code fun r => { r with package := r.package.or (some owner) }
  let stash ← define package
  let old ← Heap.store stash (.ofText method) code
  if let some i := old then
    if ((← onHeap).cell i).shape = .code then
      Heap.report (.site none) (.redefined package method)
    changeHeap (·.release i)
  methodsChanged

/-- Removes a method a package defines, and hands over its code. -/
def removeMethod (package method : String) : OnRegistry (Option CellId) := do
  let r ← self
  let key := r.keyOf package
  match ← (r.ownMethod key method : OnHeap _), r.stash? key with
  | some _, some stash =>
    let removed ← Heap.delete stash (.ofText method)
    if removed.isSome then methodsChanged
    return removed
  | _, _ => return none

/-- Looks for a method in packages, each with its place in the lineage of `origin`.  A parent
that is not defined is reported and passed over. -/
def search (r : Registry) (origin : Key) (method : String) :
    List (Key × Nat) → OnHeap (Option Method)
  | [] => return none
  | (package, place) :: rest => do
    if r.isDefined package then
      match ← r.ownMethod package method with
      | some code => return some ⟨code, (r.key? package).getD package⟩
      | none => r.search origin method rest
    else
      if place ≠ 0 ∧ !package.isUniversal then
        Heap.report (.site none) (.missingPackage package.text origin.text)
      r.search origin method rest

/-- The answer that is remembered and still holds. -/
def answer? (r : Registry) (package method : Key) : Option (Option Method) :=
  let p := r.profile package
  (p.methods.get? method).bind fun a =>
    if a.generation = p.generation ∧ a.methodGeneration = r.methodGeneration then some a.found
    else none

/-- Remembers an answer, and lets go of the code that an older one held. -/
def rememberAnswer (package method : Key) (found : Option Method) : OnRegistry Unit := do
  let r ← self
  let p := r.profile package
  let old := (p.methods.get? method).bind (·.found)
  let answer : Method.Answer := ⟨p.generation, r.methodGeneration, found⟩
  changeHeap (·.retainAll (found.map (·.code)).toList)
  remember package fun p => { p with methods := p.methods.put method answer }
  changeHeap (·.letGo (old.map (·.code)).toList)

/-- The method of a package: its own, or the first along its lineage. -/
def resolve (package method : String) : OnRegistry (Option Method) := do
  let r ← self
  let key := r.keyOf package
  let name : Key := .probe (.ofText method) r.seed
  match r.answer? key name with
  | some found => return found
  | none =>
    let lineage ← linearizeKey r.settings.algorithm key
    let found ← (← self).search key method lineage.order.zipIdx
    rememberAnswer key name found
    return found

/-- The method after the package itself in its lineage.  Nothing is remembered. -/
def resolveSuper (package method : String) : OnRegistry (Option Method) := do
  let r ← self
  let key := r.keyOf package
  let lineage ← linearizeKey r.settings.algorithm key
  (← self).search key method (lineage.order.zipIdx.drop 1)

/-- The package has or inherits a method. -/
def can (package method : String) : OnRegistry Bool := return (← resolve package method).isSome

end ScriptCore.Registry
