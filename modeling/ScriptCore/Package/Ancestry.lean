import ScriptCore.Package.Registry

/-!
# Package — lineages, and what makes them stale

`linearizeWithin` computes the lineage of a package from those of its parents, and remembers it.
A package met again while its lineage is computed, or a chain of parents longer than the limit,
is taken for a cycle.  A lineage that is remembered is taken as it is, but not below the limit.

A change to a parent list makes the package and all that inherit from it forget what they know.
-/

namespace ScriptCore.Registry
open Beside

/-- The lineage of a package, with parents at most `levels` deep counting the package itself. -/
def linearizeWithin (algorithm : Lineage.Algorithm) : Nat → Key → OnRegistry Lineage
  | 0, package => throw (.cycle package.text)
  | levels + 1, package => do
    let p := (← self).profile package
    if let some l := p.lineage? algorithm then return l
    if p.progress = .computing then throw (.cycle package.text)
    remember package fun p => { p with progress := .computing }
    let outcome ← attempt do
      let parents ← (← self).parents package
      let lineages ← parents.mapM (linearizeWithin algorithm levels)
      match Lineage.merge algorithm package parents (lineages.map (·.order)) with
      | some order => return order
      | none => throw (.inconsistent package.text)
    match outcome with
    | .ok order =>
      let (serial, supply) := (← onHeap).ring.supply.fresh
      changeHeap fun h => { h with ring := { h.ring with supply } }
      let l : Lineage := ⟨serial, Lineage.closed ((← self).keyOf universal) order⟩
      remember package (·.keep algorithm l)
      return l
    | .error e =>
      remember package Profile.settled
      throw e

/-- The lineage of a package given by key. -/
def linearizeKey (algorithm : Lineage.Algorithm) (package : Key) : OnRegistry Lineage := do
  linearizeWithin algorithm ((← self).settings.limit + 1) package

/-- The lineage of a package. -/
def linearizeBy (algorithm : Lineage.Algorithm) (name : String) : OnRegistry Lineage := do
  linearizeKey algorithm ((← self).keyOf name)

/-- The lineage of a package by the algorithm of the settings. -/
def linearize (name : String) : OnRegistry Lineage := do
  linearizeBy (← self).settings.algorithm name

/-- The package is the other one or inherits from it. -/
def isA (name ancestor : String) : OnRegistry Bool := do
  let r ← self
  let package := r.keyOf name
  let target := r.keyOf ancestor
  if package.same target then return true
  if (r.profile package).ancestors = none then
    discard (linearizeKey r.settings.algorithm package)
  return target.isIn (((← self).profile package).ancestors.getD [])

/-- Records the parents of a package with its old and its new parents. -/
def recordParents (package : Key) (parents : List Key) : OnRegistry Unit := do
  let lost := ((← self).profile package).parents.filter fun k => !k.isIn parents
  changeSelf fun r =>
    { r with profiles := lost.foldl (fun m k => KeyMap.adjust m k fun p =>
        { p with children := p.children.filter fun c => !package.same c }) r.profiles }
  parents.forM fun k => remember k fun p =>
    { p with children := if package.isIn p.children then p.children else p.children ++ [package] }

/-- The children of every package as they were recorded. -/
def recordedChildren (r : Registry) : KeyMap (List Key) :=
  r.profiles.map fun (k, p) => (k, p.children)

/-- The children of every package, read off every parent list. -/
def childrenNow (r : Registry) : OnHeap (KeyMap (List Key)) :=
  r.names.foldlM (fun (index : KeyMap (List Key)) package => do
    return (← r.parents package).foldl
      (fun index k => KeyMap.update index k [] (· ++ [package])) index) []

/-- All that is reached from `todo` through an index and is not among `found`, in at most
`steps` steps. -/
def reachWithin (index : KeyMap (List Key)) : Nat → List Key → List Key → List Key
  | 0, _, found => found
  | _ + 1, [], found => found
  | steps + 1, k :: todo, found =>
    if k.isIn found then reachWithin index steps todo found
    else reachWithin index steps (((index.get? k).getD []).reverse ++ todo) (found ++ [k])

/-- A package and all that inherit from it by an index of children.  Each entry of the index is
followed once at most. -/
def descendants (index : KeyMap (List Key)) (package : Key) : List Key :=
  reachWithin index ((index.flatMap fun e => e.2).length + 1) [package] []

/-- Makes a package forget. -/
def forget (package : Key) : OnRegistry Unit := do
  let codes := ((← self).profile package).codes
  remember package Profile.forgotten
  changeHeap (·.letGo codes)

/-- Makes a package whose parent list has changed forget, with all that inherit from it.  Counts
them. -/
def parentsChanged (name : String) : OnRegistry Nat := do
  let r ← self
  let package := r.keyOf name
  let parents ← r.parents package
  if r.settings.policy = .incremental then recordParents package parents
  remember package fun p => { p with parents }
  let r ← self
  let index ← match r.settings.policy with
    | .incremental => pure r.recordedChildren
    | .onDemand => (r.childrenNow : OnHeap _)
  let affected := descendants index package
  affected.forM forget
  return affected.length

/-- Replaces the parent list of a package.  Counts the packages that forget. -/
def setParents (name : String) (list : List String) : OnRegistry Nat := do
  writeParents name list
  parentsChanged name

/-- Makes answers to methods stale everywhere. -/
def methodsChanged : OnRegistry Unit :=
  changeSelf fun r => { r with methodGeneration := r.methodGeneration + 1 }

/-- Makes every package forget. -/
def forgetAll : OnRegistry Unit := do
  (← self).profiles.forM fun (k, _) => forget k
  methodsChanged

end ScriptCore.Registry
