import ScriptCore.Cell.Basic
import ScriptCore.Package.Lineage

/-!
# Package — what is remembered of a package

A profile holds the lineages computed for a package, all names in them, and the answers to the
methods asked for.  Its generation counts how often all that was forgotten.  It also holds who
its parents were when they were last recorded, and which packages then named it as a parent.
-/

namespace ScriptCore

/-- A method that was found: its code and the package that defines it. -/
structure Method where
  code : CellId
  package : Key
  deriving Repr, Inhabited

/-- The answer to a method asked for, with the generations it was given in. -/
structure Method.Answer where
  generation : Nat
  methodGeneration : Nat
  found : Option Method
  deriving Repr

/-- Where the lineages of a package stand.  To meet a package that is `computing` is to go round
in a cycle. -/
inductive Profile.Progress
  | uncached
  | computing
  | cached
  deriving DecidableEq, Repr, Inhabited

/-- The name of a state. -/
def Profile.Progress.name : Profile.Progress → String
  | uncached => "Uncached"
  | computing => "Computing"
  | cached => "Cached"

/-- What is remembered of a package. -/
structure Profile where
  progress : Profile.Progress := .uncached
  depthFirst : Option Lineage := none
  c3 : Option Lineage := none
  ancestors : Option (List Key) := none
  generation : Nat := 0
  parents : List Key := []
  children : List Key := []
  methods : KeyMap Method.Answer := []
  deriving Repr, Inhabited

namespace Profile

/-- The lineage of an algorithm. -/
def lineage? (p : Profile) : Lineage.Algorithm → Option Lineage
  | .depthFirst => p.depthFirst
  | .c3 => p.c3

/-- A lineage is remembered. -/
def hasLineage (p : Profile) : Bool := p.depthFirst.isSome || p.c3.isSome

/-- Remembers a lineage and the names in it. -/
def keep (p : Profile) (algorithm : Lineage.Algorithm) (l : Lineage) : Profile :=
  let known := p.ancestors.getD []
  let p := { p with ancestors := some (known ++ Key.firstsAfter known l.order)
                    progress := .cached }
  match algorithm with
  | .depthFirst => { p with depthFirst := some l }
  | .c3 => { p with c3 := some l }

/-- After a lineage could not be computed. -/
def settled (p : Profile) : Profile :=
  { p with progress := if p.hasLineage then .cached else .uncached }

/-- With every lineage and answer forgotten. -/
def forgotten (p : Profile) : Profile :=
  { p with progress := .uncached, depthFirst := none, c3 := none, ancestors := none
           methods := [], generation := p.generation + 1 }

/-- The code cells that the answers hold. -/
def codes (p : Profile) : List CellId :=
  p.methods.filterMap fun e => e.2.found.map (·.code)

end Profile

end ScriptCore
