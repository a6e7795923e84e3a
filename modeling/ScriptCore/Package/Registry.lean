import ScriptCore.Heap.Aggregate
import ScriptCore.Heap.Beside
import ScriptCore.Package.Profile

/-!
# Package — packages and their stashes

Each package has a stash, a hash cell that maps names to what the package defines.  The entry
`ISA` holds an array of parent names; every other entry that holds a code cell is a method.

Parent names are read as bytes, so a name that is not ASCII names the package spelt by those
bytes.
-/

namespace ScriptCore

/-- Whether the children of each package are recorded as parents change, or read off every
parent list when they are needed. -/
inductive Registry.Policy
  | incremental
  | onDemand
  deriving DecidableEq, Repr, Inhabited

/-- The name of a policy. -/
def Registry.Policy.name : Registry.Policy → String
  | incremental => "Incremental"
  | onDemand => "Lazy"

/-- The policy of a name. -/
def Registry.Policy.ofName? (s : String) : Option Registry.Policy :=
  [incremental, onDemand].find? (·.name = s)

/-- How lineages are computed: how deep parents may nest, how children are found, and the
algorithm where none is named. -/
structure Registry.Settings where
  limit : Nat := 100
  policy : Registry.Policy := .incremental
  algorithm : Lineage.Algorithm := .depthFirst
  deriving DecidableEq, Repr, Inhabited

/-- Packages, and what is remembered of them.  `methodGeneration` counts changes to methods. -/
structure Registry where
  pool : Nat
  stashes : Table CellId
  settings : Registry.Settings := {}
  profiles : KeyMap Profile := []
  methodGeneration : Nat := 0
  deriving Inhabited

/-- Operations on packages. -/
abbrev OnRegistry := OnBeside Registry

namespace Registry
open Beside

/-- The stash entry of the parent list. -/
def parentEntry : String := "ISA"

/-- No packages, with names interned in a pool.  The seed stays, because remembered keys must
keep matching. -/
def inPool (ring : Keyring) (pool : Nat) (settings : Settings) : Registry :=
  { pool, stashes := (Table.inPool ring pool).pinSeed, settings }

/-- The seed of package names. -/
def seed (r : Registry) : Seed := r.stashes.seed

/-- The stash of a package. -/
def stash? (r : Registry) (name : Spelling) : Option CellId := r.stashes.fetch? name

/-- The package is defined. -/
def isDefined (r : Registry) (name : Spelling) : Bool := r.stashes.contains name

/-- The interned name of a defined package. -/
def key? (r : Registry) (name : Spelling) : Option Key := r.stashes.storedKey? name

/-- A key for a package, defined or not. -/
def keyOf (r : Registry) (name : String) : Key :=
  (r.key? (.ofText name)).getD (.probe (.ofText name) r.seed)

/-- What is remembered of a package. -/
def profile (r : Registry) (package : Key) : Profile := (r.profiles.get? package).getD {}

/-- Changes what is remembered of a package. -/
def remember (package : Key) (f : Profile → Profile) : OnRegistry Unit :=
  changeSelf fun r => { r with profiles := r.profiles.update package {} f }

/-- The stash of a package, defined now if it is new. -/
def define (name : String) : OnRegistry CellId := do
  let r ← self
  match r.stash? (.ofText name) with
  | some i => return i
  | none =>
    let h ← onHeap
    let (_, stashes, ring) ← Heap.admitted (r.stashes.store h.ring (.ofText name) h.cells.size)
    changeSelf fun r => { r with stashes }
    changeHeap fun h => { h with ring }
    Heap.new (.ofTable (.inPool ring r.pool))

/-- The names of every package. -/
def names (r : Registry) : List Key := r.stashes.keys

/-- The array of parent names, if the package has one. -/
def parentArray? (r : Registry) (package : Key) : OnHeap (Option CellId) := do
  match r.stash? package with
  | none => return none
  | some stash =>
    let entry ← Heap.fetch stash (.ofText parentEntry)
    let h ← get
    return entry.filter fun i => (h.cell i).shape = .array

/-- The direct parents of a package, in order. -/
def parents (r : Registry) (package : Key) : OnHeap (List Key) := do
  match ← r.parentArray? package with
  | none => return []
  | some isa =>
    (← Heap.items isa).mapM fun i => return .probe (.ofBytes (← Heap.getBytes i .silent)) r.seed

/-- The parent array of a package that is being written, made now if there is none. -/
def parentArray (stash : CellId) : OnHeap CellId := do
  match ← Heap.fetch stash (.ofText parentEntry) with
  | some isa =>
    if ((← get).cell isa).shape = .array then return isa
    else throw (.mismatch .parentsNotArray)
  | none =>
    let isa ← Heap.newArray []
    let stored ← attempt (Heap.store stash (.ofText parentEntry) isa)
    modify (·.release isa)
    discard stored
    return isa

/-- Replaces the parent list of a package, defining the package if it is new. -/
def writeParents (name : String) (list : List String) : OnRegistry Unit := do
  let stash ← define name
  let isa ← parentArray stash
  let names ← list.mapM fun s => Heap.new (.ofText s)
  let written ← attempt (Heap.assignItems isa names : OnHeap Unit)
  changeHeap (·.letGo names)
  written

/-- The code a package itself defines for a method. -/
def ownMethod (r : Registry) (package : Key) (method : String) : OnHeap (Option CellId) := do
  match r.stash? package with
  | none => return none
  | some stash =>
    if method = parentEntry then return none
    let entry ← Heap.fetch stash (.ofText method)
    let h ← get
    return entry.filter fun i => (h.cell i).shape = .code

/-- What is remembered of each package. -/
def remembered (r : Registry) : List Profile := r.profiles.map fun e => e.2

/-- Lets go of every stash and of every code cell an answer holds. -/
def dispose (r : Registry) : OnHeap Unit :=
  modify fun h =>
    let (stashes, ring) := r.stashes.dispose h.ring
    { h with ring }.letGo (stashes ++ r.remembered.flatMap Profile.codes)

/-- How many packages have a lineage that is remembered. -/
def cachedCount (r : Registry) : Nat := r.remembered.countP Profile.hasLineage

/-- The packages in a description. -/
def describe (r : Registry) : String :=
  "PackageTable \x7b packages: " ++ toString r.stashes.size ++ ", .. \x7d"

/-- What is remembered, in a description. -/
def describeCache (r : Registry) : String :=
  "MroCache \x7b packages: " ++ toString r.stashes.size ++ ", cached: " ++
    toString r.cachedCount ++ ", sub_generation: " ++ toString r.methodGeneration ++ ", .. \x7d"

end Registry

end ScriptCore
