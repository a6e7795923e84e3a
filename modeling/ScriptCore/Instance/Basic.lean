import ScriptCore.Advisory.Queue
import ScriptCore.Package.Dispatch
import ScriptCore.Pad.Activation

/-!
# Instance — one running system

An instance owns its advisories, its packages and its pads, and interns names in a pool that is
its own or the one all instances may share.  Nothing else is shared between instances.

A fatal fault poisons the instance: every later operation that is guarded fails with that fault.
-/

namespace ScriptCore

/-- What an instance is made from.  An instance that shares its names has no say in their
seed. -/
structure Instance.Settings where
  sharesNames : Bool := false
  seed : Option UInt64 := none
  packages : Registry.Settings := {}
  advisories : Advisory.Policy := {}
  deriving DecidableEq, Repr, Inhabited

/-- A running system; `interned` are the names it was asked to hold. -/
structure Instance where
  settings : Instance.Settings := {}
  pool : Nat
  queue : Advisory.Queue
  registry : Registry
  pads : Pads
  interned : List Key := []
  poison : Option Fault := none

/-- Operations on an instance. -/
abbrev OnInstance := OnBeside Instance

namespace Instance
open Beside

variable {α : Type}

/-- The seed of settings, where the environment may hold the text of one. -/
def Settings.nameSeed (s : Settings) (environment : Option String) : Seed :=
  Seed.configured s.seed environment

/-- A new instance. -/
def ofSettings (s : Settings) (environment : Option String) (ring : Keyring) :
    Instance × Keyring :=
  let (pool, ring) :=
    if s.sharesNames then (0, ring) else ring.newPool (s.nameSeed environment)
  ({ settings := s, pool, queue := { policy := s.advisories }
     registry := .inPool ring pool s.packages, pads := .inPool ring pool }, ring)

/-- Gives up an instance: the names it held, its packages, its pads. -/
def dispose (i : Instance) : OnHeap Unit := do
  modify fun h => { h with ring := h.ring.releaseAll (some i.pool) i.interned }
  i.registry.dispose
  i.pads.dispose

/-- An operation on the packages of an instance. -/
def onPackages (x : OnRegistry α) : OnInstance α :=
  inside (·.registry) (fun i registry => { i with registry }) x

/-- An operation on the pads of an instance. -/
def onPads (x : OnPads α) : OnInstance α := inside (·.pads) (fun i pads => { i with pads }) x

/-- Runs an operation whose reports go to the instance's own queue, and is poisoned by a fatal
fault of it. -/
def track (x : OnInstance α) : OnInstance α := do
  let before := (← onHeap).reports
  changeHeap fun h => { h with reports := #[] }
  let outcome ← attempt x
  let reports := (← onHeap).reports.toList
  changeHeap fun h => { h with reports := before }
  changeSelf fun i => { i with queue := i.queue.addAll reports }
  if let .error e := outcome then
    if e.isFatal then changeSelf fun i => { i with poison := i.poison.or (some e) }
  outcome

/-- Fails with the fault that poisoned the instance. -/
def checkUsable : OnInstance Unit := do
  if let some e := (← self).poison then throw e

/-- Runs an operation unless the instance is poisoned. -/
def guarded (x : OnInstance α) : OnInstance α := do
  checkUsable
  track x

/-- A fatal fault in a description. -/
def describePoison : Fault → String
  | .outOfMemory n => "OutOfMemory \x7b requested_buckets: " ++ toString n ++ " \x7d"
  | e => e.message

/-- An instance in a description. -/
def describe (i : Instance) (ring : Keyring) : String :=
  "Runtime \x7b keys: " ++ ring.describePool i.pool ++ ", packages: " ++
    toString i.registry.stashes.size ++ ", units: " ++ toString i.pads.units.size ++
    ", poisoned: " ++ Text.describeOption describePoison i.poison ++ ", .. \x7d"

end Instance

end ScriptCore
