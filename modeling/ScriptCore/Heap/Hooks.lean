import ScriptCore.Heap.Assign
import ScriptCore.Heap.Convert

/-!
# Heap — running hooks

`runHooks` runs the attachments a cell has at that moment, in the order they were attached, and
stops at the first that fails.  While they run the cell is marked `inHooks`, so nothing they do
to it runs hooks again; the mark is gone when the run ends, however it ends.

An environment attachment reads its variable before the first read of the cell and writes every
later value through.
-/

namespace ScriptCore

namespace Environment

/-- A variable under its exact name. -/
def get? (e : Environment) (name : String) : Option String := e.host.var e.vars name

/-- The first variable shown under a name in any case of its ASCII letters. -/
def find? (e : Environment) (name : String) : Option (String × String) :=
  e.vars.find? fun v => v.1.toLower = name.toLower

/-- Sets a variable. -/
def put (e : Environment) (name value : String) : Environment :=
  { e with vars := e.host.set e.vars name value }

/-- Removes a variable. -/
def erase (e : Environment) (name : String) : Environment :=
  { e with vars := e.host.remove e.vars name }

/-- The value of the variable an attachment stands for. -/
def valueFor (e : Environment) (name : String) (anyCase : Bool) : Option String :=
  if anyCase then (e.find? name).map (·.2) else e.get? name

/-- The name under which an attachment stores its variable: the spelling there is when case
does not count, else its own. -/
def nameFor (e : Environment) (name : String) (anyCase : Bool) : String :=
  if anyCase then ((e.find? name).map (·.1)).getD name else name

end Environment

namespace Heap

/-- An environment by number. -/
def environment (h : Heap) (e : Nat) : Environment := h.environments.getD e {}

/-- Changes an environment. -/
def updateEnvironment (h : Heap) (e : Nat) (f : Environment → Environment) : Heap :=
  { h with environments := h.environments.modify e f }

/-- A new empty environment, and its number. -/
def newEnvironment (h : Heap) : Nat × Heap :=
  (h.environments.size, { h with environments := h.environments.push {} })

/-- A taint mark. -/
def taint (h : Heap) (t : Nat) : Bool := h.taints.getD t false

/-- Sets a taint mark. -/
def setTaint (h : Heap) (t : Nat) (on : Bool) : Heap :=
  { h with taints := h.taints.setIfInBounds t on }

/-- A new taint mark, not set, and its number. -/
def newTaint (h : Heap) : Nat × Heap := (h.taints.size, { h with taints := h.taints.push false })

/-- How often an attachment has acted. -/
def firedBefore (h : Heap) (a : Attachment) : Nat := h.fired.getD a.number 0

/-- Counts one more act of an attachment. -/
def noteFired (a : Attachment) : OnHeap Unit :=
  modify fun h => { h with fired := h.fired.modify a.number (· + 1) }

/-- Reads the variable into the cell, the first time only. -/
def materialize (i : CellId) (a : Attachment) (e : Nat) (name : String) (anyCase : Bool) :
    OnHeap Unit := do
  if (← get).firedBefore a = 0 then
    noteFired a
    match ((← get).environment e).valueFor name anyCase with
    | some value => assignText i value
    | none => undefine i

/-- Writes the text of the cell to the variable, or removes it when the cell is undefined. -/
def writeThrough (i : CellId) (a : Attachment) (e : Nat) (name : String) (anyCase : Bool) :
    OnHeap Unit := do
  noteFired a
  let h ← get
  let stored := (h.environment e).nameFor name anyCase
  if (h.cell i).isDefined h.isAlive then
    let value ← readText i .silent
    modify (·.updateEnvironment e (·.put stored value))
  else modify (·.updateEnvironment e (·.erase stored))

/-- Upper case for ASCII letters. -/
def upcase (s : String) : String := s.map Char.toUpper

/-- One action of a host's hook on its own cell. -/
def perform (i : CellId) (a : Attachment) : Action → OnHeap Unit
  | .tally => do
    noteFired a
    assignInt i (Int64.ofNat ((← get).firedBefore a))
  | .refuse => throw .readOnly
  | .attach kind label => attach i kind (.host { label })
  | .detach kind => discard (detach i kind)
  | .upcase => do assignText i (upcase (← readText i .silent))
  | .show => do log (← readText i .silent)
  | .wipe => undefine i

/-- Runs one attachment. -/
def fire (phase : Phase) (i : CellId) (a : Attachment) : OnHeap Unit :=
  match a.hook, phase with
  | .taint t, .get =>
    modify fun h => if (h.cell i).flags.tainted then h.setTaint t true else h
  | .taint t, .set =>
    modify fun h => h.updateCell i fun c =>
      { c with flags := { c.flags with tainted := h.taint t } }
  | .taint _, .clear => pure ()
  | .environment e name anyCase, .get => materialize i a e name anyCase
  | .environment e name anyCase, .set => writeThrough i a e name anyCase
  | .environment e name anyCase, .clear =>
    modify fun h => h.updateEnvironment e fun v => v.erase (v.nameFor name anyCase)
  | .readOnly, _ => pure ()
  | .host hooks, phase => do
    log (hooks.label ++ "." ++ phase.name)
    (hooks.actions phase).forM (perform i a)

/-- Marks a cell as having its hooks run, or not. -/
def markInHooks (i : CellId) (on : Bool) : OnHeap Unit :=
  modify (·.updateCell i fun c => { c with flags := { c.flags with inHooks := on } })

/-- Runs the hooks of a cell for a phase, unless they are running. -/
def runHooks (phase : Phase) (i : CellId) : OnHeap Unit := do
  let c := (← get).cell i
  if c.hooks = [] ∨ c.flags.inHooks then return
  markInHooks i true
  let result ← attempt (c.hooks.forM (fire phase i))
  markInHooks i false
  result

end Heap

end ScriptCore
