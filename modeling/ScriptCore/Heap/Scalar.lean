import ScriptCore.Heap.Hooks

/-!
# Heap — reading and writing cells

A read runs the get hooks of the cell before it looks at the value; a write runs the set hooks
after the value is stored.  A copy reads its source and writes its destination, and owns its
referent whenever that is alive, even if the source did not.
-/

namespace ScriptCore.Heap

/-- The cell as an integer. -/
def getInt (i : CellId) (sink : Sink) : OnHeap Int64 := do
  runHooks .get i
  readInt i sink

/-- The cell as a float. -/
def getFloat (i : CellId) (sink : Sink) : OnHeap Binary64 := do
  runHooks .get i
  readFloat i sink

/-- The cell as bytes. -/
def getBytes (i : CellId) (sink : Sink) : OnHeap Bytes := do
  runHooks .get i
  readBytes i sink

/-- The cell as text. -/
def getText (i : CellId) (sink : Sink) : OnHeap String := do
  runHooks .get i
  readText i sink

/-- The cell as a truth value. -/
def getTruth (i : CellId) : OnHeap Bool := do
  runHooks .get i
  let h ← get
  return (h.cell i).truth h.isAlive

/-- The cell holds a value; no hook runs. -/
def isDefined (h : Heap) (i : CellId) : Bool := (h.cell i).isDefined h.isAlive

/-- Stores an integer. -/
def setInt (i : CellId) (v : Int64) : OnHeap Unit := do
  assignInt i v
  runHooks .set i

/-- Stores a float. -/
def setFloat (i : CellId) (v : Binary64) : OnHeap Unit := do
  assignFloat i v
  runHooks .set i

/-- Stores bytes. -/
def setBytes (i : CellId) (b : Bytes) : OnHeap Unit := do
  assignBytes i b
  runHooks .set i

/-- Stores a text. -/
def setText (i : CellId) (s : String) : OnHeap Unit := do
  assignText i s
  runHooks .set i

/-- Stores a reference. -/
def setRef (i : CellId) (target : CellId) : OnHeap Unit := do
  assignRef i target
  runHooks .set i

/-- Makes the cell undefined. -/
def setUndef (i : CellId) : OnHeap Unit := do
  undefine i
  runHooks .set i

/-- What a copy refers to: what its source refers to, owned if it is alive. -/
def copiedTarget (h : Heap) (c : Cell) : Option Target :=
  if c.flags.refOk then
    c.target.map fun t => if h.isAlive t.cell then .strong t.cell else t
  else none

/-- Copies the value of a cell into another. -/
def copyFrom (i source : CellId) : OnHeap Unit := do
  if i = source then return
  runHooks .get source
  let h ← get
  let c := h.cell source
  c.expectScalar
  let target := h.copiedTarget c
  let (gains, weak) : Option CellId × Bool := match target with
    | some (.strong j) => (some j, false)
    | _ => (none, c.flags.weak)
  let flags := { c.flags.copied with weak }
  assign i c.shape.room.values gains fun d =>
    { d with int := c.int, num := c.num, text := c.text, target, flags := d.flags.union flags }
  runHooks .set i

/-- Moves a cell up to a shape.  A scalar shape at or below the present one changes nothing;
aggregates are reached from `undef` alone. -/
def upgrade (i : CellId) (shape : Shape) : OnHeap Unit := do
  let h ← get
  let c := h.cell i
  if c.shape.climbsTo shape then
    let payload := if shape.isAggregate ∧ c.shape ≠ shape then .fresh shape else c.payload
    set (h.setCell i { c with shape, payload })
  else if c.shape.isAggregate ∨ shape.isAggregate then
    throw (.mismatch (.notShape shape c.shape))

/-- Refuses writes from now on, or allows them. -/
def setReadOnly (h : Heap) (i : CellId) (on : Bool) : Heap :=
  h.updateCell i fun c => { c with flags := { c.flags with readOnly := on } }

/-- Marks a cell as tainted, or not. -/
def setTainted (h : Heap) (i : CellId) (on : Bool) : Heap :=
  h.updateCell i fun c => { c with flags := { c.flags with tainted := on } }

end ScriptCore.Heap
