import ScriptCore.Heap.Reference

/-!
# Heap — arrays, hashes and routines

Each operation works on the payload of one shape and refuses every other.  Changing an array or
hash needs a writable cell.  What an operation takes out of a payload is let go after the
payload is whole again, unless it is handed to the caller.
-/

namespace ScriptCore.Heap

/-- The refusal of a cell of another shape. -/
def wrongShape (wanted : Shape) (c : Cell) : Fault := .mismatch (.notShape wanted c.shape)

/-- The elements of an array. -/
def items (i : CellId) : OnHeap (List CellId) := do
  let c := (← get).cell i
  match c.payload with
  | .array items => return items
  | _ => throw (wrongShape .array c)

/-- Changes the elements of an array, taking hold of some cells and letting others go. -/
def changeItems (i : CellId) (f : List CellId → List CellId) (gains : List CellId)
    (loses : List CellId → List CellId) : OnHeap Unit := do
  let c := (← get).cell i
  c.checkWritable
  match c.payload with
  | .array items =>
    modify fun h =>
      ((h.setCell i { c with payload := .array (f items) }).retainAll gains).letGo (loses items)
  | _ => throw (wrongShape .array c)

/-- Adds an element at the end. -/
def push (i : CellId) (v : CellId) : OnHeap Unit :=
  changeItems i (· ++ [v]) [v] fun _ => []

/-- Stores an element; a gap before it is filled with new undefined cells. -/
def storeItem (i : CellId) (index : Nat) (v : CellId) : OnHeap Unit := do
  let c := (← get).cell i
  c.checkWritable
  match c.payload with
  | .array items =>
    let gap ← (List.range (index - items.length)).mapM fun _ => new {}
    let stored := if index < items.length then items.set index v else items ++ gap ++ [v]
    changeItems i (fun _ => stored) [v] fun _ => items[index]?.toList
  | _ => throw (wrongShape .array c)

/-- Takes every element out. -/
def clearItems (i : CellId) : OnHeap Unit := changeItems i (fun _ => []) [] id

/-- Replaces every element. -/
def assignItems (i : CellId) (vs : List CellId) : OnHeap Unit := changeItems i (fun _ => vs) vs id

/-- The table of a hash. -/
def table (i : CellId) : OnHeap (Table CellId) := do
  let c := (← get).cell i
  match c.payload with
  | .hash t => return t
  | _ => throw (wrongShape .hash c)

/-- The table of a hash that may be changed. -/
def writableTable (i : CellId) : OnHeap (Table CellId) := do
  ((← get).cell i).checkWritable
  table i

/-- Replaces the table of a hash, and the keyring with it. -/
def putTable (i : CellId) (t : Table CellId) (ring : Keyring) : OnHeap Unit :=
  modify fun h => { h with ring }.updateCell i fun c => { c with payload := .hash t }

/-- The outcome of a table operation, its refusal as a fault. -/
def admitted (x : Except Refusal α) : Except Fault α := x.mapError Fault.ofRefusal

/-- The value in the table is read-only. -/
def isReadOnly (h : Heap) (v : CellId) : Bool := (h.cell v).flags.readOnly

/-- The value of a key. -/
def fetch (i : CellId) (k : Spelling) : OnHeap (Option CellId) := do
  return (← table i).fetch? k

/-- Stores a value, and hands over the one it replaced. -/
def store (i : CellId) (k : Spelling) (v : CellId) : OnHeap (Option CellId) := do
  let t ← writableTable i
  let (old, t, ring) ← admitted (t.store (← get).ring k v)
  putTable i t ring
  modify (·.retain v)
  return old

/-- The value of a key, a new undefined cell if there is none. -/
def fetchOrCreate (i : CellId) (k : Spelling) : OnHeap CellId := do
  let t ← writableTable i
  match t.fetch? k with
  | some v => return v
  | none =>
    let h ← get
    let (_, t, ring) ← admitted (t.store h.ring k h.cells.size)
    putTable i t ring
    new {}

/-- Deletes a key, and hands over its value. -/
def delete (i : CellId) (k : Spelling) : OnHeap (Option CellId) := do
  let t ← writableTable i
  let h ← get
  let (old, t, ring) ← admitted (t.delete h.ring h.isReadOnly k)
  putTable i t ring
  return old

/-- Room for a number of keys. -/
def reserve (i : CellId) (expected : Nat) : OnHeap Unit := do
  let t ← writableTable i
  let t ← admitted (t.reserve expected)
  putTable i t (← get).ring

/-- Empties a hash.  A restricted table keeps its keys, any other is replaced by a new one. -/
def clearTable (i : CellId) : OnHeap Unit := do
  let t ← writableTable i
  let h ← get
  if t.restricted then
    let (gone, t, ring) ← admitted (t.clear h.ring h.isReadOnly)
    putTable i t ring
    modify (·.letGo gone)
  else
    putTable i t.emptied h.ring
    let (gone, ring) := t.dispose h.ring
    modify fun h => { h with ring }.letGo gone

/-- Fixes the keys of a hash, or lifts that. -/
def setRestricted (i : CellId) (on : Bool) : OnHeap Unit := do
  let t ← writableTable i
  putTable i (if on then t.restrict else t.unrestrict) (← get).ring

/-- What a code cell runs. -/
def routine (i : CellId) : OnHeap Routine := do
  let c := (← get).cell i
  match c.payload with
  | .code r => return r
  | _ => throw (wrongShape .code c)

/-- Changes what a code cell runs. -/
def updateRoutine (i : CellId) (f : Routine → Routine) : OnHeap Unit := do
  let r ← routine i
  modify (·.updateCell i fun c => { c with payload := .code (f r) })

/-- Runs a built-in routine and hands over its result. -/
def runNative (n : Native) (args : List CellId) : OnHeap CellId :=
  match n with
  | .count => new (.ofInt (Int64.ofNat args.length))
  | .first =>
    match args with
    | [] => new {}
    | a :: _ => do
      modify (·.retain a)
      return a
  | .fail => throw .readOnly
  | .sum => do
    let total ← args.foldlM (fun (n : Int64) a => return n + (← getInt a .silent)) 0
    new (.ofInt total)
  | .hello => new (.ofText "hello")

end ScriptCore.Heap
