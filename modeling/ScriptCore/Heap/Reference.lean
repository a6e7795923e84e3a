import ScriptCore.Heap.Scalar

/-!
# Heap — weakening and blessing

A weak reference does not keep its referent alive.  Blessing marks the referent as an object of
a package.  Neither runs hooks.
-/

namespace ScriptCore.Heap

/-- Gives up the hold of a reference on its referent, and says whether there was one. -/
def weaken (i : CellId) : OnHeap Bool := do
  let c := (← get).cell i
  if c.flags.readOnly then throw .readOnly
  if !c.flags.refOk then throw (.mismatch (.notReference c.shape))
  match c.target with
  | some (.strong j) =>
    let flags := { c.flags with weak := true }
    modify fun h => (h.setCell i { c with target := some (.weak j), flags }).release j
    return true
  | _ => return false

/-- Marks the referent as an object of a package.  A scalar moves up to the shape with room for
one. -/
def bless (i : CellId) (package : Key) : OnHeap Unit := do
  let h ← get
  match h.referent? i with
  | none => throw (.mismatch (.notReference (h.cell i).shape))
  | some j =>
    let c := h.cell j
    if c.flags.readOnly then throw .readOnly
    let c ← c.makeRoom { hooks := true }
    let flags := { c.flags with object := true }
    set (h.setCell j { c with package := some package, flags })

end ScriptCore.Heap
