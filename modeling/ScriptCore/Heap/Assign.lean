import ScriptCore.Heap.Basic

/-!
# Heap — storing without hooks

The writes of this file check, make room, store and let the old value go, and run no hooks.
They are what a hook may do to its own cell; `Heap.Scalar` adds the hooks.  A refused write
changes nothing.
-/

namespace ScriptCore.Heap

/-- Changes the heap by a new cell. -/
def new (c : Cell) : OnHeap CellId := do
  let (i, h) := (← get).allocate c
  set h
  return i

/-- A new reference cell. -/
def newRef (target : CellId) : OnHeap CellId := do
  modify (·.retain target)
  new (.ofTarget target)

/-- A new array cell. -/
def newArray (items : List CellId) : OnHeap CellId := do
  modify (·.retainAll items)
  new (.ofItems items)

/-- Logs an event. -/
def log (event : String) : OnHeap Unit := modify fun h => { h with events := h.events.push event }

/-- Stores a scalar: checks, makes room, clears, fills, takes hold of what is gained and lets
the old referent go. -/
def assign (i : CellId) (need : Room) (gains : Option CellId) (fill : Cell → Cell) :
    OnHeap Unit := do
  let c := (← get).cell i
  c.checkWritable
  let roomy ← c.makeRoom need
  modify fun h =>
    let h := h.setCell i (fill roomy.clearValue)
    let h := h.retainAll gains.toList
    match c.target with
    | some (.strong old) => h.release old
    | _ => h

/-- Stores an integer. -/
def assignInt (i : CellId) (v : Int64) : OnHeap Unit :=
  assign i { int := true } none (·.keepInt v true)

/-- Stores a float. -/
def assignFloat (i : CellId) (v : Binary64) : OnHeap Unit :=
  assign i { num := true } none (·.keepFloat v true)

/-- Stores bytes. -/
def assignBytes (i : CellId) (b : Bytes) : OnHeap Unit :=
  assign i { text := true } none fun c =>
    { c with text := b, flags := { c.flags with textOk := true } }

/-- Stores a text. -/
def assignText (i : CellId) (s : String) : OnHeap Unit :=
  assign i { text := true } none fun c =>
    { c with text := Text.encode s
             flags := { c.flags with textOk := true, utf8 := !Text.isAscii s } }

/-- Stores a reference. -/
def assignRef (i : CellId) (target : CellId) : OnHeap Unit :=
  assign i { ref := true } (some target) fun c =>
    { c with target := some (.strong target), flags := { c.flags with refOk := true } }

/-- What is left of a payload when its cell is made undefined: handles stay, the rest is
emptied. -/
def emptied : Payload → Payload
  | .array _ => .array []
  | .hash t => .hash t.emptied
  | .code _ => .code {}
  | p => p

/-- Makes a cell undefined.  The shape stays; an aggregate is emptied. -/
def undefine (i : CellId) : OnHeap Unit := do
  let c := (← get).cell i
  c.checkWritable
  modify fun h =>
    let h := h.setCell i { c.clearValue with payload := emptied c.payload }
    let h := match c.target with
      | some (.strong old) => h.release old
      | _ => h
    { h with ring := releaseKeys h.ring c.payload }.letGo c.payload.cells

/-- Adds an attachment; a scalar moves up to the shape with room for it. -/
def attach (i : CellId) (kind : HookKind) (hook : Hook) : OnHeap Unit := do
  let h ← get
  let c ← (h.cell i).makeRoom { hooks := true }
  let a : Attachment := { kind, hook, number := h.fired.size }
  set ({ h with fired := h.fired.push 0 }.setCell i { c with hooks := c.hooks ++ [a] })

/-- Removes every attachment of a kind, and says whether there was one. -/
def detach (i : CellId) (kind : HookKind) : OnHeap Bool := do
  let h ← get
  let c := h.cell i
  let (gone, kept) := c.hooks.partition (·.kind = kind)
  set ((h.takeLeave gone).setCell i { c with hooks := kept })
  return gone ≠ []

end ScriptCore.Heap
