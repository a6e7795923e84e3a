import ScriptCore.Advisory.Basic
import ScriptCore.Cell.Basic
import ScriptCore.Table.Update

/-!
# Heap — cells and what they share

Cells are numbered in the order they are made and a number is never used twice, so a number is
as good as a weak handle: the cell is alive or it is gone.  `owners` of a cell counts its
owners: handles held outside, strong references, elements of arrays and values of tables.

`letGo` gives handles back.  A cell that loses its last owner goes: its attachments take their
leave, its keys go back to their pool, and then what it owned is let go in turn, depth first.
Every handle is given back once, so the cascade ends.

Beside the cells a heap holds the key pools, the environments and taint marks that attachments
refer to, the attachments that have taken their leave, the events hooks have logged and the
advisories raised so far.
-/

namespace ScriptCore

/-- How an environment answers, told by the variables it shows: the value it gives for a name, and
what it shows after a variable was set or removed.  A host supplies these; those given here keep
variables in order. -/
structure Environment.Host where
  var : List (String × String) → String → Option String := fun vars name => vars.lookup name
  set : List (String × String) → String → String → List (String × String) :=
    fun vars name value =>
      if vars.any (·.1 = name) then vars.map fun v => if v.1 = name then (name, value) else v
      else vars ++ [(name, value)]
  remove : List (String × String) → String → List (String × String) :=
    fun vars name => vars.filter (·.1 ≠ name)

/-- An environment: the variables it shows, and how it answers. -/
structure Environment where
  vars : List (String × String) := []
  host : Environment.Host := {}

instance : Inhabited Environment := ⟨{}⟩

/-- Cells and all that they refer to.  Environment 0 is that of the process. -/
structure Heap where
  cells : Array (Option Cell) := #[]
  ring : Keyring := {}
  environments : Array Environment := #[{}]
  taints : Array Bool := #[]
  fired : Array Nat := #[]
  departed : List Attachment := []
  events : Array String := #[]
  reports : Array Advisory := #[]
  deriving Inhabited

/-- Operations on a heap that may fail; what they did before failing stays done. -/
abbrev OnHeap := EStateM Fault Heap

namespace Heap

/-- A live cell. -/
def cell? (h : Heap) (i : CellId) : Option Cell := (h.cells[i]?).join

/-- The cell has not gone. -/
def isAlive (h : Heap) (i : CellId) : Bool := (h.cell? i).isSome

/-- A cell, or a blank one in the place of one that has gone. -/
def cell (h : Heap) (i : CellId) : Cell := (h.cell? i).getD { owners := 0 }

/-- Replaces a live cell. -/
def setCell (h : Heap) (i : CellId) (c : Cell) : Heap :=
  if h.isAlive i then { h with cells := h.cells.setIfInBounds i (some c) } else h

/-- Changes a live cell. -/
def updateCell (h : Heap) (i : CellId) (f : Cell → Cell) : Heap := h.setCell i (f (h.cell i))

/-- A new cell with one owner, and its number. -/
def allocate (h : Heap) (c : Cell) : CellId × Heap :=
  (h.cells.size, { h with cells := h.cells.push (some { c with owners := 1 }) })

/-- One more owner of a cell. -/
def retain (h : Heap) (i : CellId) : Heap :=
  h.updateCell i fun c => { c with owners := c.owners + 1 }

/-- One more owner of each cell. -/
def retainAll (h : Heap) (is : List CellId) : Heap := is.foldl retain h

/-- The cells that a place of the heap keeps alive. -/
def holdings (c : Option Cell) : List CellId := (c.map Cell.owned).getD []

/-- The cells that live cells keep alive, each as often as it is held. -/
def held (h : Heap) : List CellId := h.cells.toList.flatMap holdings

/-- The keys of a table go back to its pool. -/
def releaseKeys (r : Keyring) : Payload → Keyring
  | .hash t => (t.dispose r).2
  | _ => r

/-- Attachments take their leave, first to last. -/
def takeLeave (h : Heap) (gone : List Attachment) : Heap :=
  { h with
    departed := h.departed ++ gone
    events := h.events ++ (gone.filterMap Attachment.farewell).toArray }

/-- Takes a cell off the heap: its attachments take their leave and its keys go back. -/
def bury (h : Heap) (i : CellId) (c : Cell) : Heap :=
  { h.takeLeave c.hooks with
    cells := h.cells.setIfInBounds i none
    ring := releaseKeys h.ring c.payload }

theorem length_flatMap_set {f : α → List β} {l : List α} {i : Nat} {a b : α}
    (h : l[i]? = some a) :
    ((l.set i b).flatMap f).length + (f a).length = (l.flatMap f).length + (f b).length := by
  induction l generalizing i with
  | nil => simp at h
  | cons x xs ih =>
    cases i with
    | zero =>
      simp only [List.getElem?_cons_zero, Option.some.injEq] at h
      subst h
      simp only [List.set_cons_zero, List.flatMap_cons, List.length_append]
      omega
    | succ i =>
      simp only [List.getElem?_cons_succ] at h
      have := ih h
      simp only [List.set_cons_succ, List.flatMap_cons, List.length_append]
      omega

theorem getElem?_of_cell? {h : Heap} {i : CellId} {c : Cell} (hc : h.cell? i = some c) :
    h.cells.toList[i]? = some (some c) := by
  simpa [cell?, Option.join_eq_some_iff] using hc

theorem length_held_bury {h : Heap} {i : CellId} {c : Cell} (hc : h.cell? i = some c) :
    (h.bury i c).held.length + c.owned.length = h.held.length := by
  have := length_flatMap_set (f := holdings) (b := none) (getElem?_of_cell? hc)
  simpa [held, bury, takeLeave, holdings] using this

theorem length_held_setCell {h : Heap} {i : CellId} {c d : Cell} (hc : h.cell? i = some c)
    (hd : d.owned = c.owned) : (h.setCell i d).held.length = h.held.length := by
  have := length_flatMap_set (f := holdings) (b := some d) (getElem?_of_cell? hc)
  simp only [holdings, Option.map_some, Option.getD_some, hd] at this
  simpa [held, setCell, isAlive, hc, holdings] using this

/-- Gives handles back, first to last. -/
def letGo (h : Heap) (is : List CellId) : Heap :=
  match is with
  | [] => h
  | i :: rest =>
    match _hc : h.cell? i with
    | none => h.letGo rest
    | some c =>
      if 1 < c.owners then (h.setCell i { c with owners := c.owners - 1 }).letGo rest
      else (h.bury i c).letGo (c.owned ++ rest)
termination_by h.held.length + is.length
decreasing_by
  · simp
  · have := length_held_setCell (d := { c with owners := c.owners - 1 }) _hc rfl
    simp only [List.length_cons]
    omega
  · have := length_held_bury _hc
    simp only [List.length_append, List.length_cons]
    omega

/-- Gives one handle back. -/
def release (h : Heap) (i : CellId) : Heap := h.letGo [i]

/-- The cell a reference points at, if it is alive. -/
def referent? (h : Heap) (i : CellId) : Option CellId := (h.cell i).referent h.isAlive

/-- The package a cell was blessed into. -/
def package? (h : Heap) (i : CellId) : Option Key := (h.cell i).package

/-- The package of the object a reference points at. -/
def blessed? (h : Heap) (i : CellId) : Option Key := (h.referent? i).bind h.package?

/-- The identity of a cell as a number, as it stands in reference texts. -/
def address (i : CellId) : Nat := 0x5D0000000000 + 0x20 * i

/-- The address of a cell as text. -/
def addressText (i : CellId) : String := "0x" ++ Text.hex (address i)

/-- The kind name of what a reference points at. -/
def refKind? (h : Heap) (i : CellId) : Option String :=
  (h.referent? i).map fun j => (h.cell j).referentKind

/-- The text of a reference: kind and address, after the package if there is one. -/
def refText? (h : Heap) (i : CellId) : Option String :=
  (h.referent? i).map fun j =>
    let plain := (h.cell j).referentKind ++ "(" ++ addressText j ++ ")"
    match h.package? j with
    | none => plain
    | some p => p.text ++ "=" ++ plain

end Heap

end ScriptCore
