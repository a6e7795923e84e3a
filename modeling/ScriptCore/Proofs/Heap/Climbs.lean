import ScriptCore.Proofs.Heap.Host
import ScriptCore.Proofs.Heap.Reads

/-!
# Heap — moving a cell up

A cell keeps everything but its shape when it is moved up, and an aggregate shape brings an empty
payload along.  Since room does not grow along the whole chain of shapes, what the cell holds may
be left without any: integers at `ref` and `text`, and floats at `textInt` as well.

* `Shape.within_raised`: which room is kept.
* `run_raised`: what a move leaves of a cell that any run led to, with all the values that are left
  without room.
-/

namespace ScriptCore

/-- The shape of a cell after a move towards another one. -/
def Shape.raised (s t : Shape) : Shape := if s.climbsTo t then t else s

/-- A move from one shape to another takes away room that is needed. -/
def Shape.Strands (s t : Shape) (need : Room) : Prop :=
  need.int = true ∧ (s = .int ∨ s = .float) ∧ (t = .ref ∨ t = .text) ∨
    need.num = true ∧ s = .float ∧ (t = .ref ∨ t = .text ∨ t = .textInt)

theorem Shape.climbsTo_raised (s t : Shape) : s.climbsTo (s.raised t) = true := by
  unfold raised
  split
  · assumption
  · exact s.climbsTo_refl

/-- **Room after a move.** -/
theorem Shape.within_raised {s : Shape} {need : Room} (within : need.within s.room = true)
    (t : Shape) : need.within (s.raised t).room = true ↔ ¬ s.Strands t need := by
  obtain ⟨int, num, text, ref, hooks⟩ := need
  unfold Strands
  cases s <;> cases t <;> revert int num text ref hooks <;> decide

/-- The forms of a value that flags tell of, whether they count or were read from another one. -/
def Flags.forms (f : Flags) : Room :=
  { int := f.intOk || f.intHeld, num := f.numOk || f.numHeld, text := f.textOk, ref := f.refOk }

namespace Cell
variable {c : Cell}

/-- A cell after a move towards a shape. -/
def raised (c : Cell) (t : Shape) : Cell :=
  if c.shape.climbsTo t then
    { c with shape := t
             payload := if t.isAggregate ∧ c.shape ≠ t then .fresh t else c.payload }
  else c

theorem raised_shape (c : Cell) (t : Shape) : (c.raised t).shape = c.shape.raised t := by
  unfold raised Shape.raised
  split <;> rfl

/-- There is room for what a cell holds. -/
theorem Valid.forms_within (v : c.Valid) : c.flags.forms.within c.shape.room = true := by
  obtain ⟨int, num, text, ref, -⟩ := Room.within_iff.mp v.room
  refine Room.within_iff.mpr ⟨fun some => int ?_, fun some => num ?_, text, ref, nofun⟩
  · exact ((Bool.or_eq_true _ _).mp some).elim v.value.int id
  · exact ((Bool.or_eq_true _ _).mp some).elim v.value.num id

end Cell

namespace Heap
variable {h h' : Heap} {i : CellId} {c : Cell} {t : Shape}

/-- **A move** is refused, or leaves the cell raised. -/
theorem ends_upgrade (hc : h.cell? i = some c) (t : Shape) :
    Ends (upgrade i t) h (fun _ g => g = h.setCell i (c.raised t)) (· = h) := by
  refine Ends.read ?_
  rw [cell_eq hc, Cell.raised]
  dsimp only
  split
  · exact rfl
  · split
    · exact rfl
    · exact (setCell_self hc).symm

/-- What a move leaves of the cell `c`, which holds what it held: it has climbed, and has room for
that, and the room it had, unless numbers are left behind. -/
structure Raised (h h' : Heap) (i : CellId) (c : Cell) (t : Shape) : Prop where
  moved : h' = h.setCell i (c.raised t)
  there : h'.cell? i = some (c.raised t)
  flags : (c.raised t).flags = c.flags
  climbs : c.shape.climbsTo (c.raised t).shape = true
  forms : c.flags.forms.within (c.raised t).shape.room = true ↔ ¬ c.shape.Strands t c.flags.forms
  room : c.shape.room.within (c.raised t).shape.room = true ↔ ¬ c.shape.Strands t c.shape.room

/-- **Moves.**  Whatever a host read and wrote: a move of a cell that is not refused raises it. -/
theorem run_raised (seeds : Array Seed) (supply : Supply) (ops : List Op)
    (hc : ((Host.start seeds supply).run ops).heap.cell? i = some c)
    (moved : upgrade i t ((Host.start seeds supply).run ops).heap = .ok () h') :
    ((Host.start seeds supply).run ops).heap.Raised h' i c t := by
  have valid := ((kept_start seeds supply).run ops).valid hc
  obtain rfl := (ends_upgrade hc t).result moved
  refine ⟨rfl, ?_, ?_, ?_, ?_, ?_⟩
  · rw [cell?_setCell, isAlive, hc, if_pos ⟨rfl, rfl⟩]
  · unfold Cell.raised
    split <;> rfl
  · exact c.raised_shape t ▸ c.shape.climbsTo_raised t
  · exact c.raised_shape t ▸ Shape.within_raised valid.forms_within t
  · exact c.raised_shape t ▸ Shape.within_raised (Room.within_iff.mpr ⟨id, id, id, id, id⟩) t

/-- An integer that is left behind. -/
theorem run_raised_int : ∃ h',
    upgrade 0 .ref ((Host.start #[] {}).run [.make (.int 1)]).heap = .ok () h' ∧
      ((Host.start #[] {}).run [.make (.int 1)]).heap.Raised h' 0 (.ofInt 1) .ref := by
  have hc : ((Host.start #[] {}).run [.make (.int 1)]).heap.cell? 0 = some (.ofInt 1) := by
    with_unfolding_all rfl
  have moved : upgrade 0 .ref ((Host.start #[] {}).run [.make (.int 1)]).heap = .ok ()
      (((Host.start #[] {}).run [.make (.int 1)]).heap.setCell 0
        { Cell.ofInt 1 with shape := .ref }) := by
    with_unfolding_all rfl
  exact ⟨_, moved, run_raised #[] {} [.make (.int 1)] hc moved⟩

/-- There is a cell that is moved to a shape without room for the integer it holds. -/
theorem upgrade_strands : ∃ (ops : List Op) (i : CellId) (c d : Cell) (t : Shape) (h' : Heap),
    ((Host.start #[] {}).run ops).heap.cell? i = some c ∧
      upgrade i t ((Host.start #[] {}).run ops).heap = .ok () h' ∧ h'.cell? i = some d ∧
        c.shape.room.int = true ∧ d.flags.intOk = true ∧ d.shape.room.int = false :=
  ⟨[.make (.int 1)], 0, .ofInt 1, { Cell.ofInt 1 with shape := .ref }, .ref, _,
    by with_unfolding_all rfl, by with_unfolding_all rfl, by with_unfolding_all rfl, rfl, rfl, rfl⟩

end Heap

end ScriptCore
