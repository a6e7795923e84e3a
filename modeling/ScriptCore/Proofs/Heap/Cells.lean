import ScriptCore.Heap.Assign

/-!
# Heap — what becomes of cells

What `cell?` shows after each change to a heap.

Leaves, which own nothing and have no keys, can be let go without a cascade (`faded_letGo`): each
loses as many owners as it is named, and is gone if it has no more.
-/

namespace ScriptCore

/-- The table of a hash. -/
def Payload.table? : Payload → Option (Table CellId)
  | hash t => some t
  | _ => Option.none

/-- A cell that owns nothing and has no keys in a pool. -/
def Cell.IsLeaf (c : Cell) : Prop := c.owned = [] ∧ ∀ t, c.payload ≠ .hash t

/-- A cell after it lost some owners, unless it has lost the last one. -/
def Cell.fade (n : Nat) (c : Cell) : Option Cell :=
  if n = 0 ∨ n < c.owners then some { c with owners := c.owners - n } else none

namespace Heap

variable {h : Heap} {i j : CellId} {c d : Cell}

theorem cell_eq (hc : h.cell? i = some c) : h.cell i = c := by rw [cell, hc, Option.getD_some]

theorem lt_size (hc : h.cell? i = some c) : i < h.cells.size := by
  unfold cell? at hc
  cases hi : h.cells[i]? with
  | none => simp [hi] at hc
  | some _ => exact (Array.getElem?_eq_some_iff.mp hi).1

/-- Heaps with the same cells show the same. -/
theorem cell?_of_cells {h' : Heap} (same : h'.cells = h.cells) (i : CellId) :
    h'.cell? i = h.cell? i := by
  unfold cell?
  rw [same]

/-! ### One cell after another -/

theorem cell?_setCell (h : Heap) (i : CellId) (c : Cell) (j : CellId) :
    (h.setCell i c).cell? j = if i = j ∧ h.isAlive i = true then some c else h.cell? j := by
  unfold setCell
  by_cases alive : h.isAlive i = true
  · obtain ⟨d, hd⟩ := Option.isSome_iff_exists.mp alive
    have := lt_size hd
    rw [if_pos alive]
    unfold cell?
    rw [Array.getElem?_setIfInBounds]
    by_cases hj : i = j
    · subst hj
      simp [this, alive]
    · simp [hj]
  · rw [if_neg alive, if_neg fun hj => alive hj.2]

@[simp]
theorem ring_setCell (h : Heap) (i : CellId) (c : Cell) : (h.setCell i c).ring = h.ring := by
  unfold setCell
  split <;> rfl

@[simp]
theorem size_setCell (h : Heap) (i : CellId) (c : Cell) :
    (h.setCell i c).cells.size = h.cells.size := by
  unfold setCell
  split <;> simp

theorem cell?_bury (h : Heap) (i : CellId) (c : Cell) (j : CellId) :
    (h.bury i c).cell? j = if i = j then none else h.cell? j := by
  unfold bury cell?
  dsimp only
  rw [Array.getElem?_setIfInBounds]
  by_cases hj : i = j
  · subst hj
    rw [if_pos rfl, if_pos rfl]
    split <;> rfl
  · rw [if_neg hj, if_neg hj]

theorem cell?_allocate (h : Heap) (c : Cell) (j : CellId) :
    (h.allocate c).2.cell? j =
      if j = h.cells.size then some { c with owners := 1 } else h.cell? j := by
  unfold allocate cell?
  dsimp only
  rw [Array.getElem?_push]
  split <;> rfl

theorem cell?_retainAll (h : Heap) (is : List CellId) (j : CellId) :
    (h.retainAll is).cell? j =
      (h.cell? j).map fun c => { c with owners := c.owners + is.count j } := by
  unfold retainAll
  induction is generalizing h with
  | nil => cases hc : h.cell? j <;> simp [hc]
  | cons i is ih =>
    rw [List.foldl_cons, ih]
    unfold retain updateCell
    rw [cell?_setCell]
    by_cases hj : i = j
    · subst hj
      cases hc : h.cell? i with
      | none => simp [isAlive, hc]
      | some c =>
        simp only [isAlive, hc, cell_eq hc, Option.isSome_some, and_self, ↓reduceIte,
          Option.map_some, List.count_cons_self]
        rw [Nat.add_assoc, Nat.add_comm 1]
    · rw [if_neg fun h => hj h.1, List.count_cons_of_ne hj]

@[simp]
theorem ring_retainAll (h : Heap) (is : List CellId) : (h.retainAll is).ring = h.ring := by
  unfold retainAll
  induction is generalizing h with
  | nil => rfl
  | cons i is ih => rw [List.foldl_cons, ih, retain, updateCell, ring_setCell]

@[simp]
theorem size_retainAll (h : Heap) (is : List CellId) :
    (h.retainAll is).cells.size = h.cells.size := by
  unfold retainAll
  induction is generalizing h with
  | nil => rfl
  | cons i is ih => rw [List.foldl_cons, ih, retain, updateCell, size_setCell]

/-! ### Letting leaves go -/

/-- The later heap has the same cells, but that they have lost some owners. -/
structure Faded (h h' : Heap) (lost : CellId → Nat) : Prop where
  ring : h'.ring = h.ring
  size : h'.cells.size = h.cells.size
  cells : ∀ j, h'.cell? j = (h.cell? j).bind (·.fade (lost j))

theorem fade_fade (m n : Nat) (c : Cell) : (c.fade m).bind (·.fade n) = c.fade (m + n) := by
  unfold Cell.fade
  by_cases left : m = 0 ∨ m < c.owners
  · have : n = 0 ∨ n < c.owners - m ↔ m + n = 0 ∨ m + n < c.owners := by omega
    simp only [left, ↓reduceIte, Option.bind_some, this, Nat.sub_sub]
  · have : ¬ (m + n = 0 ∨ m + n < c.owners) := by omega
    simp only [left, this, ↓reduceIte, Option.bind_none]

theorem fade_eq_some {n : Nat} (hd : c.fade n = some d) :
    d = { c with owners := c.owners - n } := by
  unfold Cell.fade at hd
  split at hd
  · exact (Option.some.inj hd).symm
  · cases hd

theorem Faded.trans {h' h'' : Heap} {lost lost' : CellId → Nat} (a : h.Faded h' lost)
    (b : h'.Faded h'' lost') : h.Faded h'' fun j => lost j + lost' j := by
  refine ⟨b.ring.trans a.ring, b.size.trans a.size, fun j => ?_⟩
  rw [b.cells, a.cells, Option.bind_assoc]
  exact congrArg _ (funext fun c => fade_fade _ _ c)

theorem Faded.leaf {h' : Heap} {lost : CellId → Nat} (f : h.Faded h' lost)
    (leaf : ∀ c, h.cell? i = some c → c.IsLeaf) (hd : h'.cell? i = some d) : d.IsLeaf := by
  rw [f.cells] at hd
  obtain ⟨c, hc, hd⟩ := Option.bind_eq_some_iff.mp hd
  rw [fade_eq_some hd]
  exact leaf c hc

/-- There is nothing to let go of. -/
theorem faded_absent (hc : h.cell? i = none) : h.Faded h ([i].count ·) := by
  refine ⟨rfl, rfl, fun j => ?_⟩
  by_cases hj : i = j
  · subst hj
    rw [hc]
    rfl
  · rw [List.count_cons_of_ne hj]
    cases h.cell? j <;> rfl

/-- An owner that is not the last lets go. -/
theorem faded_setCell (hc : h.cell? i = some c) (more : 1 < c.owners) :
    h.Faded (h.setCell i { c with owners := c.owners - 1 }) ([i].count ·) := by
  refine ⟨ring_setCell .., size_setCell .., fun j => ?_⟩
  rw [cell?_setCell, isAlive, hc]
  by_cases hj : i = j
  · subst hj
    simp [hc, Cell.fade, more]
  · rw [if_neg fun h => hj h.1, List.count_cons_of_ne hj]
    cases h.cell? j <;> rfl

/-- The last owner of a leaf lets go. -/
theorem faded_bury (hc : h.cell? i = some c) (leaf : c.IsLeaf) (last : ¬ 1 < c.owners) :
    h.Faded (h.bury i c) ([i].count ·) := by
  refine ⟨?_, by simp [bury], fun j => ?_⟩
  · show releaseKeys h.ring c.payload = h.ring
    unfold releaseKeys
    split
    · exact absurd (by assumption) (leaf.2 _)
    · rfl
  · rw [cell?_bury]
    by_cases hj : i = j
    · subst hj
      simp [hc, Cell.fade, last]
    · rw [if_neg hj, List.count_cons_of_ne hj]
      cases h.cell? j <;> rfl

/-- **Letting leaves go.**  They fade, and nothing else happens to cells and keys. -/
theorem faded_letGo {is : List CellId} (leaf : ∀ i ∈ is, ∀ c, h.cell? i = some c → c.IsLeaf) :
    h.Faded (h.letGo is) (is.count ·) := by
  induction is generalizing h with
  | nil =>
    rw [letGo]
    refine ⟨rfl, rfl, fun j => ?_⟩
    cases h.cell? j <;> rfl
  | cons i is ih =>
    -- the first handle, and then the rest
    have first {g : Heap} (f : h.Faded g ([i].count ·)) :
        h.Faded (g.letGo is) ((i :: is).count ·) := by
      have rest := f.trans (ih fun j hj d hd => f.leaf (leaf j (List.mem_cons_of_mem _ hj)) hd)
      have both (j : CellId) : (i :: is).count j = [i].count j + is.count j := by
        rw [← List.singleton_append, List.count_append]
      simpa only [both] using rest
    rw [letGo]
    split
    · exact first (faded_absent (by assumption))
    · rename_i c hc
      have here := leaf i List.mem_cons_self c hc
      by_cases more : 1 < c.owners
      · rw [if_pos more]
        exact first (faded_setCell hc more)
      · rw [if_neg more, here.1, List.nil_append]
        exact first (faded_bury hc here more)

end Heap

end ScriptCore
