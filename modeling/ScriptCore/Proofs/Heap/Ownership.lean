import ScriptCore.Proofs.Heap.Steady
import ScriptCore.Proofs.Table.Keys

/-!
# Heap — owners and holders

`Owned h outside`: every cell has an owner for each live cell that holds it, and for each time it
stands among the handles `outside`.  So what is held is alive, and stays so while others let go.

* `Owned.letGo`: giving handles back keeps the owners of all other handles, also where cells that
  lose their last owner take others with them.
* `Owned.exchange`: a cell that holds other cells than before owes its old ones to the outside,
  and has retained its new ones.
-/

namespace ScriptCore.Heap

/-- Every cell has as many owners as live cells and the handles outside hold it. -/
def Owned (h : Heap) (outside : List CellId) : Prop :=
  ∀ i, h.held.count i + outside.count i ≤ (h.cell i).owners

section
variable {h h' : Heap} {i j : CellId} {c d : Cell} {out out' is rest : List CellId}

/-! ### What is held -/

theorem owners_of_gone (hc : h.cell? i = none) : (h.cell i).owners = 0 := by
  rw [cell, hc, Option.getD_none]

theorem exists_cell_of_owners (h : Heap) (hi : 0 < (h.cell i).owners) :
    ∃ c, h.cell? i = some c := by
  cases hc : h.cell? i with
  | some c => exact ⟨c, rfl⟩
  | none =>
    rw [owners_of_gone hc] at hi
    cases hi

/-- A handle is on a live cell. -/
theorem Owned.alive (o : h.Owned out) (hi : i ∈ out) : ∃ c, h.cell? i = some c := by
  have counted := List.count_pos_iff.mpr hi
  have owners := o i
  exact h.exists_cell_of_owners (by omega)

theorem mem_held (hc : h.cell? i = some c) (hj : j ∈ c.owned) : j ∈ h.held := by
  have there : some c ∈ h.cells.toList := List.mem_of_getElem? (getElem?_of_cell? hc)
  exact List.mem_flatMap.mpr ⟨some c, there, hj⟩

/-- What a live cell holds is alive. -/
theorem Owned.alive_held (o : h.Owned out) (hc : h.cell? i = some c) (hj : j ∈ c.owned) :
    ∃ d, h.cell? j = some d := by
  have counted := List.count_pos_iff.mpr (mem_held hc hj)
  have owners := o j
  exact h.exists_cell_of_owners (by omega)

theorem Owned.imp (o : h.Owned out) (le : ∀ i, out'.count i ≤ out.count i) : h.Owned out' :=
  fun i => Nat.le_trans (Nat.add_le_add_left (le i) _) (o i)

/-- Only cells matter. -/
theorem Owned.of_cells (o : h.Owned out) (same : h'.cells = h.cells) : h'.Owned out := by
  intro i
  unfold held cell
  rw [cell?_of_cells same, same]
  exact o i

/-! ### New and changed cells -/

theorem Owned.allocate (o : h.Owned out) (empty : c.owned = []) :
    (h.allocate c).2.Owned (h.cells.size :: out) := by
  have held : (h.allocate c).2.held = h.held := by
    unfold Heap.held Heap.allocate
    rw [Array.toList_push, List.flatMap_append]
    simp [holdings, Cell.owned] at empty ⊢
    exact empty
  have absent : h.cell? h.cells.size = none := by
    cases hc : h.cell? h.cells.size with
    | none => rfl
    | some c => exact absurd (lt_size hc) (Nat.lt_irrefl _)
  intro i
  have owners := o i
  rw [held, List.count_cons]
  by_cases hi : i = h.cells.size
  · -- the number of a new cell is held by nothing
    subst hi
    have new : (h.allocate c).2.cell? h.cells.size = some { c with owners := 1 } := by
      rw [cell?_allocate, if_pos rfl]
    rw [owners_of_gone absent] at owners
    rw [cell_eq new, beq_self_eq_true, if_pos rfl]
    exact Nat.add_le_add_right owners 1
  · have old : (h.allocate c).2.cell i = h.cell i := by
      unfold cell
      rw [cell?_allocate, if_neg hi]
    rwa [old, if_neg fun e => hi (beq_iff_eq.mp e).symm]

theorem count_held_setCell (hc : h.cell? i = some c) (d : Cell) (j : CellId) :
    (h.setCell i d).held.count j + c.owned.count j = h.held.count j + d.owned.count j := by
  have perm := Table.perm_flatMap_set holdings (some d) (getElem?_of_cell? hc)
  have counted := perm.count_eq j
  rw [List.count_append, List.count_append] at counted
  unfold setCell held isAlive
  rw [hc, Option.isSome_some, if_pos rfl, Array.toList_setIfInBounds]
  exact counted.symm

theorem count_held_bury (hc : h.cell? i = some c) (j : CellId) :
    (h.bury i c).held.count j + c.owned.count j = h.held.count j := by
  have perm := Table.perm_flatMap_set holdings none (getElem?_of_cell? hc)
  have counted := perm.count_eq j
  rw [List.count_append, List.count_append] at counted
  unfold bury held
  rw [Array.toList_setIfInBounds]
  exact counted.symm

theorem owners_setCell (hc : h.cell? i = some c) (d : Cell) (j : CellId) :
    ((h.setCell i d).cell j).owners = if i = j then d.owners else (h.cell j).owners := by
  unfold cell
  rw [cell?_setCell, isAlive, hc]
  by_cases hj : i = j
  · rw [if_pos ⟨hj, rfl⟩, if_pos hj, Option.getD_some]
  · rw [if_neg fun e => hj e.1, if_neg hj]

theorem owners_retainAll (h : Heap) (alive : ∀ i ∈ is, ∃ c, h.cell? i = some c) (j : CellId) :
    ((h.retainAll is).cell j).owners = (h.cell j).owners + is.count j := by
  unfold cell
  rw [cell?_retainAll]
  cases hc : h.cell? j with
  | some c => rfl
  | none =>
    have unnamed : is.count j = 0 := List.count_eq_zero.mpr fun hj => by
      obtain ⟨c, hc'⟩ := alive j hj
      cases hc.symm.trans hc'
    rw [unnamed]
    rfl

theorem held_retainAll (h : Heap) (is : List CellId) (j : CellId) :
    (h.retainAll is).held.count j = h.held.count j := by
  unfold retainAll
  induction is generalizing h with
  | nil => rfl
  | cons i is ih =>
    rw [List.foldl_cons, ih]
    unfold retain updateCell
    cases hc : h.cell? i with
    | none =>
      unfold setCell isAlive
      rw [hc, Option.isSome_none, if_neg Bool.false_ne_true]
    | some c =>
      have counted := count_held_setCell hc { c with owners := c.owners + 1 } j
      rw [cell_eq hc]
      exact Nat.add_right_cancel counted

/-- Live cells that are retained have more handles. -/
theorem Owned.retainAll (o : h.Owned out) (alive : ∀ i ∈ is, ∃ c, h.cell? i = some c) :
    (h.retainAll is).Owned (is ++ out) := by
  intro i
  have owners := o i
  rw [held_retainAll, owners_retainAll h alive, List.count_append]
  omega

/-- **Exchange.**  A cell holds other cells than before: it has retained what it gains, and the
outside has handles on what it loses. -/
theorem Owned.exchange (o : h.Owned out) (hc : h.cell? i = some c) (owners : d.owners = c.owners)
    {gains loses : List CellId} (alive : ∀ j ∈ gains, ∃ c, h.cell? j = some c)
    (held : ∀ j, d.owned.count j + loses.count j ≤ c.owned.count j + gains.count j) :
    ((h.setCell i d).retainAll gains).Owned (loses ++ out) := by
  have alive' : ∀ j ∈ gains, ∃ c, (h.setCell i d).cell? j = some c := by
    intro j hj
    rw [cell?_setCell]
    split
    · exact ⟨d, rfl⟩
    · exact alive j hj
  intro j
  have before := o j
  have changed := count_held_setCell hc d j
  have exchanged := held j
  have same : ((h.setCell i d).cell j).owners = (h.cell j).owners := by
    rw [owners_setCell hc]
    split
    · rename_i hj
      subst hj
      rw [owners, cell_eq hc]
    · rfl
  rw [held_retainAll, owners_retainAll _ alive', List.count_append]
  omega

/-! ### Letting go -/

theorem letGo_cons (hc : h.cell? i = some c) (rest : List CellId) :
    h.letGo (i :: rest) =
      if 1 < c.owners then (h.setCell i { c with owners := c.owners - 1 }).letGo rest
      else (h.bury i c).letGo (c.owned ++ rest) := by
  rw [Heap.letGo]
  split
  · rename_i gone
    cases hc.symm.trans gone
  · rename_i there
    cases hc.symm.trans there
    rfl

theorem letGo_gone (hc : h.cell? i = none) (rest : List CellId) :
    h.letGo (i :: rest) = h.letGo rest := by
  rw [Heap.letGo]
  split
  · rfl
  · rename_i there
    cases hc.symm.trans there

/-- **One rule for letting go.**  What each way to give back one handle keeps, of the handles still
to give back and the heap, is kept until none is left. -/
theorem letGo_rule {P : List CellId → Heap → Prop}
    (gone : ∀ {i rest h}, h.cell? i = none → P (i :: rest) h → P rest h)
    (drop : ∀ {i rest h c}, h.cell? i = some c → 1 < c.owners → P (i :: rest) h →
      P rest (h.setCell i { c with owners := c.owners - 1 }))
    (bury : ∀ {i rest h c}, h.cell? i = some c → ¬ 1 < c.owners → P (i :: rest) h →
      P (c.owned ++ rest) (h.bury i c))
    (p : P is h) : P [] (h.letGo is) := by
  induction h, is using letGo.induct with
  | case1 h =>
    rw [Heap.letGo]
    exact p
  | case2 h i rest hc ih =>
    rw [letGo_gone hc]
    exact ih (gone hc p)
  | case3 h i rest c hc more ih =>
    rw [letGo_cons hc, if_pos more]
    exact ih (drop hc more p)
  | case4 h i rest c hc last ih =>
    rw [letGo_cons hc, if_neg last]
    exact ih (bury hc last p)

/-- One of several handles on a cell is given back. -/
theorem Owned.drop (o : h.Owned (i :: out)) (hc : h.cell? i = some c) :
    (h.setCell i { c with owners := c.owners - 1 }).Owned out := by
  intro j
  have before := o j
  have changed := count_held_setCell hc { c with owners := c.owners - 1 } j
  rw [List.count_cons] at before
  rw [owners_setCell hc]
  have held : (h.setCell i { c with owners := c.owners - 1 }).held.count j = h.held.count j :=
    Nat.add_right_cancel changed
  rw [held]
  by_cases hj : i = j
  · subst hj
    rw [cell_eq hc, beq_self_eq_true, if_pos rfl] at before
    rw [if_pos rfl]
    dsimp only
    omega
  · rw [if_neg fun e => hj (beq_iff_eq.mp e)] at before
    rwa [if_neg hj]

/-- The last handle on a cell is given back, and what the cell held is left to the outside. -/
theorem Owned.bury (o : h.Owned (i :: out)) (hc : h.cell? i = some c) (last : ¬ 1 < c.owners) :
    (h.bury i c).Owned (c.owned ++ out) := by
  intro j
  have before := o j
  have changed := count_held_bury hc j
  rw [List.count_cons] at before
  rw [List.count_append]
  by_cases hj : i = j
  · -- the cell had no other handle, and held itself at no time
    subst hj
    rw [cell_eq hc, beq_self_eq_true, if_pos rfl] at before
    omega
  · have same : (h.bury i c).cell j = h.cell j := by
      unfold cell
      rw [cell?_bury, if_neg hj]
    rw [if_neg fun e => hj (beq_iff_eq.mp e)] at before
    rw [same]
    omega

/-- **Letting go.**  All other handles keep their owners. -/
theorem Owned.letGo (o : h.Owned (is ++ out)) : (h.letGo is).Owned out := by
  refine letGo_rule (P := fun is h => h.Owned (is ++ out)) ?gone ?drop ?bury o
  case gone =>
    -- there is no handle on a cell that has gone
    intro i rest h hc o
    obtain ⟨c, hc'⟩ := o.alive (i := i) (by simp)
    cases hc.symm.trans hc'
  case drop =>
    intro i rest h c hc _ o
    exact o.drop hc
  case bury =>
    intro i rest h c hc last o
    rw [List.append_assoc]
    exact o.bury hc last

/-- A cell with other owners is what it was. -/
theorem holds_of_drop {n : Nat} (hc : h.cell? i = some c)
    (hd : (h.setCell i { c with owners := n }).Holds j d) : h.Holds j d := by
  obtain ⟨m, hm⟩ := hd
  rw [cell?_setCell] at hm
  split at hm
  · rename_i hj
    obtain ⟨rfl, -⟩ := hj
    have same := congrArg (fun e => { e with owners := c.owners }) (Option.some.inj hm)
    exact ⟨c.owners, hc.trans (congrArg some same)⟩
  · exact ⟨m, hm⟩

theorem holds_of_bury (hd : (h.bury i c).Holds j d) : h.Holds j d := by
  obtain ⟨m, hm⟩ := hd
  rw [cell?_bury] at hm
  split at hm
  · cases hm
  · exact ⟨m, hm⟩

/-- What is left after handles were given back has lost owners at most. -/
theorem holds_of_letGo (hd : (h.letGo is).cell? j = some d) : h.Holds j d :=
  letGo_rule (P := fun _ g => g.Holds j d → h.Holds j d) (fun _ p => p)
    (fun hc _ p hd => p (holds_of_drop hc hd)) (fun _ _ p hd => p (holds_of_bury hd)) id ⟨_, hd⟩

/-- What is left of a cell that has not changed holds what it held. -/
theorem Holds.left {h' : Heap} (holds : h.Holds j c) (hd : h'.cell? j = some d)
    (was : h.Holds j d) : h'.Holds j c := by
  obtain ⟨m, hm⟩ := was
  obtain ⟨n, hn⟩ := holds
  have same := congrArg (fun e => { e with owners := d.owners })
    (Option.some.inj (hm.symm.trans hn))
  exact ⟨d.owners, hd.trans (congrArg some same)⟩

/-- What has a handle left holds what it held. -/
theorem Owned.holds_letGo (o : h.Owned (is ++ out)) (hj : j ∈ out) (holds : h.Holds j c) :
    (h.letGo is).Holds j c := by
  obtain ⟨d, hd⟩ := o.letGo.alive hj
  exact holds.left hd (holds_of_letGo hd)

/-! ### Code -/

/-- Every cell with a routine has the shape of code. -/
def IsFormed (h : Heap) : Prop :=
  ∀ i c, h.cell? i = some c → ∀ r, c.payload = .code r → c.shape = .code

theorem IsFormed.of_holds (f : h.IsFormed) (old : ∀ i d, h'.cell? i = some d → h.Holds i d) :
    h'.IsFormed := by
  intro i d hd r hr
  obtain ⟨n, hn⟩ := old i d hd
  have formed := f i _ hn r
  exact formed hr

theorem IsFormed.of_cells (f : h.IsFormed) (same : h'.cells = h.cells) : h'.IsFormed :=
  fun i c hc => f i c (cell?_of_cells same i ▸ hc)

theorem IsFormed.letGo (f : h.IsFormed) : (h.letGo is).IsFormed :=
  f.of_holds fun _ _ => holds_of_letGo

theorem IsFormed.retainAll (f : h.IsFormed) (is : List CellId) : (h.retainAll is).IsFormed := by
  refine f.of_holds fun i d hd => ?_
  rw [cell?_retainAll] at hd
  obtain ⟨c, hc, rfl⟩ := Option.map_eq_some_iff.mp hd
  exact ⟨c.owners, hc⟩

theorem IsFormed.setCell (f : h.IsFormed) (hd : ∀ r, d.payload = .code r → d.shape = .code) :
    (h.setCell i d).IsFormed := by
  intro j e he r hr
  rw [cell?_setCell] at he
  split at he
  · cases he
    exact hd r hr
  · exact f j e he r hr

theorem IsFormed.allocate (f : h.IsFormed) (hc : ∀ r, c.payload = .code r → c.shape = .code) :
    (h.allocate c).2.IsFormed := by
  intro j e he r hr
  rw [cell?_allocate] at he
  split at he
  · cases he
    exact hc r hr
  · exact f j e he r hr

end

end ScriptCore.Heap
