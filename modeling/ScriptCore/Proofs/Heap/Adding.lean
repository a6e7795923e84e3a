import ScriptCore.Proofs.Heap.Ownership

/-!
# Heap — new cells

`Adds h h'`: the later heap has the cells of the earlier one, as they were, and new ones that hold
no others.  It is kept when cells are made, shared, and when a new one goes again.

`Lasts h h'`: a cell of the earlier heap that is alive in the later one is what it was.  It is kept
when cells are made, shared and let go.
-/

namespace ScriptCore.Heap

/-- The later heap has the cells of the earlier one, and new cells that hold no others. -/
structure Adds (h h' : Heap) : Prop where
  size : h.cells.size ≤ h'.cells.size
  old : ∀ i c, h.Holds i c → h'.Holds i c
  new : ∀ i c, h'.cell? i = some c → h.Holds i c ∨ h.cells.size ≤ i ∧ c.owned = []

section
variable {h h' h'' : Heap} {i j : CellId} {c d : Cell}

theorem Adds.refl (h : Heap) : h.Adds h :=
  ⟨Nat.le_refl _, fun _ _ holds => holds, fun _ c hc => .inl ⟨c.owners, hc⟩⟩

theorem Adds.trans (a : h.Adds h') (b : h'.Adds h'') : h.Adds h'' where
  size := Nat.le_trans a.size b.size
  old i c holds := b.old i c (a.old i c holds)
  new i c hc := by
    rcases b.new i c hc with ⟨n, hn⟩ | ⟨new, empty⟩
    · have before := a.new i _ hn
      exact before
    · exact .inr ⟨Nat.le_trans a.size new, empty⟩

theorem adds_allocate (h : Heap) (empty : c.owned = []) : h.Adds (h.allocate c).2 where
  size := by simp [allocate]
  old i d holds := by
    obtain ⟨n, hn⟩ := holds
    exact ⟨n, by rw [cell?_allocate, if_neg (Nat.ne_of_lt (lt_size hn)), hn]⟩
  new i d hd := by
    rw [cell?_allocate] at hd
    split at hd
    · cases hd
      exact .inr ⟨Nat.le_of_eq (Eq.symm (by assumption)), empty⟩
    · exact .inl ⟨d.owners, hd⟩

theorem adds_retainAll (h : Heap) (is : List CellId) : h.Adds (h.retainAll is) where
  size := Nat.le_of_eq (size_retainAll h is).symm
  old i c := (steady_retainAll h is).held i c id
  new i c hc := by
    rw [cell?_retainAll] at hc
    obtain ⟨d, hd, rfl⟩ := Option.map_eq_some_iff.mp hc
    exact .inl ⟨d.owners, hd⟩

/-- A cell that holds no others goes alone, if it goes. -/
theorem release_cases (empty : ∀ c, h.cell? i = some c → c.owned = []) :
    h.release i = h ∨ ∃ c, h.cell? i = some c ∧
      (h.release i = h.setCell i { c with owners := c.owners - 1 } ∨ h.release i = h.bury i c) := by
  unfold release
  cases hc : h.cell? i with
  | none =>
    left
    rw [letGo_gone hc, letGo]
  | some c =>
    refine .inr ⟨c, rfl, ?_⟩
    rw [letGo_cons hc]
    split
    · left
      rw [letGo]
    · right
      rw [empty c hc, List.nil_append, letGo]

/-- Letting go of a cell that holds no others leaves all others as they are. -/
theorem holds_release (empty : ∀ c, h.cell? i = some c → c.owned = []) (hj : j ≠ i)
    (holds : h.Holds j d) : (h.release i).Holds j d := by
  obtain ⟨n, hn⟩ := holds
  refine ⟨n, ?_⟩
  rcases release_cases empty with e | ⟨c, hc, e | e⟩ <;> rw [e]
  · exact hn
  · rw [cell?_setCell, if_neg fun e => hj e.1.symm, hn]
  · rw [cell?_bury, if_neg hj.symm, hn]

theorem size_bury (h : Heap) (i : CellId) (c : Cell) :
    (h.bury i c).cells.size = h.cells.size := by
  simp [bury]

theorem size_letGo (h : Heap) (is : List CellId) : (h.letGo is).cells.size = h.cells.size :=
  letGo_rule (P := fun _ g => g.cells.size = h.cells.size) (fun _ e => e)
    (fun _ _ e => (size_setCell ..).trans e) (fun _ _ e => (size_bury ..).trans e) rfl

/-- A cell that holds no others is not changed by a new one. -/
theorem empty_allocate (empty : ∀ d, h.cell? i = some d → d.owned = []) (new : c.owned = [])
    (hd : (h.allocate c).2.cell? i = some d) : d.owned = [] := by
  rw [cell?_allocate] at hd
  split at hd
  · cases hd
    exact new
  · exact empty d hd

/-- A new cell holds no others. -/
theorem Adds.empty (a : h.Adds h') (new : h.cells.size ≤ i) (hc : h'.cell? i = some c) :
    c.owned = [] := by
  rcases a.new i c hc with holds | ⟨-, empty⟩
  · exact absurd holds.lt_size (Nat.not_lt.mpr new)
  · exact empty

/-- A new cell may go again. -/
theorem Adds.release (a : h.Adds h') (new : h.cells.size ≤ i) : h.Adds (h'.release i) := by
  have empty c (hc : h'.cell? i = some c) : c.owned = [] := a.empty new hc
  refine ⟨?_, fun j d holds => ?_, fun j d hd => ?_⟩
  · exact Nat.le_trans a.size (Nat.le_of_eq (size_letGo h' [i]).symm)
  · refine holds_release empty (fun e => ?_) (a.old j d holds)
    exact absurd holds.lt_size (Nat.not_lt.mpr (e ▸ new))
  · obtain ⟨n, hn⟩ := holds_of_letGo hd
    have before := a.new j _ hn
    exact before

/-- What adds to a heap step by step: what holds of each result, from an earlier heap to a later
one, holds of all. -/
theorem ends_mapM_adds {α β : Type} {R : Heap → Heap → α → β → Prop} {f : α → OnHeap β}
    {E : Heap → Prop} (one : ∀ a h, Ends (f a) h (fun b h' => h.Adds h' ∧ R h h' a b) E)
    (mono : ∀ {h g g' h' a b}, h.Adds g → R g g' a b → g'.Adds h' → R h h' a b) (l : List α)
    (h : Heap) : Ends (l.mapM f) h (fun bs h' => h.Adds h' ∧ List.Forall₂ (R h h') l bs) E := by
  induction l generalizing h with
  | nil => exact ⟨.refl h, .nil⟩
  | cons a l ih =>
    rw [List.mapM_cons]
    refine (one a h).bind ?_
    rintro b g ⟨adds, here⟩
    refine (ih g).bind ?_
    rintro bs h' ⟨adds', rest⟩
    refine ⟨adds.trans adds', .cons (mono (.refl h) here adds') (rest.imp ?_)⟩
    exact fun _ _ r => mono adds r (.refl h')

/-! ### Cells that are left -/

/-- The cells of the earlier heap that are left in the later one are what they were. -/
structure Lasts (h h' : Heap) : Prop where
  size : h.cells.size ≤ h'.cells.size
  old : ∀ i c, i < h.cells.size → h'.cell? i = some c → h.Holds i c

theorem Lasts.refl (h : Heap) : h.Lasts h := ⟨Nat.le_refl _, fun _ c _ hc => ⟨c.owners, hc⟩⟩

theorem Lasts.trans (a : h.Lasts h') (b : h'.Lasts h'') : h.Lasts h'' where
  size := Nat.le_trans a.size b.size
  old i c lt hc := by
    obtain ⟨n, hn⟩ := b.old i c (Nat.lt_of_lt_of_le lt a.size) hc
    have before := a.old i _ lt hn
    exact before

theorem Adds.lasts (a : h.Adds h') : h.Lasts h' := by
  refine ⟨a.size, fun i c lt hc => ?_⟩
  rcases a.new i c hc with holds | ⟨new, -⟩
  · exact holds
  · exact absurd lt (Nat.not_lt.mpr new)

theorem lasts_letGo (h : Heap) (is : List CellId) : h.Lasts (h.letGo is) :=
  ⟨Nat.le_of_eq (size_letGo h is).symm, fun _ _ _ => holds_of_letGo⟩

/-- A cell that is left holds what it held. -/
theorem Lasts.holds (a : h.Lasts h') (holds : h.Holds i c) (left : ∃ d, h'.cell? i = some d) :
    h'.Holds i c := by
  obtain ⟨d, hd⟩ := left
  exact holds.left hd (a.old i d holds.lt_size hd)

end

end ScriptCore.Heap
