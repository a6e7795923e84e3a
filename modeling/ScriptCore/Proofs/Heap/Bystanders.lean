import ScriptCore.Proofs.Heap.Refusals

/-!
# Heap — what an operation on one cell leaves of the others

What is done to a cell itself, by its host or by its own hooks, leaves every other cell what it was,
up to owners.  A cell may go, when the last reference to it does, but none comes back and none
changes.  And nothing but a run of hooks marks a cell as having its hooks run, or takes the mark
off.

* `Spares i h g`: the relation.
* `Spares.keeps_assign`, `Spares.converting`, `Spares.keeps_attach` and so on: each operation on the
  cell `i` that runs no hooks.
-/

namespace ScriptCore

/-- The cell has the mark that the other one has. -/
def Cell.SameMark (c d : Cell) : Prop := d.flags.inHooks = c.flags.inHooks

namespace Heap
open Cell

/-- The later heap is the earlier one but for a cell, whose mark is what it was.  Cells may have
lost or gained owners, or gone. -/
structure Spares (i : CellId) (h g : Heap) : Prop where
  others : ∀ j d, j ≠ i → g.cell? j = some d → h.Holds j d
  mark : ∀ d, g.cell? i = some d → ∃ c, h.cell? i = some c ∧ c.SameMark d

section
variable {h₀ h g k : Heap} {i j : CellId} {c d : Cell} {need : Room} {gains : Option CellId}
  {fill : Cell → Cell}

/-! ### Steps -/

theorem Spares.refl (i : CellId) (h : Heap) : h.Spares i h :=
  ⟨fun _ d _ hd => ⟨d.owners, hd⟩, fun d hd => ⟨d, hd, rfl⟩⟩

theorem Spares.trans (s : h.Spares i g) (s' : g.Spares i k) : h.Spares i k where
  others j d hj hd := by
    obtain ⟨n, hn⟩ := s'.others j d hj hd
    exact s.others j { d with owners := n } hj hn
  mark d hd := by
    obtain ⟨c, hc, same⟩ := s'.mark d hd
    obtain ⟨b, hb, same'⟩ := s.mark c hc
    exact ⟨b, hb, same.trans same'⟩

/-- What is there was there, up to owners. -/
theorem spares_of_holds (back : ∀ j d, g.cell? j = some d → h.Holds j d) : h.Spares i g where
  others j d _ hd := back j d hd
  mark d hd := by
    obtain ⟨n, hn⟩ := back i d hd
    exact ⟨_, hn, rfl⟩

theorem spares_of_cells (cells : g.cells = h.cells) : h.Spares i g :=
  spares_of_holds fun j d hd => ⟨d.owners, cell?_of_cells cells j ▸ hd⟩

theorem spares_retainAll (h : Heap) (is : List CellId) : h.Spares i (h.retainAll is) := by
  refine spares_of_holds fun j d hd => ?_
  rw [cell?_retainAll] at hd
  obtain ⟨c, hc, rfl⟩ := Option.map_eq_some_iff.mp hd
  exact ⟨c.owners, hc⟩

theorem spares_letGo (h : Heap) (is : List CellId) : h.Spares i (h.letGo is) :=
  spares_of_holds fun _ _ => holds_of_letGo

/-- The cell itself changes, but for its mark. -/
theorem spares_setCell (same : ∀ c, h.cell? i = some c → c.SameMark d) :
    h.Spares i (h.setCell i d) where
  others j e hj he := by
    rw [cell?_setCell, if_neg fun e => hj e.1.symm] at he
    exact ⟨e.owners, he⟩
  mark e he := by
    rw [cell?_setCell] at he
    split at he
    · rename_i alive
      obtain ⟨c, hc⟩ := Option.isSome_iff_exists.mp alive.2
      cases he
      exact ⟨c, hc, same c hc⟩
    · exact ⟨e, he, rfl⟩

/-- The cell is changed from what it was. -/
theorem spares_updateCell (h : Heap) {f : Cell → Cell}
    (same : ∀ c : Cell, c.SameMark (f c)) :
    h.Spares i (h.updateCell i f) :=
  spares_setCell fun c hc => cell_eq hc ▸ same c

namespace Spares

/-! ### Writes -/

theorem keeps_assign (same : ∀ c : Cell, c.SameMark (fill c)) :
    Keeps (Spares i h₀) (assign i need gains fill) := by
  refine Keeps.of_ends fun h s => (ends_assign i need gains fill h).imp ?_ fun g e => e ▸ s
  rintro - g ⟨-, t, -, rfl⟩
  have filled : h.Spares i (h.setCell i (fill { h.cell i with shape := t }.clearValue)) := by
    refine spares_setCell fun c hc => ?_
    rw [cell_eq hc]
    exact same { c with shape := t }.clearValue
  exact s.trans (filled.trans ((spares_retainAll _ _).trans (spares_letGo _ _)))

theorem keeps_undefine : Keeps (Spares i h₀) (undefine i) := by
  refine Keeps.of_ends fun h s => (ends_undefine i h).imp ?_ fun g e => e ▸ s
  rintro - g ⟨-, ring, rfl⟩
  have cleared : h.Spares i (h.setCell i { (h.cell i).clearValue with
      payload := emptied (h.cell i).payload }) := by
    refine spares_setCell fun c hc => ?_
    rw [cell_eq hc]
    rfl
  refine s.trans (cleared.trans ((spares_letGo _ (kept (h.cell i).target)).trans ?_))
  refine Spares.trans ?_ (spares_letGo _ _)
  exact spares_of_cells rfl

theorem keeps_store (w : Write) : Keeps (Spares i h₀) (w.store i) := by
  cases w with
  | undef => exact keeps_undefine
  | _ =>
    unfold Write.store
    exact keeps_assign fun _ => rfl

/-! ### Reads -/

theorem keeps_beside {f : Heap → Heap} (cells : ∀ h, (f h).cells = h.cells) :
    Keeps (Spares i h₀) (modify f : OnHeap Unit) :=
  Keeps.modify fun h s => s.trans (spares_of_cells (cells h))

theorem converting (i : CellId) (h₀ : Heap) : Converting (Spares i h₀) i where
  converts _ _ converts s := s.trans (spares_setCell fun _ hc => by
    rw [cell_eq hc] at converts
    exact converts.inHooks)
  reports _ _ s := s.trans (spares_of_cells rfl)

/-! ### Attachments and marks -/

theorem keeps_attach (kind : HookKind) (hook : Hook) :
    Keeps (Spares i h₀) (attach i kind hook) := by
  refine Keeps.read fun h s => Ends.outcome (fun d made => ?_) s
  have pushed : h.Spares i { h with fired := h.fired.push 0 } := spares_of_cells rfl
  refine s.trans (pushed.trans (spares_setCell fun c hc => ?_))
  have hc : h.cell? i = some c := hc
  rw [cell_eq hc] at made
  obtain ⟨t, -, rfl⟩ := makeRoom_ok made
  rfl

theorem keeps_detach (kind : HookKind) : Keeps (Spares i h₀) (detach i kind) := by
  refine Keeps.read fun h s => ?_
  have left : h.Spares i (h.takeLeave ((h.cell i).hooks.partition (·.kind = kind)).1) :=
    spares_of_cells rfl
  refine s.trans (left.trans (spares_setCell fun c hc => ?_))
  have hc : h.cell? i = some c := hc
  rw [cell_eq hc]
  rfl

theorem keeps_setReadOnly (on : Bool) :
    Keeps (Spares i h₀) (modify (·.setReadOnly i on) : OnHeap Unit) :=
  Keeps.modify fun h s => s.trans (spares_updateCell h fun _ => rfl)

theorem keeps_setTainted (on : Bool) :
    Keeps (Spares i h₀) (modify (·.setTainted i on) : OnHeap Unit) :=
  Keeps.modify fun h s => s.trans (spares_updateCell h fun _ => rfl)

end Spares

end

end Heap

end ScriptCore
