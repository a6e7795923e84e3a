import ScriptCore.Proofs.Heap.Stands

/-!
# Heap — what reading a cell leaves to others

The get hooks of a cell act on that cell.  They change no environment, they count no act but their
own, and a scalar that is no reference does not become one through them.

* `Kept.number_ne`: attachments of two cells have different numbers.
* `Aloof`: what holds of a cell, of the environments and of an attachment elsewhere.
* `Aloof.runHooks`: the get hooks of the cell leave it so, whether they fail or not.
-/

namespace ScriptCore.Heap

/-! ### Attachments and their numbers -/

section
variable {h₀ h : Heap} {i j : CellId} {c d : Cell} {a b : Attachment} {out : List CellId}

theorem Kept.nodup_attached (k : Kept h₀ out h) : (h.attached.map (·.number)).Nodup := by
  have all := k.accounted.nodup_iff.mpr List.nodup_range
  rw [List.map_append] at all
  exact all.of_append_left

/-- The number of an attachment is counted. -/
theorem Kept.number_lt (k : Kept h₀ out h) (ha : a ∈ (h.cell i).hooks) :
    a.number < h.fired.size := by
  have counted := k.accounted.mem_iff.mp
    (List.mem_map_of_mem (List.mem_append_left h.departed (mem_attached ha)))
  exact List.mem_range.mp counted

/-- **Attachments of two cells** have different numbers. -/
theorem Kept.number_ne (k : Kept h₀ out h) (hc : h.cell? i = some c) (hd : h.cell? j = some d)
    (apart : i ≠ j) (ha : a ∈ c.hooks) (hb : b ∈ d.hooks) : a.number ≠ b.number := by
  have nodup := k.nodup_attached
  rw [attached, List.map_flatMap, List.nodup_flatMap] at nodup
  have disjoint {m n : CellId} {e f : Cell} (he : h.cell? m = some e) (hf : h.cell? n = some f)
      (lt : m < n) : (e.hooks.map (·.number)).Disjoint (f.hooks.map (·.number)) := by
    obtain ⟨lm, em⟩ := List.getElem?_eq_some_iff.mp (getElem?_of_cell? he)
    obtain ⟨ln, fn⟩ := List.getElem?_eq_some_iff.mp (getElem?_of_cell? hf)
    have pair := List.pairwise_iff_getElem.mp nodup.2 m n lm ln lt
    rw [em, fn] at pair
    exact pair
  intro same
  have ha' := List.mem_map_of_mem (f := (·.number)) ha
  have hb' := List.mem_map_of_mem (f := (·.number)) hb
  rcases Nat.lt_or_gt_of_ne apart with lt | gt
  · exact disjoint hc hd lt ha' (same ▸ hb')
  · exact disjoint hd hc gt hb' (same ▸ ha')

end

/-! ### What stays -/

/-- The cell is a scalar and no reference, the environments are those given, and an attachment has
acted so many times. -/
structure Aloof (a : Attachment) (environments : Array Environment) (acts : Nat) (i : CellId)
    (h : Heap) : Prop where
  plain : (h.cell i).Plain
  environments : h.environments = environments
  acts : h.firedBefore a = acts

section
variable {h g : Heap} {i : CellId} {d : Cell} {a b : Attachment} {need : Room}
  {gains : Option CellId} {fill : Cell → Cell} {environments : Array Environment} {acts : Nat}

namespace Aloof

theorem stored (l : Aloof a environments acts i h) (s : Stored h i d g) (plain : d.Plain) :
    Aloof a environments acts i g where
  plain := by
    cases he : g.cell? i with
    | none =>
      rw [cell, he]
      exact ⟨rfl, rfl⟩
    | some e =>
      obtain ⟨n, rfl⟩ := s.cell e he
      rw [cell_eq he]
      exact ⟨plain.scalar, plain.noRef⟩
  environments := s.beside.environments.trans l.environments
  acts := (s.beside.firedBefore a).trans l.acts

theorem setCell (l : Aloof a environments acts i h) (plain : d.Plain) :
    Aloof a environments acts i (h.setCell i d) := l.stored (stored_setCell h i d) plain

theorem keeps_assign (shape : ∀ c, (fill c).shape = c.shape)
    (noRef : ∀ c, (fill c).flags.refOk = c.flags.refOk) :
    Keeps (Aloof a environments acts i) (assign i need gains fill) := by
  refine Keeps.of_ends fun h l => (ends_assign_stored i need gains fill h).imp ?_ fun g e => e ▸ l
  rintro - g ⟨t, grows, stored⟩
  refine l.stored stored ⟨?_, ?_⟩
  · rw [shape]
    exact grows.scalar l.plain.scalar
  · rw [noRef]
    rfl

theorem keeps_assignInt (v : Int64) : Keeps (Aloof a environments acts i) (assignInt i v) := by
  unfold assignInt
  refine keeps_assign ?_ ?_ <;> exact fun _ => rfl

theorem keeps_assignText (s : String) : Keeps (Aloof a environments acts i) (assignText i s) := by
  unfold assignText
  refine keeps_assign ?_ ?_ <;> exact fun _ => rfl

theorem keeps_undefine : Keeps (Aloof a environments acts i) (undefine i) :=
  Keeps.of_ends fun h l => (ends_undefine_stored i h).imp
    (fun _ _ stored => l.stored stored ⟨l.plain.scalar, rfl⟩) fun _ e => e ▸ l

theorem keeps_beside {f : Heap → Heap} (cells : ∀ h, (f h).cells = h.cells)
    (same : ∀ h, (f h).environments = h.environments)
    (fired : ∀ h, (f h).firedBefore a = h.firedBefore a) :
    Keeps (Aloof a environments acts i) (modify f : OnHeap Unit) :=
  Keeps.modify fun h l => by
    refine ⟨?_, (same h).trans l.environments, (fired h).trans l.acts⟩
    rw [cell, cell?_of_cells (cells h)]
    exact l.plain

theorem keeps_log (event : String) : Keeps (Aloof a environments acts i) (log event) :=
  keeps_beside (fun _ => rfl) (fun _ => rfl) fun _ => rfl

/-- An act of another attachment. -/
theorem keeps_noteFired (other : b.number ≠ a.number) :
    Keeps (Aloof a environments acts i) (noteFired b) := by
  refine keeps_beside (fun _ => rfl) (fun _ => rfl) fun h => ?_
  simp only [firedBefore, Array.getD_eq_getD_getElem?, Array.getElem?_modify, if_neg other]

theorem converting (a : Attachment) (environments : Array Environment) (acts : Nat) (i : CellId) :
    Converting (Aloof a environments acts i) i where
  converts _ _ converts l :=
    l.setCell ⟨converts.scalar l.plain.scalar, converts.refOk.trans l.plain.noRef⟩
  reports _ _ l := ⟨l.plain, l.environments, l.acts⟩

theorem keeps_attach (kind : HookKind) (hook : Hook) :
    Keeps (Aloof a environments acts i) (attach i kind hook) := by
  refine Keeps.read fun h l => Ends.outcome (fun d made => ?_) l
  obtain ⟨t, grows, rfl⟩ := Cell.makeRoom_ok made
  have pushed : Aloof a environments acts i { h with fired := h.fired.push 0 } := by
    refine ⟨l.plain, l.environments, Eq.trans ?_ l.acts⟩
    -- a number that was not counted yet reads as zero, like the one that is new
    simp only [firedBefore, Array.getD_eq_getD_getElem?, Array.getElem?_push]
    split
    · rename_i new
      rw [new, Array.getElem?_eq_none (Nat.le_refl _)]
      rfl
    · rfl
  exact pushed.setCell ⟨grows.scalar l.plain.scalar, l.plain.noRef⟩

theorem keeps_detach (kind : HookKind) : Keeps (Aloof a environments acts i) (detach i kind) := by
  refine Keeps.read fun h l => ?_
  have left : Aloof a environments acts i
      (h.takeLeave ((h.cell i).hooks.partition (·.kind = kind)).1) :=
    ⟨l.plain, l.environments, l.acts⟩
  exact left.setCell ⟨l.plain.scalar, l.plain.noRef⟩

theorem hooked (a : Attachment) (environments : Array Environment) (acts : Nat) (i : CellId) :
    Hooked (Aloof a environments acts i) i fun b => b.number ≠ a.number where
  assignInt := keeps_assignInt
  assignText := keeps_assignText
  undefine := keeps_undefine
  readText := (converting a environments acts i).readText .silent
  attach := keeps_attach
  detach := keeps_detach
  log := keeps_log
  noteFired _ := keeps_noteFired
  setTaint _ _ _ l := ⟨l.plain, l.environments, l.acts⟩
  tainted _ _ l := l.setCell ⟨l.plain.scalar, l.plain.noRef⟩
  inHooks _ _ l := l.setCell ⟨l.plain.scalar, l.plain.noRef⟩

/-- **The get hooks** of a cell leave the environments, and what others have done, whether they fail
or not. -/
theorem runHooks (l : Aloof a environments acts i h)
    (others : ∀ b ∈ (h.cell i).hooks, b.number ≠ a.number) :
    Ends (Heap.runHooks .get i) h (fun _ => Aloof a environments acts i)
      (Aloof a environments acts i) :=
  (hooked a environments acts i).runHooks (fun other => absurd rfl other) l others

end Aloof

end

end ScriptCore.Heap
