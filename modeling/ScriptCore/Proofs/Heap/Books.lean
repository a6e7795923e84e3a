import ScriptCore.Proofs.Cell.Valid
import ScriptCore.Proofs.Heap.Ownership
import ScriptCore.Proofs.Table.Exchange

/-!
# Heap — the books balance

`Sound h out`: every live cell is valid, and has exactly as many owners as live cells and the
handles `out` hold it, at least one; the tables of live hashes hold the values of their entries and
no more.  `Accounted h`: every attachment there ever was is on one live cell, or has taken its
leave, once.  `Grown h h'` says how a heap relates to a later one: what has gone stays gone, shapes
have climbed, and attachments leave their cell only by taking their leave.

`Kept h₀ out h` puts them together, for a heap that comes after `h₀`.  It is kept by each way in
which heaps change: `Kept.allocate`, `Kept.exchange`, `Kept.retainAll`, `Kept.letGo`, `Kept.turn`,
`Kept.attach`, `Kept.detach`, and `Kept.beside` for what does not concern cells.
-/

namespace ScriptCore.Heap

/-- The attachments of a place of the heap. -/
def attachments (c : Option Cell) : List Attachment := (c.map Cell.hooks).getD []

/-- The attachments on live cells. -/
def attached (h : Heap) : List Attachment := h.cells.toList.flatMap attachments

/-- What a live cell is like, with keys in the pools of a ring. -/
structure Fit (r : Keyring) (c : Cell) : Prop where
  needed : 0 < c.owners
  valid : c.Valid
  tidy : ∀ t, c.payload = .hash t → t.Tidy r

/-- The owners of cells are those that hold them. -/
structure Sound (h : Heap) (out : List CellId) : Prop where
  owners : ∀ i, (h.cell i).owners = h.held.count i + out.count i
  fit : ∀ i c, h.cell? i = some c → Fit h.ring c
  ring : h.ring.Sound

/-- Every attachment there ever was is on one live cell, or has taken its leave, once. -/
def Accounted (h : Heap) : Prop :=
  ((h.attached ++ h.departed).map (·.number)).Perm (List.range h.fired.size)

/-- The later heap has what is left of the earlier one, and more. -/
structure Grown (h h' : Heap) : Prop where
  size : h.cells.size ≤ h'.cells.size
  numbers : h.fired.size ≤ h'.fired.size
  cells : ∀ i d, i < h.cells.size → h'.cell? i = some d →
    ∃ c, h.cell? i = some c ∧ c.shape.climbsTo d.shape = true
  departed : h.departed <+: h'.departed
  leaves : ∀ i a, a ∈ (h.cell i).hooks → a ∈ (h'.cell i).hooks ∨ a ∈ h'.departed

/-- A sound heap that comes after another one. -/
structure Kept (h₀ : Heap) (out : List CellId) (h : Heap) : Prop where
  sound : h.Sound out
  accounted : h.Accounted
  grown : h₀.Grown h

section
variable {h₀ h h' h'' : Heap} {i j : CellId} {c d : Cell} {a : Attachment} {r : Keyring}
  {out out' is gains loses moved : List CellId}

@[simp]
theorem departed_setCell (h : Heap) (i : CellId) (c : Cell) :
    (h.setCell i c).departed = h.departed := by
  unfold setCell
  split <;> rfl

@[simp]
theorem fired_setCell (h : Heap) (i : CellId) (c : Cell) : (h.setCell i c).fired = h.fired := by
  unfold setCell
  split <;> rfl

@[simp]
theorem departed_retainAll (h : Heap) (is : List CellId) :
    (h.retainAll is).departed = h.departed := by
  unfold retainAll
  induction is generalizing h with
  | nil => rfl
  | cons i is ih => rw [List.foldl_cons, ih, retain, updateCell, departed_setCell]

@[simp]
theorem fired_retainAll (h : Heap) (is : List CellId) : (h.retainAll is).fired = h.fired := by
  unfold retainAll
  induction is generalizing h with
  | nil => rfl
  | cons i is ih => rw [List.foldl_cons, ih, retain, updateCell, fired_setCell]

/-! ### What a sound heap has -/

theorem Sound.owned (s : h.Sound out) : h.Owned out := fun i => Nat.le_of_eq (s.owners i).symm

/-- **Who is held is alive**, and nobody else. -/
theorem Sound.alive_iff (s : h.Sound out) (i : CellId) :
    h.isAlive i = true ↔ 0 < h.held.count i + out.count i := by
  rw [← s.owners, isAlive]
  cases hc : h.cell? i with
  | none => simp [owners_of_gone hc]
  | some c =>
    have needed := (s.fit i c hc).needed
    simp [cell_eq hc, needed]

theorem Sound.perm (s : h.Sound out) (perm : out.Perm out') : h.Sound out' :=
  { s with owners := fun i => by rw [s.owners, perm.count_eq] }

theorem Sound.of_same (s : h.Sound out) (cells : h'.cells = h.cells) (ring : h'.ring = h.ring) :
    h'.Sound out where
  owners i := by
    unfold held cell
    rw [cell?_of_cells cells, cells]
    exact s.owners i
  fit i c hc := ring ▸ s.fit i c (cell?_of_cells cells i ▸ hc)
  ring := ring ▸ s.ring

theorem Fit.turn (f : Fit r c) {r' : Keyring} (turns : r.Turns r') : Fit r' c :=
  { f with tidy := fun t ht => (f.tidy t ht).turns turns }

theorem Fit.withOwners (f : Fit r c) {owners : Nat} (needed : 0 < owners) :
    Fit r { c with owners } :=
  ⟨needed, f.valid.withOwners owners, f.tidy⟩

/-- Pools turn. -/
theorem Sound.turn (s : h.Sound out) (turns : h.ring.Turns r) : Sound { h with ring := r } out where
  owners := s.owners
  fit i c hc := (s.fit i c hc).turn turns
  ring := turns.sound

/-- The number of the next cell is nobody's. -/
theorem absent_size (h : Heap) : h.cell? h.cells.size = none := by
  cases hc : h.cell? h.cells.size with
  | none => rfl
  | some c => exact absurd (lt_size hc) (Nat.lt_irrefl _)

/-- **A new cell** takes over the handles on what it holds. -/
theorem Sound.allocate (s : h.Sound (c.owned ++ out)) (valid : c.Valid)
    (tidy : ∀ t, c.payload = .hash t → t.Tidy h.ring) :
    (h.allocate c).2.Sound (h.cells.size :: out) where
  owners i := by
    have owners := s.owners i
    have held : (h.allocate c).2.held = h.held ++ c.owned := by
      unfold Heap.held Heap.allocate
      rw [Array.toList_push, List.flatMap_append]
      simp [holdings, Cell.owned]
    rw [held, List.count_append, List.count_cons]
    rw [List.count_append] at owners
    by_cases hi : i = h.cells.size
    · -- the number of a new cell is held by nothing
      subst hi
      have new : (h.allocate c).2.cell? h.cells.size = some { c with owners := 1 } := by
        rw [cell?_allocate, if_pos rfl]
      rw [owners_of_gone h.absent_size] at owners
      rw [cell_eq new, beq_self_eq_true, if_pos rfl]
      dsimp only
      omega
    · have old : (h.allocate c).2.cell i = h.cell i := by
        unfold cell
        rw [cell?_allocate, if_neg hi]
      rw [old, if_neg fun e => hi (beq_iff_eq.mp e).symm]
      omega
  fit i d hd := by
    rw [cell?_allocate] at hd
    split at hd
    · cases hd
      exact ⟨Nat.one_pos, valid.withOwners 1, tidy⟩
    · exact s.fit i d hd
  ring := s.ring

theorem Sound.setCell_fit (s : h.Sound out) (fit : Fit h.ring d) :
    ∀ j e, (h.setCell i d).cell? j = some e → Fit (h.setCell i d).ring e := by
  intro j e he
  rw [ring_setCell]
  rw [cell?_setCell] at he
  split at he
  · cases he
    exact fit
  · exact s.fit j e he

theorem Sound.retainAll_fit (fit : ∀ i c, h.cell? i = some c → Fit h.ring c) (is : List CellId) :
    ∀ j e, (h.retainAll is).cell? j = some e → Fit (h.retainAll is).ring e := by
  intro j e he
  rw [ring_retainAll]
  rw [cell?_retainAll] at he
  obtain ⟨c, hc, rfl⟩ := Option.map_eq_some_iff.mp he
  have before := fit j c hc
  exact before.withOwners (Nat.add_pos_left before.needed _)

/-- Live cells that are retained have more handles. -/
theorem Sound.retainAll (s : h.Sound out) (alive : ∀ i ∈ is, ∃ c, h.cell? i = some c) :
    (h.retainAll is).Sound (is ++ out) where
  owners i := by
    rw [held_retainAll, owners_retainAll h alive, List.count_append, s.owners]
    omega
  fit := Sound.retainAll_fit s.fit is
  ring := by
    rw [ring_retainAll]
    exact s.ring

/-- **Exchange.**  A cell holds other cells than before.  It has retained what it gains, or takes
over the handles on what moves there, and the outside has handles on what it loses. -/
theorem Sound.exchange (moved gains loses : List CellId) (s : h.Sound (moved ++ out))
    (hc : h.cell? i = some c) (owners : d.owners = c.owners) (valid : d.Valid)
    (tidy : ∀ t, d.payload = .hash t → t.Tidy h.ring)
    (alive : ∀ j ∈ gains, ∃ c, h.cell? j = some c)
    (held : ∀ j, d.owned.count j + loses.count j =
      c.owned.count j + gains.count j + moved.count j) :
    ((h.setCell i d).retainAll gains).Sound (loses ++ out) where
  owners j := by
    have before := s.owners j
    have changed := count_held_setCell hc d j
    have exchanged := held j
    have alive' : ∀ j ∈ gains, ∃ c, (h.setCell i d).cell? j = some c := by
      intro j hj
      rw [cell?_setCell]
      split
      · exact ⟨d, rfl⟩
      · exact alive j hj
    have same : ((h.setCell i d).cell j).owners = (h.cell j).owners := by
      rw [owners_setCell hc]
      split
      · rename_i hj
        rw [owners, ← hj, cell_eq hc]
      · rfl
    rw [List.count_append] at before
    rw [held_retainAll, owners_retainAll _ alive', same, List.count_append]
    omega
  fit := by
    have fit : Fit h.ring d := ⟨owners ▸ (s.fit i c hc).needed, valid, tidy⟩
    exact Sound.retainAll_fit (s.setCell_fit fit) gains
  ring := by
    rw [ring_retainAll, ring_setCell]
    exact s.ring

/-- A cell changes, and holds what it held. -/
theorem Sound.setCell (s : h.Sound out) (hc : h.cell? i = some c) (owners : d.owners = c.owners)
    (valid : d.Valid) (target : d.target = c.target) (payload : d.payload = c.payload) :
    (h.setCell i d).Sound out := by
  refine Sound.exchange [] [] [] s hc owners valid ?_ nofun ?_
  · rw [payload]
    exact (s.fit i c hc).tidy
  · intro j
    unfold Cell.owned
    rw [target, payload]
    simp

/-- One of several handles on a cell is given back. -/
theorem Sound.drop (s : h.Sound (i :: out)) (hc : h.cell? i = some c) (more : 1 < c.owners) :
    (h.setCell i { c with owners := c.owners - 1 }).Sound out where
  owners j := by
    have before := s.owners j
    have changed := count_held_setCell hc { c with owners := c.owners - 1 } j
    have same : (h.setCell i { c with owners := c.owners - 1 }).held.count j = h.held.count j :=
      Nat.add_right_cancel changed
    rw [List.count_cons] at before
    rw [owners_setCell hc, same]
    by_cases hj : i = j
    · subst hj
      rw [cell_eq hc, beq_self_eq_true, if_pos rfl] at before
      rw [if_pos rfl]
      dsimp only
      omega
    · rw [if_neg fun e => hj (beq_iff_eq.mp e)] at before
      rwa [if_neg hj]
  fit := s.setCell_fit ((s.fit i c hc).withOwners (Nat.sub_pos_of_lt more))
  ring := by
    rw [ring_setCell]
    exact s.ring

/-- The keys of a payload go back to their pool. -/
theorem turns_releaseKeys (sound : r.Sound) (p : Payload) : r.Turns (releaseKeys r p) := by
  unfold releaseKeys
  split
  · exact sound.releaseAll _ _
  · exact .refl sound

/-- The last handle on a cell is given back, and what the cell held is left to the outside. -/
theorem Sound.bury (s : h.Sound (i :: out)) (hc : h.cell? i = some c) (last : ¬ 1 < c.owners) :
    (h.bury i c).Sound (c.owned ++ out) where
  owners j := by
    have before := s.owners j
    have changed := count_held_bury hc j
    rw [List.count_cons] at before
    rw [List.count_append]
    by_cases hj : i = j
    · -- the cell had no other handle, and held itself at no time
      subst hj
      have gone : (h.bury i c).cell? i = none := by rw [cell?_bury, if_pos rfl]
      rw [cell_eq hc, beq_self_eq_true, if_pos rfl] at before
      rw [owners_of_gone gone]
      omega
    · have same : (h.bury i c).cell j = h.cell j := by
        unfold cell
        rw [cell?_bury, if_neg hj]
      rw [if_neg fun e => hj (beq_iff_eq.mp e)] at before
      rw [same]
      omega
  fit j e he := by
    rw [cell?_bury] at he
    split at he
    · cases he
    · exact (s.fit j e he).turn (turns_releaseKeys s.ring c.payload)
  ring := (turns_releaseKeys s.ring c.payload).sound

/-! ### Growth -/

theorem Grown.refl (h : Heap) : h.Grown h where
  size := Nat.le_refl _
  numbers := Nat.le_refl _
  cells _ d _ hd := ⟨d, hd, Shape.climbsTo_refl _⟩
  departed := List.prefix_refl _
  leaves _ _ := .inl

theorem Grown.trans (g : h.Grown h') (g' : h'.Grown h'') : h.Grown h'' where
  size := Nat.le_trans g.size g'.size
  numbers := Nat.le_trans g.numbers g'.numbers
  cells i e hi he := by
    obtain ⟨d, hd, up⟩ := g'.cells i e (Nat.lt_of_lt_of_le hi g.size) he
    obtain ⟨c, hc, up'⟩ := g.cells i d hi hd
    exact ⟨c, hc, Shape.climbsTo_trans up' up⟩
  departed := g.departed.trans g'.departed
  leaves i a ha := by
    rcases g.leaves i a ha with there | gone
    · exact g'.leaves i a there
    · exact .inr (g'.departed.subset gone)

/-- What has gone does not come back. -/
theorem Grown.gone (g : h.Grown h') (hi : i < h.cells.size) (gone : h.isAlive i = false) :
    h'.isAlive i = false := by
  cases hd : h'.cell? i with
  | none =>
    unfold isAlive
    rw [hd]
    rfl
  | some d =>
    obtain ⟨c, hc, -⟩ := g.cells i d hi hd
    rw [isAlive, hc] at gone
    cases gone

theorem grown_of_same (cells : h'.cells = h.cells) (fired : h.fired.size ≤ h'.fired.size)
    (departed : h.departed <+: h'.departed) : h.Grown h' where
  size := Nat.le_of_eq (congrArg Array.size cells).symm
  numbers := fired
  cells i d _ hd := ⟨d, cell?_of_cells cells i ▸ hd, Shape.climbsTo_refl _⟩
  departed := departed
  leaves i a ha := .inl (by rwa [cell, cell?_of_cells cells])

/-- A cell climbs, and keeps its attachments but for those that have left. -/
theorem grown_setCell (hc : h.cell? i = some c) (climbs : c.shape.climbsTo d.shape = true)
    (leaves : ∀ a ∈ c.hooks, a ∈ d.hooks ∨ a ∈ h.departed) : h.Grown (h.setCell i d) where
  size := Nat.le_of_eq (size_setCell h i d).symm
  numbers := by rw [fired_setCell]
  cells j e _ he := by
    rw [cell?_setCell] at he
    split at he
    · rename_i same
      cases he
      exact ⟨c, same.1 ▸ hc, climbs⟩
    · exact ⟨e, he, Shape.climbsTo_refl _⟩
  departed := by rw [departed_setCell]
  leaves j a ha := by
    rw [departed_setCell, cell, cell?_setCell]
    split
    · rename_i same
      rw [← same.1, cell_eq hc] at ha
      exact leaves a ha
    · exact .inl ha

theorem grown_retainAll (h : Heap) (is : List CellId) : h.Grown (h.retainAll is) where
  size := Nat.le_of_eq (size_retainAll h is).symm
  numbers := by rw [fired_retainAll]
  cells j e _ he := by
    rw [cell?_retainAll] at he
    obtain ⟨c, hc, rfl⟩ := Option.map_eq_some_iff.mp he
    exact ⟨c, hc, Shape.climbsTo_refl _⟩
  departed := by rw [departed_retainAll]
  leaves j a ha := by
    refine .inl ?_
    rw [cell, cell?_retainAll]
    cases hc : h.cell? j with
    | none => rwa [cell, hc] at ha
    | some c => rwa [cell_eq hc] at ha

theorem grown_bury (hc : h.cell? i = some c) : h.Grown (h.bury i c) where
  size := by simp [bury]
  numbers := Nat.le_refl _
  cells j e _ he := by
    rw [cell?_bury] at he
    split at he
    · cases he
    · exact ⟨e, he, Shape.climbsTo_refl _⟩
  departed := List.prefix_append _ _
  leaves j a ha := by
    rw [cell, cell?_bury]
    split
    · rename_i same
      rw [← same, cell_eq hc] at ha
      exact .inr (List.mem_append_right _ ha)
    · exact .inl ha

theorem grown_allocate (h : Heap) (c : Cell) : h.Grown (h.allocate c).2 where
  size := by simp [allocate]
  numbers := Nat.le_refl _
  cells j e hj he := by
    rw [cell?_allocate, if_neg (Nat.ne_of_lt hj)] at he
    exact ⟨e, he, Shape.climbsTo_refl _⟩
  departed := List.prefix_refl _
  leaves j a ha := by
    refine .inl ?_
    rw [cell, cell?_allocate]
    split
    · -- nothing is attached where there is no cell yet
      rename_i new
      have absent : h.cell? j = none := by
        cases hc : h.cell? j with
        | none => rfl
        | some c => exact absurd (lt_size hc) (new ▸ Nat.lt_irrefl _)
      rw [cell, absent] at ha
      cases ha
    · exact ha

/-! ### Attachments -/

theorem attached_setCell (hc : h.cell? i = some c) (d : Cell) :
    ((h.setCell i d).attached ++ c.hooks).Perm (h.attached ++ d.hooks) := by
  have perm := Table.perm_flatMap_set attachments (some d) (getElem?_of_cell? hc)
  unfold setCell attached isAlive
  rw [hc, Option.isSome_some, if_pos rfl, Array.toList_setIfInBounds]
  exact perm.symm

/-- Attachments come to a cell. -/
theorem attached_setCell_more (hc : h.cell? i = some c) {come : List Attachment}
    (hooks : d.hooks = c.hooks ++ come) :
    (h.setCell i d).attached.Perm (h.attached ++ come) := by
  refine List.perm_iff_count.mpr fun b => ?_
  have counted := (attached_setCell hc d).count_eq b
  rw [hooks] at counted
  simp only [List.count_append] at counted ⊢
  omega

/-- Attachments go from a cell. -/
theorem attached_setCell_less (hc : h.cell? i = some c) {gone : List Attachment}
    (hooks : c.hooks.Perm (gone ++ d.hooks)) :
    ((h.setCell i d).attached ++ gone).Perm h.attached := by
  refine List.perm_iff_count.mpr fun b => ?_
  have counted := (attached_setCell hc d).count_eq b
  have parted := hooks.count_eq b
  simp only [List.count_append] at counted parted ⊢
  omega

theorem attached_bury (hc : h.cell? i = some c) :
    ((h.bury i c).attached ++ c.hooks).Perm h.attached := by
  have perm := Table.perm_flatMap_set attachments none (getElem?_of_cell? hc)
  rw [show attachments none = [] from rfl, List.append_nil] at perm
  unfold bury attached
  rw [Array.toList_setIfInBounds]
  exact perm.symm

theorem attached_retainAll (h : Heap) (is : List CellId) :
    (h.retainAll is).attached.Perm h.attached := by
  unfold retainAll
  induction is generalizing h with
  | nil => exact .refl _
  | cons i is ih =>
    rw [List.foldl_cons]
    refine (ih (h.retain i)).trans ?_
    unfold retain updateCell
    cases hc : h.cell? i with
    | none =>
      unfold setCell isAlive
      rw [hc, Option.isSome_none, if_neg Bool.false_ne_true]
    | some c =>
      rw [cell_eq hc]
      exact (List.perm_append_right_iff _).mp
        (attached_setCell hc { c with owners := c.owners + 1 })

theorem Accounted.of_perm (a : h.Accounted) (fired : h'.fired.size = h.fired.size)
    (perm : (h'.attached ++ h'.departed).Perm (h.attached ++ h.departed)) : h'.Accounted := by
  unfold Accounted
  rw [fired]
  exact (perm.map _).trans a

/-- A cell keeps its attachments. -/
theorem Accounted.setCell (a : h.Accounted) (hc : h.cell? i = some c) (same : d.hooks = c.hooks) :
    (h.setCell i d).Accounted := by
  refine a.of_perm (by rw [fired_setCell]) ?_
  have perm := attached_setCell hc d
  rw [same] at perm
  rw [departed_setCell]
  exact ((List.perm_append_right_iff _).mp perm).append_right _

theorem Accounted.retainAll (a : h.Accounted) (is : List CellId) : (h.retainAll is).Accounted := by
  refine a.of_perm (by rw [fired_retainAll]) ?_
  rw [departed_retainAll]
  exact (attached_retainAll h is).append_right _

/-- The attachments of a cell take their leave with it. -/
theorem Accounted.bury (a : h.Accounted) (hc : h.cell? i = some c) : (h.bury i c).Accounted := by
  refine a.of_perm rfl ?_
  have perm := (attached_bury hc).append_right h.departed
  refine List.Perm.trans ?_ perm
  show ((h.bury i c).attached ++ (h.departed ++ c.hooks)).Perm _
  rw [List.append_assoc]
  exact List.perm_append_comm.append_left _

theorem Accounted.allocate (a : h.Accounted) (bare : c.hooks = []) :
    (h.allocate c).2.Accounted := by
  refine a.of_perm rfl ?_
  unfold Heap.allocate attached
  rw [Array.toList_push, List.flatMap_append]
  simp [attachments, bare]

/-! ### Ways in which heaps change -/

theorem Kept.perm (k : Kept h₀ out h) (perm : out.Perm out') : Kept h₀ out' h :=
  { k with sound := k.sound.perm perm }

/-- What does not concern cells. -/
theorem Kept.beside (k : Kept h₀ out h) (cells : h'.cells = h.cells) (ring : h'.ring = h.ring)
    (fired : h'.fired.size = h.fired.size) (departed : h'.departed = h.departed) :
    Kept h₀ out h' where
  sound := k.sound.of_same cells ring
  accounted := by
    refine k.accounted.of_perm fired ?_
    unfold attached
    rw [cells, departed]
  grown := k.grown.trans (grown_of_same cells (Nat.le_of_eq fired.symm)
    (departed ▸ List.prefix_refl _))

/-- Pools turn. -/
theorem Kept.turn (k : Kept h₀ out h) (turns : h.ring.Turns r) :
    Kept h₀ out { h with ring := r } where
  sound := k.sound.turn turns
  accounted := k.accounted
  grown := k.grown.trans (grown_of_same rfl (Nat.le_refl _) (List.prefix_refl _))

/-- **A new cell** takes over the handles on what it holds. -/
theorem Kept.allocate (k : Kept h₀ (c.owned ++ out) h) (valid : c.Valid) (bare : c.hooks = [])
    (tidy : ∀ t, c.payload = .hash t → t.Tidy h.ring) :
    Kept h₀ (h.cells.size :: out) (h.allocate c).2 :=
  ⟨k.sound.allocate valid tidy, k.accounted.allocate bare, k.grown.trans (grown_allocate h c)⟩

theorem Kept.retainAll (k : Kept h₀ out h) (is : List CellId)
    (alive : ∀ i ∈ is, ∃ c, h.cell? i = some c) :
    Kept h₀ (is ++ out) (h.retainAll is) :=
  ⟨k.sound.retainAll alive, k.accounted.retainAll is, k.grown.trans (grown_retainAll h is)⟩

/-- **Exchange.**  A cell holds other cells than before. -/
theorem Kept.exchange (moved gains loses : List CellId) (k : Kept h₀ (moved ++ out) h)
    (hc : h.cell? i = some c) (b : c.Becomes d) (tidy : ∀ t, d.payload = .hash t → t.Tidy h.ring)
    (alive : ∀ j ∈ gains, ∃ c, h.cell? j = some c)
    (held : ∀ j, d.owned.count j + loses.count j =
      c.owned.count j + gains.count j + moved.count j) :
    Kept h₀ (loses ++ out) ((h.setCell i d).retainAll gains) where
  sound := Sound.exchange moved gains loses k.sound hc b.owners b.valid tidy alive held
  accounted := (k.accounted.setCell hc b.hooks).retainAll gains
  grown := k.grown.trans ((grown_setCell hc b.climbs fun _ ha => .inl (b.hooks ▸ ha)).trans
    (grown_retainAll _ gains))

/-- A cell changes, and holds what it held. -/
theorem Kept.setCell (k : Kept h₀ out h) (hc : h.cell? i = some c) (keeps : c.Keeps d) :
    Kept h₀ out (h.setCell i d) where
  sound := k.sound.setCell hc keeps.owners keeps.valid keeps.target keeps.payload
  accounted := k.accounted.setCell hc keeps.hooks
  grown := k.grown.trans (grown_setCell hc keeps.climbs fun _ ha => .inl (keeps.hooks ▸ ha))

/-- **Letting go.** -/
theorem Kept.letGo (k : Kept h₀ (is ++ out) h) : Kept h₀ out (h.letGo is) := by
  refine letGo_rule (P := fun is h => Kept h₀ (is ++ out) h) ?gone ?drop ?bury k
  case gone =>
    -- there is no handle on a cell that has gone
    intro i rest h hc k
    obtain ⟨c, hc'⟩ := k.sound.owned.alive (i := i) (by simp)
    cases hc.symm.trans hc'
  case drop =>
    intro i rest h c hc more k
    refine ⟨k.sound.drop hc more, k.accounted.setCell hc rfl, k.grown.trans ?_⟩
    exact grown_setCell hc (Shape.climbsTo_refl _) fun a ha => .inl ha
  case bury =>
    intro i rest h c hc last k
    refine ⟨?_, k.accounted.bury hc, k.grown.trans (grown_bury hc)⟩
    rw [List.append_assoc]
    exact k.sound.bury hc last

/-- **Attaching** gives the attachment the next number. -/
theorem Kept.attach (k : Kept h₀ out h) (hc : h.cell? i = some c) (keeps : c.Keeps d)
    (room : d.shape.room.hooks = true) (number : a.number = h.fired.size) :
    Kept h₀ out
      ({ h with fired := h.fired.push 0 }.setCell i { d with hooks := d.hooks ++ [a] }) := by
  rw [keeps.hooks]
  have hc' : { h with fired := h.fired.push 0 }.cell? i = some c := hc
  refine ⟨?_, ?_, k.grown.trans (Grown.trans ?_ (grown_setCell hc' keeps.climbs ?_))⟩
  · have same : Sound { h with fired := h.fired.push 0 } out := k.sound.of_same rfl rfl
    exact same.setCell hc' keeps.owners (keeps.valid.withHooks fun _ => room) keeps.target
      keeps.payload
  · have attached := attached_setCell_more hc' (d := { d with hooks := c.hooks ++ [a] }) rfl
    unfold Accounted
    rw [fired_setCell, departed_setCell, Array.size_push, List.range_succ]
    refine ((attached.append_right h.departed).map _).trans (List.perm_iff_count.mpr fun n => ?_)
    have before := k.accounted.count_eq n
    simp only [List.map_append, List.count_append] at before ⊢
    rw [← before, List.map_singleton, number]
    exact Nat.add_right_comm ..
  · exact grown_of_same rfl (by simp) (List.prefix_refl _)
  · exact fun b hb => .inl (List.mem_append_left _ hb)

/-- **Detaching** has attachments take their leave. -/
theorem Kept.detach (k : Kept h₀ out h) (hc : h.cell? i = some c) {gone kept : List Attachment}
    (split : c.hooks.Perm (gone ++ kept)) :
    Kept h₀ out ((h.takeLeave gone).setCell i { c with hooks := kept }) := by
  have hc' : (h.takeLeave gone).cell? i = some c := hc
  have valid := (k.sound.fit i c hc).valid
  refine ⟨?_, ?_, k.grown.trans (Grown.trans ?_ (grown_setCell hc' (Shape.climbsTo_refl _) ?_))⟩
  · have same : (h.takeLeave gone).Sound out := k.sound.of_same rfl rfl
    refine same.setCell hc' rfl (valid.withHooks fun some => ?_) rfl rfl
    refine valid.room_of_hooks fun none => some ?_
    rw [none] at split
    exact (List.append_eq_nil_iff.mp split.nil_eq.symm).2
  · have attached := attached_setCell_less hc' (d := { c with hooks := kept }) split
    refine k.accounted.of_perm (by rw [fired_setCell]; rfl) ?_
    rw [departed_setCell]
    refine (List.perm_append_comm.append_left _).trans ?_
    rw [← List.append_assoc]
    exact attached.append_right h.departed
  · exact grown_of_same rfl (Nat.le_refl _) (List.prefix_append _ _)
  · intro b hb
    rcases List.mem_append.mp (split.subset hb) with left | stays
    · exact .inr (List.mem_append_right _ left)
    · exact .inl stays

end

end ScriptCore.Heap
