import ScriptCore.Proofs.Pad.Clone

/-!
# Pad — activating a unit

An activation is begun with a cell for each slot (`Balanced.deal`, `Balanced.begin`) and filled
with its closures one by one: `Filling` is what holds between two of them, kept by
`Filling.step`, and `Filling.cloned` is the end of it.

* `ends_activate`: a unit can be activated exactly where it is admitted, and that makes a clone.
* `Activates.alone`: a new cell is shared with none but slots that stand for its own.
-/

namespace ScriptCore.Pads
open Beside Heap

/-! ### The cells of a new activation -/

theorem forall₂_getElem? {α β : Type} {R : α → β → Prop} {l : List α} {l' : List β}
    (h : List.Forall₂ R l l') {k : Nat} {b : β} (hb : l'[k]? = some b) :
    ∃ a, l[k]? = some a ∧ R a b := by
  induction h generalizing k with
  | nil => cases hb
  | @cons a b' l l' first _ ih =>
    cases k with
    | zero =>
      cases hb
      exact ⟨a, rfl, first⟩
    | succ k => exact ih hb

section
variable {h₀ h : Heap} {out lent cells : List CellId} {slots : List (Option PadName)}
  {n : Option PadName} {i : CellId}

/-- The cell that a slot shares with an outer one. -/
def lentCell? (lent : List CellId) (n : Option PadName) : Option CellId :=
  (n.bind (·.outerSlot?)).bind fun slot => lent[slot]?

theorem mem_of_lentCell? (hi : lentCell? lent n = some i) : i ∈ lent := by
  obtain ⟨slot, -, hi⟩ := Option.bind_eq_some_iff.mp hi
  exact List.mem_of_getElem? hi

/-- A slot gets the cell that is lent to it, or a new one. -/
def Gets (lent : List CellId) (h h' : Heap) (n : Option PadName) (i : CellId) : Prop :=
  lentCell? lent n = some i ∨
    lentCell? lent n = none ∧ h.cells.size ≤ i ∧ h'.Holds i (emptyCell n)

/-- One slot gets its cell. -/
theorem ends_activatedCell (h : Heap) (n : Option PadName) {E : Heap → Prop} :
    Ends (activatedCell lent n) h (fun i h' => h.Adds h' ∧ (lentCell? lent n = some i ∨
      lentCell? lent n = none ∧ i = h.cells.size ∧ i < h'.cells.size ∧
        h'.Holds i (emptyCell n))) E := by
  show Ends (sharedCell n (lentCell? lent n)) h _ _
  cases lends : lentCell? lent n with
  | some i => exact ⟨adds_retainAll h [i], .inl rfl⟩
  | none =>
    have holds := Heap.holds_allocate h (emptyCell n)
    exact ⟨Heap.adds_allocate h (emptyCell_owned n), .inr ⟨rfl, rfl, holds.lt_size, holds⟩⟩

/-- **Every slot gets its cell**, and no two get the same new one. -/
theorem ends_activatedCells (slots : List (Option PadName)) {h : Heap}
    (old : ∀ i ∈ lent, i < h.cells.size) {E : Heap → Prop} :
    Ends (slots.mapM (activatedCell lent)) h (fun cells h' => h.Adds h' ∧
      List.Forall₂ (Gets lent h h') slots cells ∧
      cells.Pairwise fun i j => i ∉ lent → i ≠ j) E := by
  induction slots generalizing h with
  | nil => exact ⟨.refl h, .nil, .nil⟩
  | cons n slots ih =>
    rw [List.mapM_cons]
    refine (ends_activatedCell h n).bind ?_
    rintro i g ⟨adds, got⟩
    refine (ih fun j hj => Nat.lt_of_lt_of_le (old j hj) adds.size).bind ?_
    rintro cells h' ⟨adds', gets, distinct⟩
    have gets' : List.Forall₂ (Gets lent h h') slots cells := by
      refine gets.imp fun m j hj => hj.imp_right ?_
      exact fun new => ⟨new.1, Nat.le_trans adds.size new.2.1, new.2.2⟩
    rcases got with lends | ⟨none, rfl, new, holds⟩
    · exact ⟨adds.trans adds', .cons (.inl lends) gets',
        .cons (fun j _ other => absurd (mem_of_lentCell? lends) other) distinct⟩
    · refine ⟨adds.trans adds', .cons (.inr ⟨none, Nat.le_refl _, adds'.old _ _ holds⟩) gets',
        .cons (fun j hj _ => ?_) distinct⟩
      obtain ⟨k, hk⟩ := List.mem_iff_getElem?.mp hj
      obtain ⟨m, -, got⟩ := forall₂_getElem? gets hk
      rcases got with lends | ⟨-, later, -⟩
      · exact Nat.ne_of_gt (old j (mem_of_lentCell? lends))
      · exact Nat.ne_of_lt (Nat.lt_of_lt_of_le new later)

end

/-! ### What the slots get -/

/-- The cells of an outer activation, or none. -/
def IsLent (s : Beside Pads) (outer : Option ActivationId) (lent : List CellId) : Prop :=
  ∀ m : Nat, lent[m]? = outer.bind (s.own.cellAt? · m)

/-- The name stands for a slot of the outer activation, which holds the cell. -/
def Lends (s : Beside Pads) (outer : Option ActivationId) (n : Option PadName) (i : CellId) :
    Prop :=
  ∃ name m o, n = some name ∧ name.outerSlot? = some m ∧ outer = some o ∧
    s.own.cellAt? o m = some i

/-- What the slots of a new activation got: the cell that is lent to them, if one is, and else a
new one of their own. -/
structure Dealt (s : Beside Pads) (h : Heap) (outer : Option ActivationId) (x : CodeUnit)
    (cells : List CellId) : Prop where
  width : cells.length = x.slots.length
  each : ∀ (k : Nat) i, cells[k]? = some i → Lends s outer (x.nameAt? k) i ∨
    (∀ j, ¬ Lends s outer (x.nameAt? k) j) ∧ s.heap.cells.size ≤ i ∧
      h.Holds i (emptyCell (x.nameAt? k))
  distinct : ∀ (k l : Nat) i, cells[k]? = some i → cells[l]? = some i →
    s.heap.cells.size ≤ i → k = l

section
variable {h₀ h : Heap} {out lent cells : List CellId} {s : Beside Pads} {k l : Nat}
  {outer : Option ActivationId} {x : CodeUnit} {n : Option PadName} {i j : CellId}
  {E : Beside Pads → Prop}

theorem Lends.unique (hi : Lends s outer n i) (hj : Lends s outer n j) : i = j := by
  obtain ⟨name, m, o, rfl, slot, rfl, hi⟩ := hi
  obtain ⟨_, _, _, e, slot', e', hj⟩ := hj
  cases e
  cases e'
  cases slot.symm.trans slot'
  exact Option.some.inj (hi.symm.trans hj)

theorem Lends.mem_held (hi : Lends s outer n i) : i ∈ s.own.held := by
  obtain ⟨_, _, _, -, -, -, hi⟩ := hi
  exact mem_held_of_cellAt? hi

theorem IsLent.mem_held (h : IsLent s outer lent) (hi : i ∈ lent) : i ∈ s.own.held := by
  obtain ⟨m, hm⟩ := List.mem_iff_getElem?.mp hi
  rw [h m] at hm
  obtain ⟨o, -, hm⟩ := Option.bind_eq_some_iff.mp hm
  exact mem_held_of_cellAt? hm

theorem IsLent.lentCell?_iff (h : IsLent s outer lent) :
    lentCell? lent n = some i ↔ Lends s outer n i := by
  unfold lentCell?
  constructor
  · intro lends
    obtain ⟨m, slot, hi⟩ := Option.bind_eq_some_iff.mp lends
    obtain ⟨name, rfl, slot⟩ := Option.bind_eq_some_iff.mp slot
    rw [h m] at hi
    obtain ⟨o, rfl, hi⟩ := Option.bind_eq_some_iff.mp hi
    exact ⟨name, m, o, rfl, slot, rfl, hi⟩
  · rintro ⟨name, m, o, rfl, slot, rfl, hi⟩
    rw [Option.bind_some, slot, Option.bind_some, h m, Option.bind_some, hi]

/-- In a list of distinct elements, but for some, others are in one place. -/
theorem eq_of_pairwise (distinct : cells.Pairwise fun i j => i ∉ lent → i ≠ j) (hi : i ∉ lent)
    (hk : cells[k]? = some i) (hl : cells[l]? = some i) : k = l := by
  obtain ⟨ltk, hk⟩ := List.getElem?_eq_some_iff.mp hk
  obtain ⟨ltl, hl⟩ := List.getElem?_eq_some_iff.mp hl
  have pairs := List.pairwise_iff_getElem.mp distinct
  rcases Nat.lt_trichotomy k l with lt | rfl | gt
  · exact absurd (hk.trans hl.symm) (pairs k l ltk ltl lt (hk ▸ hi))
  · rfl
  · exact absurd (hl.trans hk.symm) (pairs l k ltl ltk gt (hl ▸ hi))

/-- **The slots get their cells.** -/
theorem Balanced.deal (b : Balanced h₀ out s) (lends : IsLent s outer lent) (x : CodeUnit) :
    Ends (x.slots.mapM fun n => (activatedCell lent n : OnHeap CellId) : OnPads (List CellId)) s
      (fun cells t => t.own = s.own ∧ Balanced h₀ (cells ++ out) t ∧ s.heap.Adds t.heap ∧
        Dealt s t.heap outer x cells) E := by
  rw [mapM_liftM]
  have old (i : CellId) (hi : i ∈ lent) : i < s.heap.cells.size := b.lt_size (lends.mem_held hi)
  have dealt : Ends (x.slots.mapM (activatedCell lent)) s.heap _ fun _ => False :=
    ends_activatedCells x.slots old
  have kept : Ends (x.slots.mapM (activatedCell lent)) s.heap
      (fun cells => Heap.Kept h₀ (cells ++ (out ++ s.own.held))) fun _ => False := by
    refine ((leads_cells fun n _ more => ?_).ends b.kept).imp (fun _ _ q => q.2) fun _ e => e
    refine leads_sharedCell n fun i hi => List.mem_append_right _ (List.mem_append_right _ ?_)
    exact lends.mem_held (mem_of_lentCell? hi)
  refine ((dealt.and kept).imp (fun _ _ q => q) fun _ e => e.1).liftSure.imp ?_ fun _ e => e
  rintro cells t ⟨own, ⟨adds, gets, distinct⟩, kept⟩
  refine ⟨own, ⟨own ▸ b.formed, ?_⟩, adds, gets.length_eq.symm, fun k i hi => ?_,
    fun k l i hk hl le => eq_of_pairwise distinct (fun hi => ?_) hk hl⟩
  · rw [own, List.append_assoc]
    exact kept
  · obtain ⟨n, hn, got⟩ := forall₂_getElem? gets hi
    have name : x.nameAt? k = n := by
      unfold CodeUnit.nameAt?
      rw [hn]
      rfl
    rw [name]
    refine got.imp lends.lentCell?_iff.mp fun new => ⟨fun j hj => ?_, new.2⟩
    cases (lends.lentCell?_iff.mpr hj).symm.trans new.1
  · exact Nat.not_lt.mpr le (old i hi)

/-- A slot holds the cell that is lent to it. -/
theorem Dealt.lends (d : Dealt s h outer x cells) (lends : Lends s outer (x.nameAt? k) i) :
    cells[k]? = some i := by
  obtain ⟨name, _, _, hn, -⟩ := id lends
  have lt := (List.getElem?_eq_some_iff.mp (Option.join_eq_some_iff.mp hn)).1
  have there := List.getElem?_eq_getElem (d.width ▸ lt)
  rcases d.each k _ there with lends' | ⟨unlent, -⟩
  · rw [there, lends.unique lends']
  · exact absurd lends (unlent i)

/-- A slot to which no cell is lent holds a new one. -/
theorem Dealt.fresh (d : Dealt s h outer x cells) (hi : cells[k]? = some i)
    (unlent : ∀ j, ¬ Lends s outer (x.nameAt? k) j) :
    s.heap.cells.size ≤ i ∧ h.Holds i (emptyCell (x.nameAt? k)) := by
  rcases d.each k i hi with lends | ⟨-, new⟩
  · exact absurd lends (unlent i)
  · exact new

/-- **An activation is added** with the cells that it was dealt. -/
theorem Dealt.grown {s' : Beside Pads} {u : Nat} {id : ActivationId}
    (d : Dealt s s'.heap outer x cells) (adds : s.heap.Adds s'.heap)
    (w : Swaps s.own s'.own id none (some { unit := u, cells, outer }))
    (hx : s.own.units[u]? = some x) (held : ∀ i ∈ s.own.held, i < s.heap.cells.size)
    (lives : ∀ o, outer = some o → ∃ a, s.own.activation? o = some a) : Extends s s' outer := by
  have cell (k : Nat) : s'.own.cellAt? id k = cells[k]? := cellAt?_eq w.after k
  -- other activations hold what they held
  have elsewhere {z : ActivationId} {m : Nat} {i : CellId} (hz : z ≠ id)
      (hi : s'.own.cellAt? z m = some i) : s.own.cellAt? z m = some i := by
    unfold cellAt? at hi ⊢
    rwa [w.others z hz] at hi
  have live (z : ActivationId) (a : Activation) (ha : s.own.activation? z = some a) :
      s'.own.activation? z = some a := by
    rw [w.others z, ha]
    rintro rfl
    cases w.before.symm.trans ha
  refine ⟨w.units, live, adds, fun z m i hz hi old => ?_, fun i le => ?_,
    fun z a o hz ha ho => ?_⟩
  · by_cases here : z = id
    · subst here
      rw [cell] at hi
      rcases d.each m i hi with lends | ⟨-, le, -⟩
      · obtain ⟨n, k, o, hn, slot, ho, hk⟩ := lends
        refine ⟨o, k, ho, hk, .out w.after ho ?_ slot (.here o k)⟩
        rw [nameAt?_eq w.after, w.units, hx]
        exact hn
      · exact absurd old (Nat.not_lt.mpr le)
    · obtain ⟨a, ha, -⟩ := cellAt?_eq_some (elsewhere here hi)
      cases hz.symm.trans ha
  · have only {z : ActivationId} {m : Nat} (hi : s'.own.cellAt? z m = some i) :
        z = id ∧ cells[m]? = some i := by
      by_cases here : z = id
      · subst here
        exact ⟨rfl, cell m ▸ hi⟩
      · exact absurd (held i (mem_held_of_cellAt? (elsewhere here hi))) (Nat.not_lt.mpr le)
    by_cases there : ∃ k : Nat, cells[k]? = some i
    · obtain ⟨k, hk⟩ := there
      refine ⟨id, k, fun z m hi => ?_⟩
      obtain ⟨rfl, hm⟩ := only hi
      rw [d.distinct m k i hm hk le]
      exact .here z k
    · exact ⟨id, 0, fun z m hi => absurd ⟨m, (only hi).2⟩ there⟩
  · by_cases here : z = id
    · subst here
      cases ha.symm.trans w.after
      obtain ⟨c, hc⟩ := lives o ho
      refine ⟨⟨c, live o c hc⟩, fun k m i j slot _ hi hj => ?_⟩
      obtain ⟨n, hn, slot⟩ := Option.bind_eq_some_iff.mp slot
      rw [nameAt?_eq w.after, w.units, hx, Option.bind_some] at hn
      rw [cellAt?_eq (live o c hc), ← cellAt?_eq hc] at hj
      have lends : Lends s outer (x.nameAt? k) j := ⟨n, m, o, hn, slot, ho, hj⟩
      rw [cell, d.lends lends] at hi
      exact (Option.some.inj hi).symm
    · cases hz.symm.trans ((w.others z here).symm.trans ha)

end

/-! ### The prototypes of a unit -/

section
variable {x : CodeUnit} {k v : Nat}

/-- Prototypes are listed by slot, each slot once. -/
theorem pairwise_prototypes (slots : List (Option PadName)) :
    (prototypes slots).Pairwise fun a b => a.1 < b.1 := by
  unfold prototypes
  rw [List.pairwise_filterMap, List.pairwise_iff_getElem]
  rintro i j hi hj lt b hb b' hb'
  rw [List.getElem_zipIdx] at hb hb'
  obtain ⟨v, -, rfl⟩ := Option.map_eq_some_iff.mp hb
  obtain ⟨w, -, rfl⟩ := Option.map_eq_some_iff.mp hb'
  dsimp only
  omega

/-- A slot comes after those that were listed before it. -/
theorem not_mem_done {slots : List (Option PadName)} {done rest : List (Nat × Nat)} {e : Nat × Nat}
    (whole : prototypes slots = done ++ e :: rest) (w : Nat) : (e.1, w) ∉ done := by
  intro before
  have sorted := pairwise_prototypes slots
  rw [whole, List.pairwise_append] at sorted
  exact Nat.lt_irrefl e.1 (sorted.2.2 (e.1, w) before e List.mem_cons_self)

theorem mem_prototypes : (k, v) ∈ prototypes x.slots ↔ (x.nameAt? k).bind (·.nested?) = some v := by
  unfold prototypes
  rw [List.mem_filterMap]
  constructor
  · rintro ⟨⟨n, slot⟩, there, e⟩
    rw [List.mem_zipIdx_iff_getElem?] at there
    obtain ⟨w, nested, e⟩ := Option.map_eq_some_iff.mp e
    cases e
    unfold CodeUnit.nameAt?
    rw [there]
    exact nested
  · intro nested
    unfold CodeUnit.nameAt? at nested
    cases there : x.slots[k]? with
    | none =>
      rw [there] at nested
      cases nested
    | some n =>
      rw [there] at nested
      refine ⟨(n, k), List.mem_zipIdx_iff_getElem?.mpr there, ?_⟩
      exact Option.map_eq_some_iff.mpr ⟨v, nested, rfl⟩

theorem mem_nestedUnits (h : (x.nameAt? k).bind (·.nested?) = some v) : v ∈ x.nestedUnits := by
  unfold CodeUnit.nameAt? at h
  cases there : x.slots[k]? with
  | none =>
    rw [there] at h
    cases h
  | some n =>
    rw [there] at h
    exact List.mem_filterMap.mpr ⟨n, List.mem_of_getElem? there, h⟩

end

/-! ### Filling a clone with closures -/

/-- A new activation of the unit `x` has been put in its place, with its cells and no closures. -/
structure Started (s s' : Beside Pads) (outer : Option ActivationId) (id : ActivationId)
    (x : CodeUnit) (cells : List CellId) : Prop where
  new : s.own.activation? id = none
  there : s'.own.activation? id ≠ none
  earlier : ∀ z, s'.own.activation? z = none → s.own.activation? z = none
  size : s.heap.cells.size ≤ s'.heap.cells.size
  dealt : Dealt s s'.heap outer x cells
  each : ∀ i ∈ cells, i < s'.heap.cells.size

/-- Since then, some of its prototypes have got their closures. -/
structure Filling (h₀ : Heap) (out : List CellId) (s s' : Beside Pads) (u : Nat)
    (outer : Option ActivationId) (id : ActivationId) (x : CodeUnit) (cells : List CellId)
    (done : List (Nat × Nat)) (t : Beside Pads) : Prop where
  balanced : Balanced h₀ out t
  unit : t.own.units[u]? = some x
  grown : Extends s t outer
  since : Later s'.heap.cells.size id s' t
  size : s'.heap.cells.size ≤ t.heap.cells.size
  live : ∃ cs, t.own.activation? id = some { unit := u, cells := cs, outer } ∧
    cs.length = cells.length ∧ ∀ k, (∀ v, (k, v) ∉ done) → cs[k]? = cells[k]?
  fresh : ∀ k i, (x.nameAt? k).bind (·.nested?) = none → cells[k]? = some i →
    s.heap.cells.size ≤ i → t.heap.Holds i (emptyCell (x.nameAt? k))
  closures : ∀ k v, (k, v) ∈ done →
    ∃ y, ClosureAt s' t id k v y ∧ Cloned s' t v (some id) y

section
variable {h₀ : Heap} {out lent cells : List CellId} {s s' t : Beside Pads} {u v slot : Nat}
  {outer : Option ActivationId} {id : ActivationId} {x : CodeUnit} {done : List (Nat × Nat)}
  {E : Beside Pads → Prop}

theorem Filling.nameAt? (f : Filling h₀ out s s' u outer id x cells done t) (k : Nat) :
    t.own.nameAt? id k = x.nameAt? k := by
  obtain ⟨cs, live, -⟩ := f.live
  rw [nameAt?_eq live, f.unit, Option.bind_some]

/-- A slot that waits for its closure holds the empty cell it was made with. -/
theorem Filling.waits (st : Started s s' outer id x cells)
    (f : Filling h₀ out s s' u outer id x cells done t)
    (nested : (x.nameAt? slot).bind (·.nested?) = some v) (undone : ∀ w, (slot, w) ∉ done) :
    ∃ a p, t.own.activation? id = some a ∧ a.cells[slot]? = some p ∧ cells[slot]? = some p := by
  obtain ⟨n, hn, -⟩ := Option.bind_eq_some_iff.mp nested
  have lt := (List.getElem?_eq_some_iff.mp (Option.join_eq_some_iff.mp hn)).1
  have hp := List.getElem?_eq_getElem (st.dealt.width ▸ lt)
  obtain ⟨cs, live, -, same⟩ := f.live
  exact ⟨_, _, live, (same slot undone).trans hp, hp⟩

/-- **One closure more.** -/
theorem Filling.step (st : Started s s' outer id x cells)
    (f : Filling h₀ out s s' u outer id x cells done t)
    (nested : (x.nameAt? slot).bind (·.nested?) = some v) (undone : ∀ w, (slot, w) ∉ done)
    {make : OnPads ActivationId}
    (made : Ends make t (Makes h₀ out t v (some id)) fun _ => False) :
    Ends (make >>= fun y => closureOf v y >>= replaceCell id slot) t
      (fun _ => Filling h₀ out s s' u outer id x cells (done ++ [(slot, v)])) E := by
  obtain ⟨a, p, ha, hp, hp'⟩ := f.waits st nested undone
  refine (ends_close ha hp made).imp ?_ fun _ e => e
  rintro _ t₃ ⟨b₃, y, t₁, m, w⟩
  have e := f.grown.trans st.new m.grown
  have name : t₁.own.nameAt? id slot = x.nameAt? slot := by
    rw [nameAt?_eq (m.grown.live id a ha), m.grown.units, ← nameAt?_eq ha, f.nameAt?]
  have prototype : (t₁.own.nameAt? id slot).bind (·.nested?) = some v := name ▸ nested
  have own : ∀ n, t₁.own.nameAt? id slot = some n → n.outerSlot? = none := by
    intro n hn
    rw [hn] at prototype
    exact outerSlot?_of_nested? prototype
  have empty : ∀ c, t₁.heap.cell? p = some c → c.owned = [] := fun c hc =>
    e.heap.empty (e.newCell st.new own w.cellAt?_before) hc
  have old : p < s'.heap.cells.size := st.each p (List.mem_of_getElem? hp')
  have size : s'.heap.cells.size ≤ t₁.heap.cells.size := f.size.trans m.grown.heap.size
  have l : Later s'.heap.cells.size id t t₃ :=
    (m.grown.later _ id).trans (w.later empty old prototype)
  obtain ⟨child, clone⟩ := m.cloned.clone
  have newChild : s.own.activation? y = none := by
    cases hy : s.own.activation? y with
    | none => rfl
    | some a => cases (f.grown.live y a hy).symm.trans clone.new
  have earlier (z : ActivationId) (hz : t.own.activation? z = none) :
      s'.own.activation? z = none := by
    cases hz' : s'.own.activation? z with
    | none => rfl
    | some d =>
      obtain ⟨d', hd', -⟩ := f.since.stays z d hz'
      cases hd'.symm.trans hz
  have there : t.own.activation? id ≠ none := fun none => by cases ha.symm.trans none
  obtain ⟨cs, live, len, same⟩ := f.live
  have live₃ : t₃.own.activation? id =
      some { unit := u, cells := cs.set slot t₁.heap.cells.size, outer } := by
    obtain ⟨d, hd, -, after⟩ := w.parent
    cases (m.grown.live id _ live).symm.trans hd
    exact after
  refine ⟨b₃, l.units ▸ f.unit, w.grown e m.balanced st.new newChild prototype, f.since.trans l,
    size.trans (w.size_le), ⟨_, live₃, ?_, fun k hk => ?_⟩,
    fun k i plain hi le => ?_, fun k v' hk => ?_⟩
  · rw [List.length_set, len]
  · rw [List.getElem?_set_ne, same k fun w hw => hk w (List.mem_append_left _ hw)]
    rintro rfl
    exact hk _ (List.mem_append_right _ List.mem_cons_self)
  · refine w.holds empty ?_ (m.grown.heap.old i _ (f.fresh k i plain hi le))
    rintro rfl
    rw [← st.dealt.distinct slot k i hp' hi le, nested] at plain
    cases plain
  · rcases List.mem_append.mp hk with before | now
    · obtain ⟨y', closure, cloned⟩ := f.closures k v' before
      have other : slot ≠ k := fun e => undone v' (e ▸ before)
      refine ⟨y', closure.mono (Nat.le_refl _) ?_ l.holds,
        cloned.later (Nat.le_refl _) (fun _ none => none) l st.there⟩
      rw [cellAt?_eq live₃, cellAt?_eq live, List.getElem?_set_ne other]
    · cases List.mem_singleton.mp now
      have last := w.later empty (Nat.lt_of_lt_of_le old f.size) prototype
      exact ⟨y, w.closureAt b₃ size,
        m.cloned.later f.size earlier last there⟩

/-- **Every closure.** -/
theorem Filling.all (make : Nat → OnPads ActivationId) (st : Started s s' outer id x cells)
    (made : ∀ k v t, (x.nameAt? k).bind (·.nested?) = some v → ∀ done,
      Filling h₀ out s s' u outer id x cells done t →
      Ends (make v) t (Makes h₀ out t v (some id)) fun _ => False)
    (f : Filling h₀ out s s' u outer id x cells [] t) :
    Ends ((prototypes x.slots).forM fun e => (make e.2 >>= closureOf e.2) >>= replaceCell id e.1) t
      (fun _ => Filling h₀ out s s' u outer id x cells (prototypes x.slots)) E := by
  refine Leads.ends (Leads.forM_done fun done e rest whole => Leads.of_ends fun t f => ?_) f
  have nested : (x.nameAt? e.1).bind (·.nested?) = some e.2 := by
    refine mem_prototypes.mp ?_
    rw [whole]
    exact List.mem_append_right _ List.mem_cons_self
  have one := f.step (E := E) st nested (not_mem_done whole) (made e.1 e.2 t nested done f)
  rwa [← bind_assoc] at one

/-- A slot without a prototype holds what it got. -/
theorem Filling.cellAt?_plain (f : Filling h₀ out s s' u outer id x cells (prototypes x.slots) t)
    {k : Nat} (plain : (x.nameAt? k).bind (·.nested?) = none) :
    t.own.cellAt? id k = cells[k]? := by
  obtain ⟨cs, live, -, same⟩ := f.live
  rw [cellAt?_eq live, same k fun v hv => ?_]
  rw [mem_prototypes, plain] at hv
  cases hv

/-- The outer activation has the cells that it had. -/
theorem Filling.cellAt?_outer (f : Filling h₀ out s s' u outer id x cells done t)
    {o : ActivationId} {a : Activation} (ha : s.own.activation? o = some a) (m : Nat) :
    t.own.cellAt? o m = s.own.cellAt? o m := by
  rw [cellAt?_eq ha, cellAt?_eq (f.grown.live o a ha)]

/-- A captured slot holds the cell that was lent to it. -/
theorem Filling.captured (st : Started s s' outer id x cells)
    (f : Filling h₀ out s s' u outer id x cells (prototypes x.slots) t) {k m : Nat} {n : PadName}
    {o : ActivationId} {i : CellId} (hn : t.own.nameAt? id k = some n)
    (slot : n.outerSlot? = some m) (ho : outer = some o) (hi : s.own.cellAt? o m = some i) :
    t.own.cellAt? id k = some i := by
  rw [f.nameAt?] at hn
  have plain : (x.nameAt? k).bind (·.nested?) = none := by
    rw [hn]
    cases nested : n.nested? with
    | none => exact nested
    | some v => cases slot.symm.trans (outerSlot?_of_nested? nested)
  rw [f.cellAt?_plain plain]
  exact st.dealt.lends ⟨n, m, o, hn, slot, ho, hi⟩

/-- Each prototype has its closure. -/
theorem Filling.children (f : Filling h₀ out s s' u outer id x cells (prototypes x.slots) t) :
    ∃ child : Nat → ActivationId, ∀ k n v, t.own.nameAt? id k = some n → n.nested? = some v →
      ClosureAt s' t id k v (child k) ∧ Cloned s' t v (some id) (child k) := by
  have each : ∀ k, ∃ y, ∀ n v, t.own.nameAt? id k = some n → n.nested? = some v →
      ClosureAt s' t id k v y ∧ Cloned s' t v (some id) y := by
    intro k
    cases nested : (x.nameAt? k).bind (·.nested?) with
    | none =>
      refine ⟨id, fun n v hn hv => ?_⟩
      rw [f.nameAt?] at hn
      rw [hn] at nested
      cases hv.symm.trans nested
    | some w =>
      obtain ⟨y, closure, cloned⟩ := f.closures k w (mem_prototypes.mpr nested)
      refine ⟨y, fun n v hn hv => ?_⟩
      rw [f.nameAt?] at hn
      rw [hn] at nested
      cases hv.symm.trans nested
      exact ⟨closure, cloned⟩
  exact ⟨fun k => (each k).choose, fun k => (each k).choose_spec⟩

/-- **A clone that has all its closures.** -/
theorem Filling.cloned (st : Started s s' outer id x cells)
    (lives : ∀ o, outer = some o → ∃ a, s.own.activation? o = some a)
    (f : Filling h₀ out s s' u outer id x cells (prototypes x.slots) t) :
    Cloned s t u outer id := by
  obtain ⟨cs, live, len, -⟩ := f.live
  obtain ⟨child, closing⟩ := f.children
  refine .intro child ⟨st.new, ⟨_, x, live, f.unit, rfl, rfl, len.trans st.dealt.width⟩,
    fun o ho => ?_, fun k n m o i hn slot ho _ hi => ?_, fun k i plain unlent hi => ?_,
    fun k n v hn nested => ?_⟩ fun k n v hn nested => ?_
  · obtain ⟨a, ha⟩ := lives o ho
    exact ⟨a, f.grown.live o a ha⟩
  · obtain ⟨a, ha⟩ := lives o ho
    rw [f.cellAt?_outer ha] at hi
    exact f.captured st hn slot ho hi
  · rw [f.nameAt?] at plain ⊢
    rw [f.cellAt?_plain plain] at hi
    have unlent (j : CellId) : ¬ Lends s outer (x.nameAt? k) j := by
      rintro ⟨n, m, o, hn, slot, ho, hj⟩
      obtain ⟨a, ha⟩ := lives o ho
      have gone := unlent n m o (f.nameAt? k ▸ hn) slot ho
      rw [f.cellAt?_outer ha, hj] at gone
      cases gone
    have fresh := st.dealt.fresh hi unlent
    exact ⟨fresh.1, f.fresh k i plain hi fresh.1⟩
  · exact (closing k n v hn nested).1.mono st.size rfl fun _ _ _ holds => holds
  · exact (closing k n v hn nested).2.later st.size st.earlier (.refl _ id t) st.there

/-- **A new activation**, before it has its closures. -/
theorem Balanced.begin {s₁ : Beside Pads} (b : Balanced h₀ (cells ++ out) s₁)
    (own : s₁.own = s.own) (adds : s.heap.Adds s₁.heap) (hx : s.own.units[u]? = some x)
    (held : ∀ i ∈ s.own.held, i < s.heap.cells.size) (d : Dealt s s₁.heap outer x cells)
    (lives : ∀ o, outer = some o → ∃ a, s.own.activation? o = some a) :
    Ends (insert { unit := u, cells, outer }) s₁ (fun id s' => Started s s' outer id x cells ∧
      Filling h₀ out s s' u outer id x cells [] s') E := by
  refine (ends_insert b.formed.vacant _).imp ?_ fun _ e => e
  rintro id s' ⟨heap, w⟩
  have b' : Balanced h₀ out s' := by
    refine Balanced.swap cells [] b heap w (fun a e => ?_) fun i => Nat.add_comm _ _
    obtain rfl := Option.some.inj e
    exact ⟨x, own ▸ hx, Nat.le_of_eq d.width⟩
  rw [own] at w
  rw [← heap] at adds d
  have grown := d.grown adds w hx held lives
  refine ⟨⟨w.before, fun none => ?_, fun z hz => ?_, adds.size, d, fun i hi => ?_⟩,
    ⟨b', w.units ▸ hx, grown, .refl _ id s', Nat.le_refl _,
      ⟨cells, w.after, rfl, fun _ _ => rfl⟩, fun k i _ hi le => ?_, nofun⟩⟩
  · cases w.after.symm.trans none
  · cases hz' : s.own.activation? z with
    | none => rfl
    | some a => cases (grown.live z a hz').symm.trans hz
  · exact b'.lt_size (mem_held w.after hi)
  · rcases d.each k i hi with lends | ⟨-, -, holds⟩
    · exact absurd (held i lends.mem_held) (Nat.not_lt.mpr le)
    · exact holds

/-- An activation that gets all its closures stays. -/
theorem ends_insertFilled {a : Activation} {fresh : List (Nat × Nat)}
    {closure : Nat → ActivationId → OnPads CellId} {P Q : ActivationId → Beside Pads → Prop}
    (begun : Ends (insert a) s P fun _ => False)
    (filled : ∀ id t, P id t → Ends (fresh.forM fun e => closure e.2 id >>= replaceCell id e.1) t
      (fun _ => Q id) fun _ => False) : Ends (insertFilled a fresh closure) s Q E := by
  refine begun.sure.bind fun id t begun => ?_
  refine (filled id t begun).attempt.bind fun r t' done => ?_
  cases r with
  | ok _ => exact done
  | error e => exact done.elim

/-- A unit can be activated in an activation of the one around it. -/
theorem Formed.admits {p : Pads} {a : Activation} (f : p.Formed)
    (ha : p.activation? id = some a) (hx : p.units[a.unit]? = some x) (hv : v ∈ x.nestedUnits) :
    p.Admits v (some id) := by
  obtain ⟨y, hy, outer⟩ := f.nests _ x v hx hv
  refine ⟨y, hy, fun o ho => ?_⟩
  obtain rfl := Option.some.inj ho
  exact ⟨a, ha, outer⟩

/-- What activating a unit gives: a clone, in which each captured slot holds the very cell of the
outer activation that it stands for. -/
structure Activates (h₀ : Heap) (out : List CellId) (s : Beside Pads) (u : Nat)
    (outer : Option ActivationId) (id : ActivationId) (t : Beside Pads) : Prop
    extends Makes h₀ out s u outer id t where
  lent : ∀ k n m o i, t.own.nameAt? id k = some n → n.outerSlot? = some m → outer = some o →
    s.own.cellAt? o m = some i → t.own.cellAt? id k = some i

/-- **A unit is activated**, if the units inside it can be. -/
theorem Balanced.clone (lent : List CellId) (b : Balanced h₀ out s) (hx : s.own.units[u]? = some x)
    (lives : ∀ o, outer = some o → ∃ a, s.own.activation? o = some a) (h : IsLent s outer lent)
    {make : Nat → ActivationId → OnPads ActivationId}
    (made : ∀ id t v, Balanced h₀ out t → t.own.units = s.own.units →
      (∃ a, t.own.activation? id = some a ∧ a.unit = u) → v ∈ x.nestedUnits →
      Ends (make v id) t (Makes h₀ out t v (some id)) fun _ => False) :
    Ends (do
      let cells ← x.slots.mapM fun n => (activatedCell lent n : OnHeap CellId)
      insertFilled { unit := u, cells, outer } (prototypes x.slots) fun nested id => do
        closureOf nested (← make nested id) : OnPads ActivationId) s
      (Activates h₀ out s u outer) E := by
  refine (b.deal h x).bind ?_
  rintro cells s₁ ⟨own, b₁, adds, dealt⟩
  have begun := b₁.begin (E := fun _ => False) own adds hx (fun i => b.lt_size) dealt lives
  refine ends_insertFilled begun ?_
  rintro id s' ⟨st, f⟩
  refine (Filling.all (make · id) st (fun k v t nested done f => ?_) f).imp ?_ fun _ e => e
  · obtain ⟨cs, live, -⟩ := f.live
    exact made id t v f.balanced f.grown.units ⟨_, live, rfl⟩ (mem_nestedUnits nested)
  · intro _ t f
    exact ⟨⟨f.balanced, f.grown, f.cloned st lives⟩, fun k n m o i => f.captured st⟩

/-- **Activating a unit** succeeds where it is admitted and gives a clone, and elsewhere it changes
nothing. -/
theorem ends_activateWithin (levels : Nat) (b : Balanced h₀ out s)
    (deep : s.own.units.size ≤ levels + u) :
    Ends (activateWithin levels u outer) s
      (fun id t => s.own.Admits u outer ∧ Activates h₀ out s u outer id t)
      fun t => ¬ s.own.Admits u outer ∧ t = s := by
  induction levels generalizing s u outer with
  | zero =>
    refine ⟨?_, rfl⟩
    rintro ⟨x, hx, -⟩
    have := (Array.getElem?_eq_some_iff.mp hx).1
    omega
  | succ levels ih =>
    -- units inside `u` come later, so there are levels enough for them
    have make {x : CodeUnit} (hx : s.own.units[u]? = some x) (id : ActivationId)
        (t : Beside Pads) (v : Nat) (b : Balanced h₀ out t) (units : t.own.units = s.own.units)
        (live : ∃ a, t.own.activation? id = some a ∧ a.unit = u) (hv : v ∈ x.nestedUnits) :
        Ends (activateWithin levels v (some id)) t (Makes h₀ out t v (some id))
          fun _ => False := by
      obtain ⟨a, ha, rfl⟩ := live
      rw [← units] at hx deep
      obtain ⟨y, hy, outer⟩ := b.formed.nests _ x v hx hv
      have inside := b.formed.nested.nested v y _ hy outer
      refine (ih b (by omega)).imp (fun _ _ q => q.2.toMakes) fun _ e => e.1 ?_
      exact b.formed.admits ha hx hv
    unfold activateWithin
    refine ((ends_unit u s).imp (fun _ _ q => q) ?_).bind ?_
    · rintro t ⟨rfl, none⟩
      refine ⟨?_, rfl⟩
      rintro ⟨x, hx, -⟩
      cases hx.symm.trans none
    rintro x t ⟨rfl, hx⟩
    dsimp only
    cases outer with
    | none =>
      refine Ends.step (a := []) (t := t) rfl ?_
      refine (b.clone [] hx (fun o ho => ?_) (fun m => rfl) (make hx)).imp
        (fun id t q => ⟨⟨x, hx, fun o ho => ?_⟩, q⟩) fun _ e => e
      · cases ho
      · cases ho
    | some o =>
      refine ((ends_activation o t).imp (fun _ _ q => q) ?_).bind ?_
      · rintro t ⟨rfl, none⟩
        refine ⟨?_, rfl⟩
        rintro ⟨_, -, lives⟩
        obtain ⟨a, ha, -⟩ := lives o rfl
        cases ha.symm.trans none
      rintro a t ⟨rfl, ha⟩
      split
      · rename_i other
        refine ⟨?_, rfl⟩
        rintro ⟨x', hx', lives⟩
        obtain ⟨a', ha', same⟩ := lives o rfl
        cases hx.symm.trans hx'
        cases ha.symm.trans ha'
        exact other same
      · rename_i same
        refine Ends.step (a := a.cells) (t := t) rfl ?_
        refine (b.clone a.cells hx (fun o' ho => ?_) (fun m => ?_) (make hx)).imp
          (fun id t' q => ⟨⟨x, hx, fun o' ho => ?_⟩, q⟩) fun _ e => e
        · obtain rfl := Option.some.inj ho
          exact ⟨a, ha⟩
        · exact (cellAt?_eq ha m).symm
        · obtain rfl := Option.some.inj ho
          exact ⟨a, ha, Decidable.not_not.mp same⟩

theorem ends_activate (b : Balanced h₀ out s) (u : Nat) (outer : Option ActivationId) :
    Ends (activate u outer) s
      (fun id t => s.own.Admits u outer ∧ Activates h₀ out s u outer id t)
      fun t => ¬ s.own.Admits u outer ∧ t = s :=
  Ends.self (ends_activateWithin _ b (Nat.le_add_right _ _))

/-! ### Whose a new cell is -/

/-- Nothing on the heap holds a new cell. -/
theorem Extends.not_mem_held (e : Extends s t outer) (b : Balanced h₀ out s) {i : CellId}
    (new : s.heap.cells.size ≤ i) : i ∉ t.heap.held := by
  intro hi
  obtain ⟨c, hc, hi⟩ := List.mem_flatMap.mp hi
  cases c with
  | none => cases hi
  | some c =>
    obtain ⟨j, hj⟩ := List.mem_iff_getElem?.mp hc
    have there : t.heap.cell? j = some c := by
      unfold Heap.cell?
      rw [← Array.getElem?_toList, hj]
      rfl
    rcases e.heap.new j c there with ⟨n, hn⟩ | ⟨-, empty⟩
    · obtain ⟨d, hd⟩ := b.kept.sound.owned.alive_held hn hi
      exact absurd (Heap.lt_size hd) (Nat.not_lt.mpr new)
    · change i ∈ c.owned at hi
      rw [empty] at hi
      cases hi

/-- **A new cell is shared** with none but captured slots that lead to the one it was made for, and
with nothing else. -/
theorem Activates.alone (a : Activates h₀ out s u outer id t) (b : Balanced h₀ out s)
    {x : ActivationId} {k : Nat} {i : CellId} (new : s.own.activation? x = none)
    (hi : t.own.cellAt? x k = some i)
    (own : ∀ n, t.own.nameAt? x k = some n → n.outerSlot? = none) :
    (∀ y m, t.own.cellAt? y m = some i → s.own.activation? y = none ∧ t.own.Traces y m x k) ∧
      (t.heap.cell i).owners = t.own.held.count i := by
  have le := a.grown.newCell new own hi
  refine ⟨fun y m hm => ⟨?_, ?_⟩, ?_⟩
  · cases hy : s.own.activation? y with
    | none => rfl
    | some d =>
      have before : s.own.cellAt? y m = some i := by
        rw [cellAt?_eq hy, ← cellAt?_eq (a.grown.live y d hy), hm]
      exact absurd (b.lt_size (mem_held_of_cellAt? before)) (Nat.not_lt.mpr le)
  · obtain ⟨z, l, from'⟩ := a.grown.born i le
    obtain ⟨rfl, rfl⟩ := (from' x k hi).eq_of_own own
    exact from' y m hm
  · have owners := a.balanced.kept.sound.owners i
    have onHeap := List.count_eq_zero.mpr (a.grown.not_mem_held b le)
    have outside : out.count i = 0 := List.count_eq_zero.mpr fun there => by
      obtain ⟨c, hc⟩ := b.kept.alive (List.mem_append_left _ there)
      exact absurd (Heap.lt_size hc) (Nat.not_lt.mpr le)
    rw [owners, List.count_append, onHeap, outside, Nat.zero_add, Nat.zero_add]

end

end ScriptCore.Pads
