import ScriptCore.Proofs.Heap.Adding
import ScriptCore.Proofs.Pad.Arena

/-!
# Pad — clones

A new activation of a unit has the cells of the outer one in its captured slots, closures in the
slots of prototypes, and new cells in the others (`Clone`).  The closures run activations made with
it, which are clones in turn (`Cloned`).

Closures come one after the other, and what is said of one has to outlast the next.  `Later` says
what a clone that is not yet filled may still see happen: slots of prototypes change, nothing else
does.  `Extends` says what making activations leaves behind: a cell from before is found in new
activations only where slots stand for one that had it, and every new cell comes from one slot.
`Traces` is how a slot stands for another, through all the activations between.
`Plugs` is the one step: a closure comes in the place of an empty cell.
-/

namespace ScriptCore

namespace CodeUnit

/-- The name of a slot. -/
def nameAt? (x : CodeUnit) (slot : Nat) : Option PadName := (x.slots[slot]?).join

end CodeUnit

namespace Pads
open Beside Heap

/-- The name of a slot of an activation. -/
def nameAt? (p : Pads) (id : ActivationId) (slot : Nat) : Option PadName :=
  (p.activation? id).bind fun a => (p.units[a.unit]?).bind (·.nameAt? slot)

/-- The cell in a slot of an activation. -/
def cellAt? (p : Pads) (id : ActivationId) (slot : Nat) : Option CellId :=
  (p.activation? id).bind (·.cells[slot]?)

/-- The activation that an activation is to be made in is there, and of the right unit. -/
def Admits (p : Pads) (u : Nat) (outer : Option ActivationId) : Prop :=
  ∃ x, p.units[u]? = some x ∧
    ∀ o, outer = some o → ∃ a, p.activation? o = some a ∧ x.outer = some a.unit

/-- A captured slot leads to the slot of the outer activation that it stands for, and on from
there. -/
inductive Traces (p : Pads) : ActivationId → Nat → ActivationId → Nat → Prop
  | here (x : ActivationId) (k : Nat) : Traces p x k x k
  | out {x o y : ActivationId} {k m l : Nat} {a : Activation} {n : PadName} :
    p.activation? x = some a → a.outer = some o → p.nameAt? x k = some n →
      n.outerSlot? = some m → Traces p o m y l → Traces p x k y l

/-- The slots of an activation have the names and the cells that they had. -/
structure Alike (p q : Pads) (z : ActivationId) : Prop where
  names : ∀ k, q.nameAt? z k = p.nameAt? z k
  cells : ∀ k, q.cellAt? z k = p.cellAt? z k

/-- The captured slots of `y` have the very cells of the slots of `o` that they stand for, closures
apart. -/
def Sees (p : Pads) (y o : ActivationId) : Prop :=
  ∀ k m i j, (p.nameAt? y k).bind (·.outerSlot?) = some m →
    (p.nameAt? o m).bind (·.nested?) = none →
      p.cellAt? y k = some i → p.cellAt? o m = some j → i = j

/-- The slot holds a new code cell that runs an activation of a unit. -/
def ClosureAt (s t : Beside Pads) (id : ActivationId) (slot u : Nat) (y : ActivationId) : Prop :=
  ∃ i name, t.own.cellAt? id slot = some i ∧ s.heap.cells.size ≤ i ∧
    t.heap.Holds i (.ofRoutine { name, unit := some u, activation := some y })

/-- A new activation of a unit in an outer one, with a cell for each name.  `child` are the
activations of its closures, by slot. -/
structure Clone (s t : Beside Pads) (u : Nat) (outer : Option ActivationId) (id : ActivationId)
    (child : Nat → ActivationId) : Prop where
  new : s.own.activation? id = none
  live : ∃ a x, t.own.activation? id = some a ∧ t.own.units[u]? = some x ∧ a.unit = u ∧
    a.outer = outer ∧ a.cells.length = x.slots.length
  outerLive : ∀ o, outer = some o → ∃ a, t.own.activation? o = some a
  captured : ∀ k n m o i, t.own.nameAt? id k = some n → n.outerSlot? = some m → outer = some o →
    (t.own.nameAt? o m).bind (·.nested?) = none → t.own.cellAt? o m = some i →
      t.own.cellAt? id k = some i
  fresh : ∀ k i, (t.own.nameAt? id k).bind (·.nested?) = none →
    (∀ n m o, t.own.nameAt? id k = some n → n.outerSlot? = some m → outer = some o →
      t.own.cellAt? o m = none) →
    t.own.cellAt? id k = some i →
      s.heap.cells.size ≤ i ∧ t.heap.Holds i (emptyCell (t.own.nameAt? id k))
  closure : ∀ k n v, t.own.nameAt? id k = some n → n.nested? = some v →
    ClosureAt s t id k v (child k)

/-- A clone whose closures run clones in it, and so on. -/
inductive Cloned (s t : Beside Pads) : Nat → Option ActivationId → ActivationId → Prop
  | intro {u : Nat} {outer : Option ActivationId} {id : ActivationId}
    (child : Nat → ActivationId) (here : Clone s t u outer id child)
    (closures : ∀ k n v, t.own.nameAt? id k = some n → n.nested? = some v →
      Cloned s t v (some id) (child k)) : Cloned s t u outer id

/-- What making activations in an outer one leads to: the others stay, and a cell that slots of
new activations hold is one of the outer one's that they stand for, or is new, and comes from
one slot.  What a new activation was made in is there, and it sees the cells of that. -/
structure Extends (s t : Beside Pads) (outer : Option ActivationId) : Prop where
  units : t.own.units = s.own.units
  live : ∀ z a, s.own.activation? z = some a → t.own.activation? z = some a
  heap : s.heap.Adds t.heap
  within : ∀ z m i, s.own.activation? z = none → t.own.cellAt? z m = some i →
    i < s.heap.cells.size → ∃ o k, outer = some o ∧ s.own.cellAt? o k = some i ∧
      t.own.Traces z m o k
  born : ∀ i, s.heap.cells.size ≤ i → ∃ x k, ∀ z m, t.own.cellAt? z m = some i →
    t.own.Traces z m x k
  sees : ∀ z a o, s.own.activation? z = none → t.own.activation? z = some a → a.outer = some o →
    (∃ d, t.own.activation? o = some d) ∧ t.own.Sees z o

/-- What is new, but for frames, was made in an activation that is there, and sees the cells of
that. -/
def Births (p q : Pads) : Prop :=
  ∀ z a o, p.activation? z = none → q.activation? z = some a → a.base = none → a.outer = some o →
    (∃ d, q.activation? o = some d) ∧ q.Sees z o

/-- A later time at which an activation `id` may have got other closures. -/
structure Later (size : Nat) (id : ActivationId) (s t : Beside Pads) : Prop where
  units : t.own.units = s.own.units
  stays : ∀ z a, s.own.activation? z = some a → ∃ b, t.own.activation? z = some b ∧
    b.unit = a.unit ∧ b.outer = a.outer ∧ b.cells.length = a.cells.length ∧
    ∀ k, (z = id → (s.own.nameAt? id k).bind (·.nested?) = none) → b.cells[k]? = a.cells[k]?
  holds : ∀ i c, size ≤ i → s.heap.Holds i c → t.heap.Holds i c

section
variable {s t u : Beside Pads} {p q : Pads} {id x y z o : ActivationId} {k l m size : Nat}
  {outer : Option ActivationId} {a b : Activation} {i : CellId} {c : CodeUnit}

theorem nameAt?_eq (ha : p.activation? id = some a) (k : Nat) :
    p.nameAt? id k = (p.units[a.unit]?).bind (·.nameAt? k) := by
  unfold nameAt?
  rw [ha, Option.bind_some]

theorem cellAt?_eq (ha : p.activation? id = some a) (k : Nat) :
    p.cellAt? id k = a.cells[k]? := by
  unfold cellAt?
  rw [ha, Option.bind_some]

theorem cellAt?_eq_some (hi : p.cellAt? id k = some i) :
    ∃ a, p.activation? id = some a ∧ a.cells[k]? = some i := Option.bind_eq_some_iff.mp hi

/-- What slots hold is held. -/
theorem mem_held_of_cellAt? (hi : p.cellAt? id k = some i) : i ∈ p.held := by
  obtain ⟨a, ha, hi⟩ := cellAt?_eq_some hi
  exact mem_held ha (List.mem_of_getElem? hi)

/-! ### Tracing slots -/

theorem Traces.trans (h : p.Traces x k y l) (h' : p.Traces y l z m) : p.Traces x k z m := by
  induction h with
  | here => exact h'
  | out ha outer name slot _ ih => exact .out ha outer name slot (ih h')

/-- A slot that is not captured leads to none but itself. -/
theorem Traces.eq_of_own (h : p.Traces x k y l)
    (own : ∀ n, p.nameAt? x k = some n → n.outerSlot? = none) : y = x ∧ l = k := by
  cases h with
  | here => exact ⟨rfl, rfl⟩
  | out ha outer name slot _ =>
    rw [own _ name] at slot
    cases slot

theorem nameAt?_of_unit (units : q.units = p.units) (ha : p.activation? x = some a)
    (hb : q.activation? x = some b) (same : b.unit = a.unit) (k : Nat) :
    q.nameAt? x k = p.nameAt? x k := by
  rw [nameAt?_eq ha, nameAt?_eq hb, units, same]

theorem Traces.mono (h : p.Traces x k y l) (units : q.units = p.units)
    (stays : ∀ z a, p.activation? z = some a →
      ∃ b, q.activation? z = some b ∧ b.unit = a.unit ∧ b.outer = a.outer) :
    q.Traces x k y l := by
  induction h with
  | here => exact .here _ _
  | out ha outer name slot _ ih =>
    obtain ⟨b, hb, unit, outer'⟩ := stays _ _ ha
    refine .out hb (outer'.trans outer) ?_ slot ih
    rw [nameAt?_of_unit units ha hb unit, name]

/-! ### Seeing the cells of the outer activation -/

theorem alike_of_same (units : q.units = p.units) (same : q.activation? x = p.activation? x) :
    Alike p q x := by
  constructor <;> intro k
  · unfold nameAt?
    rw [units, same]
  · unfold cellAt?
    rw [same]

theorem alike_of_live (units : q.units = p.units) (ha : p.activation? x = some a)
    (hb : q.activation? x = some b) (unit : b.unit = a.unit) (cells : b.cells = a.cells) :
    Alike p q x :=
  ⟨nameAt?_of_unit units ha hb unit, fun k => by rw [cellAt?_eq ha, cellAt?_eq hb, cells]⟩

/-- An activation that changes, but for its cells, has slots like before, and so have others. -/
theorem Swaps.alike (w : Swaps p q id (some a) (some b)) (unit : b.unit = a.unit)
    (cells : b.cells = a.cells) (x : ActivationId) : Alike p q x := by
  by_cases here : x = id
  · subst here
    exact alike_of_live w.units w.before w.after unit cells
  · exact alike_of_same w.units (w.others x here)

/-- What is there when an activation has changed was there before. -/
theorem Swaps.outer_inv {d : Activation} (w : Swaps p q id (some a) (some b))
    (outer : b.outer = a.outer) (hd : q.activation? x = some d) :
    ∃ e, p.activation? x = some e ∧ e.outer = d.outer := by
  by_cases here : x = id
  · subst here
    cases hd.symm.trans w.after
    exact ⟨a, w.before, outer.symm⟩
  · exact ⟨d, (w.others x here).symm.trans hd, rfl⟩

theorem Swaps.live {d : Activation} (w : Swaps p q id (some a) (some b))
    (hd : p.activation? x = some d) : ∃ e, q.activation? x = some e := by
  by_cases here : x = id
  · subst here
    exact ⟨b, w.after⟩
  · exact ⟨d, (w.others x here).trans hd⟩

/-- The slots that matter were there before, and their cells are the same. -/
theorem Sees.mono (h : p.Sees y o)
    (captured : ∀ k m i, (q.nameAt? y k).bind (·.outerSlot?) = some m → q.cellAt? y k = some i →
      (p.nameAt? y k).bind (·.outerSlot?) = some m ∧ p.cellAt? y k = some i)
    (outer : ∀ m j, (q.nameAt? o m).bind (·.nested?) = none → q.cellAt? o m = some j →
      (p.nameAt? o m).bind (·.nested?) = none ∧ p.cellAt? o m = some j) : q.Sees y o := by
  intro k m i j slot plain hi hj
  obtain ⟨slot, hi⟩ := captured k m i slot hi
  obtain ⟨plain, hj⟩ := outer m j plain hj
  exact h k m i j slot plain hi hj

theorem Sees.of_alike (h : p.Sees y o) (alike : Alike p q y) (outer : Alike p q o) : q.Sees y o :=
  h.mono (fun k _ _ slot hi => ⟨alike.names k ▸ slot, alike.cells k ▸ hi⟩)
    fun m _ plain hj => ⟨outer.names m ▸ plain, outer.cells m ▸ hj⟩

/-! ### Later times -/

theorem Later.nameAt? (l : Later size id s t) (hx : s.own.activation? x = some a) (k : Nat) :
    t.own.nameAt? x k = s.own.nameAt? x k := by
  obtain ⟨b, hb, unit, -⟩ := l.stays x a hx
  exact nameAt?_of_unit l.units hx hb unit k

theorem Later.cellAt? (l : Later size id s t) (hx : s.own.activation? x = some a)
    (keeps : x = id → (s.own.nameAt? id k).bind (·.nested?) = none) :
    t.own.cellAt? x k = s.own.cellAt? x k := by
  obtain ⟨b, hb, -, -, -, cells⟩ := l.stays x a hx
  rw [cellAt?_eq hx, cellAt?_eq hb, cells k keeps]

theorem Later.refl (size : Nat) (id : ActivationId) (s : Beside Pads) : Later size id s s :=
  ⟨rfl, fun _ a ha => ⟨a, ha, rfl, rfl, rfl, fun _ _ => rfl⟩, fun _ _ _ holds => holds⟩

theorem Later.trans (l : Later size id s t) (l' : Later size id t u) : Later size id s u where
  units := l'.units.trans l.units
  stays z a ha := by
    obtain ⟨b, hb, unit, outer, len, cells⟩ := l.stays z a ha
    obtain ⟨d, hd, unit', outer', len', cells'⟩ := l'.stays z b hb
    refine ⟨d, hd, unit'.trans unit, outer'.trans outer, len'.trans len, fun k keeps => ?_⟩
    refine (cells' k fun e => ?_).trans (cells k keeps)
    subst e
    rw [l.nameAt? ha]
    exact keeps rfl
  holds i c le holds := l'.holds i c le (l.holds i c le holds)

theorem Extends.later (e : Extends s t outer) (size : Nat) (id : ActivationId) :
    Later size id s t where
  units := e.units
  stays z a ha := ⟨a, e.live z a ha, rfl, rfl, rfl, fun _ _ => rfl⟩
  holds i c _ := e.heap.old i c

/-! ### Clones stay clones -/

theorem ClosureAt.mono {s' t' : Beside Pads} {y : ActivationId} {v : Nat}
    (h : ClosureAt s t x k v y) (size : s'.heap.cells.size ≤ s.heap.cells.size)
    (same : t'.own.cellAt? x k = t.own.cellAt? x k)
    (holds : ∀ i c, s.heap.cells.size ≤ i → t.heap.Holds i c → t'.heap.Holds i c) :
    ClosureAt s' t' x k v y := by
  obtain ⟨i, name, hi, new, closure⟩ := h
  exact ⟨i, name, same.trans hi, Nat.le_trans size new, holds i _ new closure⟩

/-- A clone is one of an earlier state and at a later time, unless it is the one whose closures
are still to come. -/
theorem Clone.later {s' t' : Beside Pads} {child : Nat → ActivationId} {v : Nat}
    (h : Clone s t v outer y child) (size : s'.heap.cells.size ≤ s.heap.cells.size)
    (earlier : s'.own.activation? y = none) (l : Later s.heap.cells.size id t t')
    (apart : y ≠ id) : Clone s' t' v outer y child := by
  obtain ⟨a, x, ha, hx, unit, out, width⟩ := h.live
  obtain ⟨b, hb, unit', out', len, -⟩ := l.stays y a ha
  have name (k : Nat) : t'.own.nameAt? y k = t.own.nameAt? y k := l.nameAt? ha k
  have cell (k : Nat) : t'.own.cellAt? y k = t.own.cellAt? y k :=
    l.cellAt? ha fun e => absurd e apart
  refine ⟨earlier, ⟨b, x, hb, l.units ▸ hx, unit'.trans unit, out'.trans out, len.trans width⟩,
    fun o ho => ?_, fun k n m o i hn slot ho plain hi => ?_, fun k i plain none hi => ?_,
    fun k n w hn nested => ?_⟩
  · obtain ⟨d, hd⟩ := h.outerLive o ho
    obtain ⟨e, he, -⟩ := l.stays o d hd
    exact ⟨e, he⟩
  · obtain ⟨d, hd⟩ := h.outerLive o ho
    rw [name] at hn
    rw [l.nameAt? hd] at plain
    rw [l.cellAt? hd fun e => e ▸ plain] at hi
    rw [cell]
    exact h.captured k n m o i hn slot ho plain hi
  · rw [name] at plain ⊢
    rw [cell] at hi
    have fresh := h.fresh k i plain (fun n m o hn slot ho => ?_) hi
    · exact ⟨Nat.le_trans size fresh.1, l.holds i _ fresh.1 fresh.2⟩
    · -- a slot that has a cell has one later on
      have gone := none n m o (name k ▸ hn) slot ho
      obtain ⟨d, hd⟩ := h.outerLive o ho
      obtain ⟨e, he, -, -, len, -⟩ := l.stays o d hd
      rw [cellAt?_eq he, List.getElem?_eq_none_iff] at gone
      rw [cellAt?_eq hd, List.getElem?_eq_none_iff]
      omega
  · rw [name] at hn
    exact (h.closure k n w hn nested).mono size (cell k) l.holds

theorem Cloned.clone {v : Nat} (h : Cloned s t v outer y) :
    ∃ child, Clone s t v outer y child := by
  cases h with
  | intro child here _ => exact ⟨child, here⟩

theorem Cloned.later {s' t' : Beside Pads} {v : Nat} (h : Cloned s t v outer y)
    (size : s'.heap.cells.size ≤ s.heap.cells.size)
    (earlier : ∀ z, s.own.activation? z = none → s'.own.activation? z = none)
    (l : Later s.heap.cells.size id t t') (there : s.own.activation? id ≠ none) :
    Cloned s' t' v outer y := by
  induction h with
  | @intro v outer y child here _ ih =>
    have apart : y ≠ id := fun e => there (e ▸ here.new)
    obtain ⟨a, x, ha, -⟩ := here.live
    refine .intro child (here.later size (earlier y here.new) l apart) fun k n w hn nested => ?_
    rw [l.nameAt? ha] at hn
    exact ih k n w hn nested

/-! ### One activation after another -/

theorem Extends.alike (e : Extends s t outer) (ha : s.own.activation? x = some a) :
    Alike s.own t.own x := alike_of_same e.units ((e.live x a ha).trans ha.symm)

/-- A slot of a new activation that is not captured holds a new cell. -/
theorem Extends.newCell (e : Extends s t outer) (new : s.own.activation? id = none)
    (own : ∀ n, t.own.nameAt? id k = some n → n.outerSlot? = none)
    (hi : t.own.cellAt? id k = some i) : s.heap.cells.size ≤ i := by
  refine Nat.not_lt.mp fun old => ?_
  obtain ⟨o, l, -, hl, traces⟩ := e.within id k i new hi old
  obtain ⟨rfl, -⟩ := traces.eq_of_own own
  obtain ⟨a, ha, -⟩ := cellAt?_eq_some hl
  cases new.symm.trans ha

/-- An activation was made in one that was made before. -/
theorem Extends.trans (e : Extends s t outer) (new : s.own.activation? id = none)
    (e' : Extends t u (some id)) : Extends s u outer := by
  have mono {x y : ActivationId} {k l : Nat} (h : t.own.Traces x k y l) : u.own.Traces x k y l :=
    h.mono e'.units fun z a ha => ⟨a, e'.live z a ha, rfl, rfl⟩
  have same {z : ActivationId} {a : Activation} (ha : t.own.activation? z = some a) (m : Nat) :
      u.own.cellAt? z m = t.own.cellAt? z m := by
    rw [cellAt?_eq ha, cellAt?_eq (e'.live z a ha)]
  -- a slot of the last activations with a cell from before stands for one of `id`
  have through {z : ActivationId} {m : Nat} {i : CellId} (hz : t.own.activation? z = none)
      (hi : u.own.cellAt? z m = some i) (old : i < t.heap.cells.size) :
      ∃ k, t.own.cellAt? id k = some i ∧ u.own.Traces z m id k := by
    obtain ⟨o, k, ho, hk, traces⟩ := e'.within z m i hz hi old
    obtain rfl := Option.some.inj ho
    exact ⟨k, hk, traces⟩
  refine ⟨e'.units.trans e.units, fun z a ha => e'.live z a (e.live z a ha),
    e.heap.trans e'.heap, fun z m i hz hi old => ?_, fun i le => ?_, fun z a o hz ha ho => ?_⟩
  · cases hz' : t.own.activation? z with
    | some a =>
      rw [same hz'] at hi
      obtain ⟨o, k, ho, hk, traces⟩ := e.within z m i hz hi old
      exact ⟨o, k, ho, hk, mono traces⟩
    | none =>
      obtain ⟨k, hk, traces⟩ := through hz' hi (Nat.lt_of_lt_of_le old e.heap.size)
      obtain ⟨o, l, ho, hl, traces'⟩ := e.within id k i new hk old
      exact ⟨o, l, ho, hl, traces.trans (mono traces')⟩
  · by_cases old : i < t.heap.cells.size
    · obtain ⟨x, k, from'⟩ := e.born i le
      refine ⟨x, k, fun z m hi => ?_⟩
      cases hz : t.own.activation? z with
      | some a => exact mono (from' z m (same hz m ▸ hi))
      | none =>
        obtain ⟨l, hl, traces⟩ := through hz hi old
        exact traces.trans (mono (from' id l hl))
    · exact e'.born i (Nat.not_lt.mp old)
  · cases hz' : t.own.activation? z with
    | some b =>
      have hb := e'.live z b hz'
      cases ha.symm.trans hb
      obtain ⟨⟨d, hd⟩, sees⟩ := e.sees z a o hz hz' ho
      exact ⟨⟨d, e'.live o d hd⟩, sees.of_alike (e'.alike hz') (e'.alike hd)⟩
    | none => exact e'.sees z a o hz' ha ho

end

/-! ### A closure in its slot -/

/-- A slot with a prototype is not captured. -/
theorem outerSlot?_of_nested? {n : PadName} {v : Nat} (h : n.nested? = some v) :
    n.outerSlot? = none := by
  unfold PadName.nested? at h
  unfold PadName.outerSlot?
  split at h
  · rename_i origin
    rw [origin]
  · cases h

section
variable {h₀ : Heap} {out : List CellId} {s t : Beside Pads} {id y : ActivationId}
  {a : Activation} {x : CodeUnit} {slot v : Nat} {i p : CellId} {E : Beside Pads → Prop}

/-- The code cell that runs an activation of a unit. -/
def closureCell (name : Option Key) (u : Nat) (y : ActivationId) : Cell :=
  .ofRoutine { name, unit := some u, activation := some y }

/-- An activation is wrapped in a new code cell. -/
theorem ends_closureOf (b : Balanced h₀ out s) (hx : s.own.units[v]? = some x)
    (ha : s.own.activation? y = some a) :
    Ends (closureOf v y) s (fun i t => i = s.heap.cells.size ∧
      t.heap = (s.heap.allocate (closureCell x.name v y)).2 ∧
      Swaps s.own t.own y (some a) (some { a with owner := some i }) ∧
      Balanced h₀ (i :: out) t) E := by
  refine ((ends_unit v s).imp (fun _ _ q => q) fun _ e => ?_).bind ?_
  · rw [hx] at e
    cases e.2
  rintro x' _ ⟨e, hx'⟩
  rw [e]
  cases hx.symm.trans hx'
  have made : Heap.Kept h₀ (s.heap.cells.size :: (out ++ s.own.held))
      (s.heap.allocate (closureCell x.name v y)).2 :=
    Heap.Kept.allocate b.kept (Cell.valid_aggregate rfl rfl) rfl fun _ => Payload.noConfusion
  have b' : Balanced h₀ (s.heap.cells.size :: out)
      ⟨(s.heap.allocate (closureCell x.name v y)).2, s.own⟩ := ⟨b.formed, made⟩
  refine Ends.step (a := s.heap.cells.size)
    (t := ⟨(s.heap.allocate (closureCell x.name v y)).2, s.own⟩) rfl ?_
  refine (b'.change ha (f := fun a => { a with owner := some s.heap.cells.size }) rfl rfl).bind ?_
  rintro _ t ⟨heap, w, b⟩
  exact ⟨rfl, heap, w, b⟩

/-- A cell comes in the place of another. -/
theorem ends_replaceCell (b : Balanced h₀ (i :: out) s) (ha : s.own.activation? id = some a)
    (hp : a.cells[slot]? = some p) :
    Ends (replaceCell id slot i) s (fun _ t => t.heap = s.heap.release p ∧
      Swaps s.own t.own id (some a) (some { a with cells := a.cells.set slot i }) ∧
      Balanced h₀ out t) E := by
  refine (((ends_activation id s).imp (fun _ _ q => q) fun _ e => ?_).bind ?_)
  · rw [ha] at e
    cases e.2
  rintro a' t ⟨rfl, ha'⟩
  cases ha.symm.trans ha'
  refine (ends_changeActivation ha fun a => { a with cells := a.cells.set slot i }).bind ?_
  rintro _ u ⟨heap, w⟩
  have b' : Balanced h₀ ([p] ++ out) u := by
    refine Balanced.swap [i] [p] b heap w (fun a' e => ?_) fun j => ?_
    · obtain rfl := Option.some.inj e
      obtain ⟨x, hx, fits⟩ := b.formed.fits id a ha
      exact ⟨x, hx, by rwa [List.length_set]⟩
    · have counted := Heap.count_set (List.getElem?_eq_some_iff.mp hp).1 i j
      rw [hp, Option.toList_some] at counted
      simp only [cellsOf, Option.map_some, Option.getD_some]
      omega
  rw [hp]
  refine ⟨?_, w, b'.letGo⟩
  show u.heap.letGo [p] = _
  rw [heap]
  rfl

/-- A closure has come in the place of the cell `p`: the activation `y` of unit `v` has a new code
cell as its owner, and slot `slot` of the activation `id` holds it. -/
structure Plugs (s t : Beside Pads) (id : ActivationId) (slot v : Nat) (y : ActivationId)
    (p : CellId) : Prop where
  apart : y ≠ id
  units : t.own.units = s.own.units
  parent : ∃ a, s.own.activation? id = some a ∧ a.cells[slot]? = some p ∧
    t.own.activation? id = some { a with cells := a.cells.set slot s.heap.cells.size }
  child : ∃ a, s.own.activation? y = some a ∧
    t.own.activation? y = some { a with owner := some s.heap.cells.size }
  others : ∀ z, z ≠ id → z ≠ y → t.own.activation? z = s.own.activation? z
  heap : ∃ name, t.heap = (s.heap.allocate (closureCell name v y)).2.release p

/-- **Plugging a closure in.** -/
theorem ends_plug (b : Balanced h₀ out s) (hx : s.own.units[v]? = some x)
    (ha : s.own.activation? y = some a) (apart : y ≠ id) {e : Activation}
    (he : s.own.activation? id = some e) (hp : e.cells[slot]? = some p) :
    Ends (closureOf v y >>= replaceCell id slot) s
      (fun _ t => Balanced h₀ out t ∧ Plugs s t id slot v y p) E := by
  refine (ends_closureOf b hx ha).bind ?_
  rintro _ t ⟨rfl, heap, w, b⟩
  have he' : t.own.activation? id = some e := by rw [w.others id apart.symm, he]
  refine (ends_replaceCell b he' hp).imp ?_ fun _ e => e
  rintro _ u ⟨heap', w', b⟩
  refine ⟨b, apart, w'.units.trans w.units, ⟨e, he, hp, w'.after⟩, ⟨a, ha, ?_⟩,
    fun z hid hy => ?_, _, heap ▸ heap'⟩
  · rw [w'.others y apart, w.after]
  · rw [w'.others z hid, w.others z hy]

namespace Plugs
variable {s₀ : Beside Pads} {outer : Option ActivationId} {z : ActivationId} {k size : Nat}

/-- Activations stay, but for the closure in the slot. -/
theorem stays (w : Plugs s t id slot v y p) (ha : s.own.activation? z = some a) :
    ∃ b, t.own.activation? z = some b ∧ b.unit = a.unit ∧ b.outer = a.outer ∧
      b.cells.length = a.cells.length ∧
      ∀ k, (z = id → k ≠ slot) → b.cells[k]? = a.cells[k]? := by
  by_cases hid : z = id
  · subst hid
    obtain ⟨e, he, -, after⟩ := w.parent
    cases ha.symm.trans he
    refine ⟨_, after, rfl, rfl, List.length_set, fun k hk => ?_⟩
    exact List.getElem?_set_ne (hk rfl).symm
  · by_cases hy : z = y
    · subst hy
      obtain ⟨e, he, after⟩ := w.child
      cases ha.symm.trans he
      exact ⟨_, after, rfl, rfl, rfl, fun _ _ => rfl⟩
    · exact ⟨a, (w.others z hid hy).trans ha, rfl, rfl, rfl, fun _ _ => rfl⟩

/-- What is there was there before, and was made in the same activation. -/
theorem outer_inv (w : Plugs s t id slot v y p) (hb : t.own.activation? z = some a) :
    ∃ b, s.own.activation? z = some b ∧ a.outer = b.outer := by
  by_cases hid : z = id
  · subst hid
    obtain ⟨e, he, -, after⟩ := w.parent
    cases hb.symm.trans after
    exact ⟨e, he, rfl⟩
  · by_cases hy : z = y
    · subst hy
      obtain ⟨e, he, after⟩ := w.child
      cases hb.symm.trans after
      exact ⟨e, he, rfl⟩
    · exact ⟨a, (w.others z hid hy).symm.trans hb, rfl⟩

theorem cellAt?_before (w : Plugs s t id slot v y p) : s.own.cellAt? id slot = some p := by
  obtain ⟨e, he, hp, -⟩ := w.parent
  rw [cellAt?_eq he, hp]

theorem cellAt?_after (w : Plugs s t id slot v y p) :
    t.own.cellAt? id slot = some s.heap.cells.size := by
  obtain ⟨e, -, hp, after⟩ := w.parent
  rw [cellAt?_eq after]
  exact List.getElem?_set_self (List.getElem?_eq_some_iff.mp hp).1

/-- A slot holds what it held, but for the one with the closure. -/
theorem cellAt?_other (w : Plugs s t id slot v y p) (other : ¬ (z = id ∧ k = slot))
    (hi : t.own.cellAt? z k = some i) : s.own.cellAt? z k = some i := by
  by_cases hid : z = id
  · subst hid
    obtain ⟨e, he, -, after⟩ := w.parent
    rw [cellAt?_eq after] at hi
    rw [cellAt?_eq he, ← hi]
    exact (List.getElem?_set_ne fun e => other ⟨rfl, e.symm⟩).symm
  · by_cases hy : z = y
    · subst hy
      obtain ⟨e, he, after⟩ := w.child
      rw [cellAt?_eq after] at hi
      rwa [cellAt?_eq he]
    · unfold cellAt? at hi ⊢
      rwa [w.others z hid hy] at hi

/-- The slot with the closure holds no cell but the new one. -/
theorem not_here (w : Plugs s t id slot v y p) (hi : t.own.cellAt? z k = some i)
    (other : i ≠ s.heap.cells.size) : ¬ (z = id ∧ k = slot) := by
  rintro ⟨rfl, rfl⟩
  rw [w.cellAt?_after] at hi
  cases hi
  exact other rfl

theorem mono (w : Plugs s t id slot v y p) {x' y' : ActivationId} {l : Nat}
    (h : s.own.Traces x' k y' l) : t.own.Traces x' k y' l := by
  refine h.mono w.units fun z a ha => ?_
  obtain ⟨b, hb, unit, out, -⟩ := w.stays ha
  exact ⟨b, hb, unit, out⟩

/-- Other cells are left as they are when the one that was in the slot goes. -/
theorem holds (w : Plugs s t id slot v y p)
    (empty : ∀ c, s.heap.cell? p = some c → c.owned = []) {c : Cell} (other : i ≠ p)
    (holds : s.heap.Holds i c) : t.heap.Holds i c := by
  obtain ⟨name, heap⟩ := w.heap
  rw [heap]
  exact Heap.holds_release (fun d => Heap.empty_allocate empty rfl) other
    ((Heap.adds_allocate _ rfl).old i c holds)

/-- The slot holds the code cell, which is left as something holds it. -/
theorem closureAt (w : Plugs s t id slot v y p) (b : Balanced h₀ out t)
    (size : s₀.heap.cells.size ≤ s.heap.cells.size) : ClosureAt s₀ t id slot v y := by
  obtain ⟨name, heap⟩ := w.heap
  refine ⟨s.heap.cells.size, name, w.cellAt?_after, size, ?_⟩
  have lasts : (s.heap.allocate (closureCell name v y)).2.Lasts t.heap := by
    rw [heap]
    exact Heap.lasts_letGo _ [p]
  refine lasts.holds (Heap.holds_allocate _ _) (b.kept.alive (List.mem_append_right _ ?_))
  exact mem_held_of_cellAt? w.cellAt?_after

theorem later (w : Plugs s t id slot v y p)
    (empty : ∀ c, s.heap.cell? p = some c → c.owned = []) (old : p < size)
    (prototype : (s.own.nameAt? id slot).bind (·.nested?) = some v) : Later size id s t where
  units := w.units
  stays z a ha := by
    obtain ⟨b, hb, unit, out, len, cells⟩ := w.stays ha
    refine ⟨b, hb, unit, out, len, fun k plain => cells k fun hz hk => ?_⟩
    have plain := plain hz
    rw [hk, prototype] at plain
    cases plain
  holds i c le holds := w.holds empty (Nat.ne_of_gt (Nat.lt_of_lt_of_le old le)) holds

theorem size_le (w : Plugs s t id slot v y p) : s.heap.cells.size ≤ t.heap.cells.size := by
  obtain ⟨name, heap⟩ := w.heap
  rw [heap, Heap.release, Heap.size_letGo]
  exact (Heap.adds_allocate _ rfl).size

theorem nameAt? (w : Plugs s t id slot v y p) (z : ActivationId) (k : Nat) :
    t.own.nameAt? z k = s.own.nameAt? z k := by
  cases ha : s.own.activation? z with
  | some a =>
    obtain ⟨b, hb, unit, -⟩ := w.stays ha
    exact nameAt?_of_unit w.units ha hb unit k
  | none =>
    refine (alike_of_same w.units (w.others z ?_ ?_)).names k
    · rintro rfl
      obtain ⟨e, he, -⟩ := w.parent
      cases ha.symm.trans he
    · rintro rfl
      obtain ⟨e, he, -⟩ := w.child
      cases ha.symm.trans he

/-- What sees the cells of another goes on to, as the slot that changes is a closure's. -/
theorem sees (w : Plugs s t id slot v y p)
    (prototype : (s.own.nameAt? id slot).bind (·.nested?) = some v) {o : ActivationId}
    (h : s.own.Sees z o) : t.own.Sees z o := by
  obtain ⟨n, hn, nested⟩ := Option.bind_eq_some_iff.mp prototype
  refine h.mono (fun k m i captured hi => ?_) fun m j plain hj => ?_
  · rw [w.nameAt?] at captured
    refine ⟨captured, w.cellAt?_other ?_ hi⟩
    rintro ⟨rfl, rfl⟩
    rw [hn, Option.bind_some, outerSlot?_of_nested? nested] at captured
    cases captured
  · rw [w.nameAt?] at plain
    refine ⟨plain, w.cellAt?_other ?_ hj⟩
    rintro ⟨rfl, rfl⟩
    cases plain.symm.trans prototype

theorem grown (w : Plugs s t id slot v y p) (e : Extends s₀ s outer) (b : Balanced h₀ out s)
    (newId : s₀.own.activation? id = none) (newChild : s₀.own.activation? y = none)
    (prototype : (s.own.nameAt? id slot).bind (·.nested?) = some v) : Extends s₀ t outer := by
  have own (n : PadName) (hn : s.own.nameAt? id slot = some n) : n.outerSlot? = none := by
    rw [hn] at prototype
    exact outerSlot?_of_nested? prototype
  refine ⟨w.units.trans e.units, fun z a ha => ?_, ?_, fun z m i hz hi old => ?_, fun i le => ?_,
    fun z a o hz ha ho => ?_⟩
  · rw [w.others z (fun h => ?_) fun h => ?_]
    · exact e.live z a ha
    · rw [h, newId] at ha
      cases ha
    · rw [h, newChild] at ha
      cases ha
  · obtain ⟨name, heap⟩ := w.heap
    rw [heap]
    exact (e.heap.trans (Heap.adds_allocate _ rfl)).release (e.newCell newId own w.cellAt?_before)
  · have other := w.not_here hi (Nat.ne_of_lt (Nat.lt_of_lt_of_le old e.heap.size))
    obtain ⟨o, k, ho, hk, traces⟩ := e.within z m i hz (w.cellAt?_other other hi) old
    exact ⟨o, k, ho, hk, w.mono traces⟩
  · by_cases closure : i = s.heap.cells.size
    · -- nothing held it before
      refine ⟨id, slot, fun z m hi => ?_⟩
      by_cases here : z = id ∧ m = slot
      · obtain ⟨rfl, rfl⟩ := here
        exact .here _ _
      · have before := b.lt_size (mem_held_of_cellAt? (w.cellAt?_other here hi))
        exact absurd before (closure ▸ Nat.lt_irrefl _)
    · obtain ⟨x', k, from'⟩ := e.born i le
      refine ⟨x', k, fun z m hi => w.mono (from' z m (w.cellAt?_other ?_ hi))⟩
      exact w.not_here hi closure
  · obtain ⟨b, hb, same⟩ := w.outer_inv ha
    obtain ⟨⟨d, hd⟩, sees⟩ := e.sees z b o hz hb (same ▸ ho)
    obtain ⟨d', hd', -⟩ := w.stays hd
    exact ⟨⟨d', hd'⟩, w.sees prototype sees⟩

end Plugs

/-- An activation of unit `v` was made in an outer one, with all that comes with it. -/
structure Makes (h₀ : Heap) (out : List CellId) (s : Beside Pads) (v : Nat)
    (outer : Option ActivationId) (y : ActivationId) (t : Beside Pads) : Prop where
  balanced : Balanced h₀ out t
  grown : Extends s t outer
  cloned : Cloned s t v outer y

/-- **A closure is made** in an activation and put in one of its slots. -/
theorem ends_close (ha : s.own.activation? id = some a) (hp : a.cells[slot]? = some p)
    {make : OnPads ActivationId}
    (made : Ends make s (Makes h₀ out s v (some id)) fun _ => False) :
    Ends (make >>= fun y => closureOf v y >>= replaceCell id slot) s
      (fun _ u => Balanced h₀ out u ∧
        ∃ y t, Makes h₀ out s v (some id) y t ∧ Plugs t u id slot v y p) E := by
  refine made.sure.bind fun y t m => ?_
  obtain ⟨child, clone⟩ := m.cloned.clone
  obtain ⟨d, z, hd, hz, -⟩ := clone.live
  have apart : y ≠ id := by
    rintro rfl
    cases ha.symm.trans clone.new
  refine (ends_plug m.balanced hz hd apart (m.grown.live id a ha) hp).imp ?_ fun _ e => e
  exact fun _ u q => ⟨q.1, y, t, m, q.2⟩

end

end Pads

end ScriptCore
