import ScriptCore.Proofs.Pad.Cloning
import ScriptCore.Proofs.Pad.Pieces

/-!
# Pad — calls and their frames

What one call does to the pads, and what its end does.  The first call on an activation changes
nothing but its depth.  A call during a call gets a frame (`FrameOf`): its captured, `state` and
`our` slots hold the very cells of the base and its plain named ones new empty cells.  A frame goes
when its call ends.  When the last call on a base ends, its plain named slots get new empty cells
and the others keep theirs (`Renewed`).

* `ends_push`: a call starts on every live activation, and on no other.
* `ends_pop_frame`, `ends_pop_base`: every call can be ended.

The cells are followed in two halves: which slot gets which is a fact about the lists of cells
(`FrameGets`, `Renews`), and that a new cell is still empty in the end is because it is left
(`Heap.Lasts`).
-/

namespace ScriptCore

/-- A named slot of a call's own: neither shared by frames nor a closure prototype. -/
def PadName.isPlain (n : PadName) : Bool := !n.sharedByFrames && n.nested?.isNone

namespace PadName

theorem isPlain_iff {n : PadName} :
    n.isPlain = true ↔ n.sharedByFrames = false ∧ n.nested? = none := by
  simp [isPlain]

theorem isPlain_eq (n : PadName) : n.isPlain = !(n.sharedByFrames || n.nested?.isSome) := by
  cases shared : n.sharedByFrames <;> cases nested : n.nested? <;> simp [isPlain, shared, nested]

end PadName

/-- The frame of a call during a call on an activation. -/
def Activation.frame (a : Activation) (base : ActivationId) (cells : List CellId) : Activation :=
  { unit := a.unit, cells, outer := a.outer, depth := a.depth + 1, base := some base }

namespace Pads
open Beside

/-- A frame of a call during a call: the slots that frames share hold the cells of the base, and
the plain named ones new empty cells, which no activation that was there has.  Nothing but cells of
the base is shared. -/
structure FrameOf (s t : Beside Pads) (base id : ActivationId) : Prop where
  new : s.own.activation? id = none
  live : ∃ a b, s.own.activation? base = some a ∧ t.own.activation? id = some b ∧
    b.origin = ⟨a.unit, a.outer, some base⟩ ∧ b.depth = a.depth + 1 ∧ b.owner = none
  shared : ∀ k n i, s.own.nameAt? base k = some n → n.sharedByFrames = true →
    s.own.cellAt? base k = some i → t.own.cellAt? id k = some i
  plain : ∀ k n, s.own.nameAt? base k = some n → n.isPlain = true →
    ∃ i, t.own.cellAt? id k = some i ∧ s.heap.cells.size ≤ i ∧
      t.heap.Holds i (emptyCell (some n)) ∧
      ∀ z m, s.own.activation? z ≠ none → t.own.cellAt? z m ≠ some i
  borrows : ∀ k i, t.own.cellAt? id k = some i → i < s.heap.cells.size →
    ∃ l, s.own.cellAt? base l = some i

/-- The slot holds a new code cell that runs an activation of a unit, made in `id`, which sees the
cells of `id`. -/
def Equips (s t : Beside Pads) (id : ActivationId) (k v : Nat) : Prop :=
  ∃ y a, ClosureAt s t id k v y ∧ t.own.activation? y = some a ∧ a.unit = v ∧ a.outer = some id ∧
    t.own.Sees y id

/-- A call was started on an activation, to run on `id`.  A frame has new closures in the slots of
prototypes, but for those it shares. -/
structure Pushed (s t : Beside Pads) (base id : ActivationId) : Prop where
  units : t.own.units = s.own.units
  runs : ∃ a, s.own.activation? base = some a ∧
    t.own.activation? base = some { a with depth := a.depth + 1 } ∧
    (a.depth = 0 → id = base) ∧ (a.depth ≠ 0 → FrameOf s t base id)
  others : ∀ z a, z ≠ base → s.own.activation? z = some a → t.own.activation? z = some a
  equips : id ≠ base → ∀ k n v, t.own.nameAt? id k = some n → n.sharedByFrames = false →
    n.nested? = some v → Equips s t id k v
  births : Births s.own t.own

/-- The last call on an activation has ended: its plain named slots hold new empty cells, and the
others what they held. -/
structure Renewed (s t : Beside Pads) (id : ActivationId) : Prop where
  live : ∃ a b, s.own.activation? id = some a ∧ t.own.activation? id = some b ∧
    b.origin = a.origin ∧ b.depth = 0
  kept : ∀ k, (∀ n, s.own.nameAt? id k = some n → n.isPlain = false) →
    t.own.cellAt? id k = s.own.cellAt? id k
  plain : ∀ k n i, s.own.nameAt? id k = some n → n.isPlain = true →
    s.own.cellAt? id k = some i → ∃ j, t.own.cellAt? id k = some j ∧ j ≠ i ∧
      s.heap.cells.size ≤ j ∧ t.heap.Holds j (emptyCell (some n))

/-! ### The cells of a frame -/

/-- A slot of a frame gets the cell of the base, if frames share it, and else a new one. -/
def FrameGets (base : List CellId) (h h' : Heap) (n : Option PadName × Nat) (i : CellId) : Prop :=
  (i ∈ base ∨ h.cells.size ≤ i) ∧
    (∀ name j, n.1 = some name → name.sharedByFrames = true → base[n.2]? = some j → i = j) ∧
    ∀ name, n.1 = some name → name.sharedByFrames = false →
      h.cells.size ≤ i ∧ h'.Holds i (emptyCell n.1)

section
variable {h₀ h h' g g' : Heap} {out base cells : List CellId} {s t : Beside Pads}
  {id z : ActivationId} {x : CodeUnit} {a f : Activation} {slot v k : Nat} {i j : CellId}
  {E : Beside Pads → Prop} {n : Option PadName × Nat}

theorem FrameGets.mono (adds : h.Adds g) (gets : FrameGets base g g' n i) (adds' : g'.Adds h') :
    FrameGets base h h' n i := by
  refine ⟨gets.1.imp id (Nat.le_trans adds.size), gets.2.1, fun name hn own => ?_⟩
  obtain ⟨new, holds⟩ := gets.2.2 name hn own
  exact ⟨Nat.le_trans adds.size new, adds'.old _ _ holds⟩

theorem ends_frameCell (base : List CellId) (n : Option PadName × Nat) (h : Heap)
    {E : Heap → Prop} :
    Ends (frameCell base n.1 n.2) h (fun i h' => h.Adds h' ∧ FrameGets base h h' n i) E := by
  obtain ⟨n, slot⟩ := n
  have made (n : Option PadName) : Ends (newCell n) h (fun i h' => h.Adds h' ∧
      h.cells.size ≤ i ∧ h'.Holds i (emptyCell n)) E :=
    ⟨Heap.adds_allocate h (emptyCell_owned n), Nat.le_refl _, Heap.holds_allocate h _⟩
  unfold frameCell
  cases n with
  | none =>
    refine (made none).imp (fun i h' q => ⟨q.1, .inr q.2.1, fun name j e => ?_, fun name e => ?_⟩)
      fun _ e => e
    · cases e
    · cases e
  | some name =>
    dsimp only
    split
    · rename_i shared
      have own (name' : PadName) (e : some name = some name') :
          name'.sharedByFrames ≠ false := by
        cases e
        rw [shared]
        exact Bool.noConfusion
      cases there : base[slot]? with
      | none =>
        refine (made none).imp (fun i h' q => ⟨q.1, .inr q.2.1, fun name' j e _ hj => ?_,
          fun name' e no => ?_⟩) fun _ e => e
        · cases hj.symm.trans there
        · exact absurd no (own name' e)
      | some i =>
        refine ⟨Heap.adds_retainAll h [i], .inl (List.mem_of_getElem? there),
          fun name' j e _ hj => ?_, fun name' e no => ?_⟩
        · exact Option.some.inj (there.symm.trans hj)
        · exact absurd no (own name' e)
    · rename_i plain
      refine (made (some name)).imp (fun i h' q => ⟨q.1, .inr q.2.1, fun name' j e yes => ?_,
        fun _ _ _ => q.2⟩) fun _ e => e
      cases e
      exact absurd yes plain

/-! ### A frame and its closures -/

/-- The prototypes that a frame makes anew are those of the unit that frames do not share. -/
theorem mem_framePrototypes : (slot, v) ∈ framePrototypes x.slots ↔
    ∃ n, x.nameAt? slot = some n ∧ n.sharedByFrames = false ∧ n.nested? = some v := by
  let own : CodeUnit :=
    { x with slots := x.slots.map fun n => n.filter fun name => !name.sharedByFrames }
  have name : own.nameAt? slot = (x.nameAt? slot).filter fun name => !name.sharedByFrames := by
    unfold CodeUnit.nameAt?
    rw [List.getElem?_map]
    cases x.slots[slot]? <;> rfl
  have listed : (slot, v) ∈ framePrototypes x.slots ↔
      (own.nameAt? slot).bind (·.nested?) = some v := mem_prototypes (x := own)
  rw [listed, name, Option.bind_eq_some_iff]
  refine exists_congr fun n => ?_
  rw [Option.filter_eq_some_iff, Bool.not_eq_true', and_assoc]

theorem fills_lasts (h : Heap) : Fills fun s => h.Lasts s.heap where
  change _ _ _ := fun _ hs => hs
  heap _ _ lasts hs := hs.trans lasts
  insert a := Keeps.self.bind fun p => by split <;> exact fun _ hs => hs

/-- A frame `f` of the unit `x` was put beside what was there; since then some of its prototypes
have got their closures. -/
structure Framed (h₀ : Heap) (out : List CellId) (s : Beside Pads) (x : CodeUnit) (f : Activation)
    (id : ActivationId) (done : List (Nat × Nat)) (t : Beside Pads) : Prop where
  balanced : Balanced h₀ out t
  units : t.own.units = s.own.units
  new : s.own.activation? id = none
  others : ∀ z a, s.own.activation? z = some a → t.own.activation? z = some a
  size : s.heap.cells.size ≤ t.heap.cells.size
  live : ∃ cells, t.own.activation? id = some { f with cells } ∧
    cells.length = f.cells.length ∧
    (∀ i ∈ cells, i ∈ f.cells ∨ s.heap.cells.size ≤ i) ∧
    ∀ k, (∀ v, (k, v) ∉ framePrototypes x.slots) → cells[k]? = f.cells[k]?
  equips : ∀ k v, (k, v) ∈ done → Equips s t id k v
  sees : ∀ z a o, z ≠ id → s.own.activation? z = none → t.own.activation? z = some a →
    a.outer = some o → (∃ d, t.own.activation? o = some d) ∧ t.own.Sees z o

/-- What sees the cells of another sees them when one more closure is made. -/
theorem Sees.closed {t₁ t₂ : Beside Pads} {y o : ActivationId} {outer : Option ActivationId}
    {p : CellId} {b : Activation} (h : t.own.Sees z o) (e : Extends t t₁ outer)
    (w : Plugs t₁ t₂ id slot v y p)
    (prototype : (t₁.own.nameAt? id slot).bind (·.nested?) = some v)
    (hz : t.own.activation? z = some a) (ho : t.own.activation? o = some b) :
    t₂.own.Sees z o :=
  w.sees prototype (h.of_alike (e.alike hz) (e.alike ho))

/-- What sees the cells of what it was made in sees them when one more closure is made, and so does
what came with that. -/
theorem Makes.sees_closed {t₁ t₂ : Beside Pads} {y o : ActivationId} {p : CellId} {d : Activation}
    (m : Makes h₀ out t v (some id) y t₁) (w : Plugs t₁ t₂ id slot v y p)
    (prototype : (t₁.own.nameAt? id slot).bind (·.nested?) = some v)
    (before : ∀ b, t.own.activation? z = some b → b.outer = some o →
      (∃ c, t.own.activation? o = some c) ∧ t.own.Sees z o)
    (hd : t₂.own.activation? z = some d) (outer : d.outer = some o) :
    (∃ c, t₂.own.activation? o = some c) ∧ t₂.own.Sees z o := by
  obtain ⟨b, hb, same⟩ := w.outer_inv hd
  cases ht : t.own.activation? z with
  | some b' =>
    cases hb.symm.trans (m.grown.live z b' ht)
    obtain ⟨⟨c, hc⟩, sees⟩ := before b ht (same ▸ outer)
    obtain ⟨c', hc', -⟩ := w.stays (m.grown.live o c hc)
    exact ⟨⟨c', hc'⟩, sees.closed m.grown w prototype ht hc⟩
  | none =>
    obtain ⟨⟨c, hc⟩, sees⟩ := m.grown.sees z b o ht hb (same ▸ outer)
    obtain ⟨c', hc', -⟩ := w.stays hc
    exact ⟨⟨c', hc'⟩, w.sees prototype sees⟩

/-- A closure stays in its slot when another one comes. -/
theorem Equips.closed {t₁ t₂ : Beside Pads} {y : ActivationId} {p : CellId} {w : Nat}
    (h : Equips s t id k w) (m : Makes h₀ out t v (some id) y t₁)
    (plugs : Plugs t₁ t₂ id slot v y p)
    (prototype : (t₁.own.nameAt? id slot).bind (·.nested?) = some v) (b : Balanced h₀ out t₂)
    (lasts : t.heap.Lasts t₂.heap) (ha : t.own.activation? id = some a) (other : k ≠ slot) :
    Equips s t₂ id k w := by
  obtain ⟨y', c, ⟨i, name, hi, new, holds⟩, hc, unit, outer, sees⟩ := h
  have hc' := m.grown.live y' c hc
  obtain ⟨d, hd, unit', outer', -⟩ := plugs.stays hc'
  have hi' : t₂.own.cellAt? id k = some i := by
    obtain ⟨e, he, -, -, -, cells⟩ := plugs.stays (m.grown.live id a ha)
    rw [cellAt?_eq he, cells k fun _ => other, ← cellAt?_eq ha, hi]
  refine ⟨y', d, ⟨i, name, hi', new, lasts.holds holds ?_⟩, hd, unit'.trans unit,
    outer'.trans outer, sees.closed m.grown plugs prototype hc ha⟩
  exact b.kept.alive (List.mem_append_right _ (mem_held_of_cellAt? hi'))

/-- **A frame gets a closure.** -/
theorem Framed.step {done : List (Nat × Nat)} (w : Framed h₀ out s x f id done t)
    (hx : s.own.units[f.unit]? = some x) (width : f.cells.length = x.slots.length)
    (mem : (slot, v) ∈ framePrototypes x.slots) (undone : ∀ w, (slot, w) ∉ done) :
    Ends ((activate v (some id) >>= closureOf v) >>= replaceCell id slot) t
      (fun _ => Framed h₀ out s x f id (done ++ [(slot, v)])) E := by
  obtain ⟨cells, ha, len, each, same⟩ := w.live
  obtain ⟨n, hn, -, nested⟩ := mem_framePrototypes.mp mem
  have nested : (x.nameAt? slot).bind (·.nested?) = some v := by rw [hn]; exact nested
  have admits := w.balanced.formed.admits ha (w.units ▸ hx) (mem_nestedUnits nested)
  have made : Ends (activate v (some id)) t (Makes h₀ out t v (some id)) fun _ => False :=
    (ends_activate w.balanced v (some id)).imp (fun _ _ q => q.2.toMakes) fun _ e => e.1 admits
  have lt := (List.getElem?_eq_some_iff.mp (Option.join_eq_some_iff.mp hn)).1
  rw [← width, ← len] at lt
  have lasting : Ends ((activate v (some id) >>= closureOf v) >>= replaceCell id slot) t
      (fun _ t' => t.heap.Lasts t'.heap) fun _ => True := by
    have lasts := fills_lasts t.heap
    exact ((lasts.makeClosure v (some id)).bind fun i =>
      Keeps.results (lasts.toBears.replaceCell id slot i)).ends (.refl t.heap)
  have closes := ends_close (E := fun _ => False) ha (List.getElem?_eq_getElem lt) made
  rw [← bind_assoc] at closes
  refine (closes.and lasting).imp ?_ fun _ e => e.1.elim
  rintro _ t₂ ⟨⟨b, y, t₁, m, p⟩, lasts⟩
  obtain ⟨a', ha', -, after⟩ := p.parent
  cases (m.grown.live id _ ha).symm.trans ha'
  obtain ⟨child, clone⟩ := m.cloned.clone
  obtain ⟨c, _, hc, -, unit, outer, -⟩ := clone.live
  have grows := Nat.le_trans w.size m.grown.heap.size
  have prototype : (t₁.own.nameAt? id slot).bind (·.nested?) = some v := by
    rwa [nameAt?_eq ha', m.grown.units, w.units, hx]
  refine ⟨b, p.units.trans (m.grown.units.trans w.units), w.new, fun z c hz => ?_,
    Nat.le_trans grows p.size_le, ⟨_, after, List.length_set.trans len, fun i hi => ?_,
    fun k hk => ?_⟩, fun k v' hk => ?_, fun z d o hz hs hd ho => ?_⟩
  · -- what was there is neither the frame nor the activation of its closure
    have hz' := w.others z c hz
    rw [p.others z, m.grown.live z c hz']
    · rintro rfl
      cases w.new.symm.trans hz
    · rintro rfl
      cases clone.new.symm.trans hz'
  · rcases List.mem_or_eq_of_mem_set hi with hi | rfl
    · exact each i hi
    · exact .inr grows
  · rw [List.getElem?_set_ne, same k hk]
    rintro rfl
    exact hk v mem
  · rcases List.mem_append.mp hk with before | now
    · refine (w.equips k v' before).closed m p prototype b lasts ha ?_
      rintro rfl
      exact undone v' before
    · cases List.mem_singleton.mp now
      obtain ⟨d, hd, unit', outer', -⟩ := p.stays hc
      refine ⟨y, d, p.closureAt b grows, hd, unit'.trans unit, outer'.trans outer, ?_⟩
      exact p.sees prototype (m.grown.sees y c id clone.new hc outer).2
  · exact m.sees_closed p prototype (fun e ht => w.sees z e o hz hs ht) hd ho

/-- The cells of a frame are handed over, each as it should be. -/
theorem ends_frameCells (b : Balanced h₀ out s) (ha : s.own.activation? id = some a)
    (slots : List (Option PadName)) :
    Ends (slots.zipIdx.mapM fun n => (liftM (frameCell a.cells n.1 n.2) : OnPads CellId)) s
      (fun cells t => t.own = s.own ∧ Balanced h₀ (cells ++ out) t ∧
        cells.length = slots.length ∧ s.heap.cells.size ≤ t.heap.cells.size ∧
        List.Forall₂ (FrameGets a.cells s.heap t.heap) slots.zipIdx cells) E := by
  have kept : Ends (slots.zipIdx.mapM fun n => frameCell a.cells n.1 n.2) s.heap _
      fun _ => False :=
    (leads_cells fun n _ more => leads_frameCell (fun i hi =>
      List.mem_append_right _ (List.mem_append_right _ (mem_held ha hi))) n.1 n.2).ends b.kept
  have got : Ends (slots.zipIdx.mapM fun n => frameCell a.cells n.1 n.2) s.heap _
      fun _ => False :=
    Heap.ends_mapM_adds (R := FrameGets a.cells) (fun n h => ends_frameCell a.cells n h)
      FrameGets.mono slots.zipIdx s.heap
  have dealt := (kept.and got).imp (fun _ _ q => q) fun _ e => e.1
  refine (Ends.of_eq (congrFun (mapM_liftM _ _) s) dealt.liftSure).imp ?_ fun _ e => e
  rintro cells t ⟨own, ⟨width, kept⟩, adds, gets⟩
  rw [List.length_zipIdx] at width
  refine ⟨own, ⟨own ▸ b.formed, ?_⟩, width, adds.size, gets⟩
  rw [own, List.append_assoc]
  exact kept

/-- A frame is put beside what is there, with no closures yet. -/
theorem ends_insert_frame {s₁ : Beside Pads} (b : Balanced h₀ (f.cells ++ out) s₁)
    (own : s₁.own = s.own) (size : s.heap.cells.size ≤ s₁.heap.cells.size)
    (hx : s.own.units[f.unit]? = some x) (width : f.cells.length = x.slots.length) :
    Ends (insert f) s₁ (fun id => Framed h₀ out s x f id []) E := by
  refine (ends_insert b.formed.vacant f).imp ?_ fun _ e => e
  rintro id t ⟨heap, comes⟩
  have fits (c : Activation) (e : some f = some c) : s₁.own.Fits c := by
    cases e
    exact ⟨x, own ▸ hx, Nat.le_of_eq width⟩
  have balanced := b.swap f.cells [] heap comes fits fun i => Nat.add_comm _ _
  rw [own] at comes
  refine ⟨balanced, comes.units, comes.before, fun z c hc => ?_, heap ▸ size,
    ⟨f.cells, comes.after, rfl, fun _ hi => .inl hi, fun _ _ => rfl⟩, nofun,
    fun z c o hz hs hc => ?_⟩
  · rw [comes.others z, hc]
    rintro rfl
    cases comes.before.symm.trans hc
  · cases hs.symm.trans ((comes.others z hz).symm.trans hc)

/-- **A frame comes** with closures of its own. -/
theorem ends_insertFrame {s₁ : Beside Pads} (b : Balanced h₀ (f.cells ++ out) s₁)
    (own : s₁.own = s.own) (size : s.heap.cells.size ≤ s₁.heap.cells.size)
    (hx : s.own.units[f.unit]? = some x) (width : f.cells.length = x.slots.length) :
    Ends (insertFilled f (framePrototypes x.slots) fun nested id => do
        closureOf nested (← activate nested (some id))) s₁
      (fun id t => Framed h₀ out s x f id (framePrototypes x.slots) t ∧ s₁.heap.Lasts t.heap)
      fun _ => False := by
  have filled : Ends (insertFilled f (framePrototypes x.slots) fun nested id => do
        closureOf nested (← activate nested (some id))) s₁
      (fun id => Framed h₀ out s x f id (framePrototypes x.slots)) fun _ => False := by
    refine ends_insertFilled (ends_insert_frame b own size hx width) fun id t begun =>
      Leads.ends (Leads.forM_done fun done e rest whole => ?_) begun
    refine Leads.of_ends fun t w => w.step hx width ?_ (not_mem_done whole)
    rw [whole]
    exact List.mem_append_right _ List.mem_cons_self
  have lasting := ((fills_lasts s₁.heap).insertFrame f (framePrototypes x.slots)).ends
    (.refl s₁.heap)
  exact (filled.and lasting).imp (fun _ _ q => q) fun _ e => e.1

end

section
variable {h₀ : Heap} {out : List CellId} {s t : Beside Pads} {id : ActivationId} {a : Activation}
  {E : Beside Pads → Prop}

/-! ### A call begins -/

/-- A named slot of a frame has the cell it got, unless it is for a closure of the frame. -/
theorem Framed.gets {x : CodeUnit} {f : Activation} {base : List CellId} {h h' : Heap} {k : Nat}
    {n : PadName} {done : List (Nat × Nat)} (w : Framed h₀ out s x f id done t)
    (width : f.cells.length = x.slots.length)
    (gets : List.Forall₂ (FrameGets base h h') x.slots.zipIdx f.cells)
    (hn : x.nameAt? k = some n) (kept : n.sharedByFrames = true ∨ n.nested? = none) :
    ∃ i, t.own.cellAt? id k = some i ∧ FrameGets base h h' (some n, k) i := by
  obtain ⟨cs, live, -, -, same⟩ := w.live
  have slot := Option.join_eq_some_iff.mp hn
  have lt := (List.getElem?_eq_some_iff.mp slot).1
  have hi := List.getElem?_eq_getElem (width ▸ lt)
  obtain ⟨⟨o, l⟩, there, gets⟩ := forall₂_getElem? gets hi
  rw [List.getElem?_zipIdx, slot] at there
  obtain ⟨rfl, rfl⟩ := Prod.mk.inj (Option.some.inj there)
  refine ⟨_, ?_, by simpa using gets⟩
  rw [cellAt?_eq live, same k fun v hv => ?_]
  · exact hi
  obtain ⟨m, hm, own, nested⟩ := mem_framePrototypes.mp hv
  cases hn.symm.trans hm
  rcases kept with shared | none
  · cases shared.symm.trans own
  · cases none.symm.trans nested

/-- **A frame.** -/
theorem Framed.frameOf {x : CodeUnit} {base : ActivationId} {cells : List CellId}
    {s₁ s₂ : Beside Pads} (ha : s.own.activation? base = some a)
    (hx : s.own.units[a.unit]? = some x)
    (now : s₁.own.activation? base = some { a with depth := a.depth + 1 })
    (others : ∀ z, z ≠ base → s₁.own.activation? z = s.own.activation? z)
    (heap : s₁.heap = s.heap) (held : ∀ i ∈ s.own.held, i < s.heap.cells.size)
    (width : cells.length = x.slots.length)
    (gets : List.Forall₂ (FrameGets a.cells s.heap s₂.heap) x.slots.zipIdx cells)
    {done : List (Nat × Nat)} (w : Framed h₀ out s₁ x (a.frame base cells) id done t)
    (lasts : s₂.heap.Lasts t.heap) : FrameOf s t base id := by
  obtain ⟨cs, live, -, each, -⟩ := w.live
  have name (k : Nat) : s.own.nameAt? base k = x.nameAt? k := by
    rw [nameAt?_eq ha, hx, Option.bind_some]
  have new : s.own.activation? id = none := by
    by_cases here : id = base
    · subst here
      cases w.new.symm.trans now
    · rw [← others id here]
      exact w.new
  refine ⟨new, ⟨a, _, ha, live, rfl, rfl, rfl⟩, fun k n i hn shared hi => ?_,
    fun k n hn plain => ?_, fun k i hi old => ?_⟩
  · rw [name] at hn
    rw [cellAt?_eq ha] at hi
    obtain ⟨j, hj, -, gets, -⟩ := w.gets width gets hn (.inl shared)
    rw [hj, gets n i rfl shared hi]
  · rw [name] at hn
    obtain ⟨own, none⟩ := PadName.isPlain_iff.mp plain
    obtain ⟨i, hi, -, -, gets⟩ := w.gets width gets hn (.inr none)
    obtain ⟨le, holds⟩ := gets n rfl own
    refine ⟨i, hi, le, lasts.holds holds ?_, fun z m hz hm => ?_⟩
    · exact w.balanced.kept.alive (List.mem_append_right _ (mem_held_of_cellAt? hi))
    · -- what was there has old cells
      obtain ⟨c, hc⟩ := Option.ne_none_iff_exists'.mp hz
      refine absurd (held i ?_) (Nat.not_lt.mpr le)
      by_cases here : z = base
      · subst here
        cases ha.symm.trans hc
        rw [cellAt?_eq (w.others z _ now)] at hm
        exact mem_held ha (List.mem_of_getElem? hm)
      · rw [cellAt?_eq (w.others z c ((others z here).trans hc))] at hm
        exact mem_held hc (List.mem_of_getElem? hm)
  · -- a cell that is not new is one that the slot got, and so of the base
    rw [cellAt?_eq live] at hi
    have mine := (each i (List.mem_of_getElem? hi)).resolve_right fun le =>
      absurd old (Nat.not_lt.mpr (heap ▸ le))
    obtain ⟨k', hk'⟩ := List.mem_iff_getElem?.mp mine
    obtain ⟨_, -, source, -⟩ := forall₂_getElem? gets hk'
    obtain ⟨l, hl⟩ := List.mem_iff_getElem?.mp (source.resolve_right (Nat.not_le.mpr old))
    exact ⟨l, (cellAt?_eq ha l).trans hl⟩

/-- **A call begins** on every live activation: on itself when none runs, and else on a frame. -/
theorem ends_push (b : Balanced h₀ out s) (base : ActivationId) :
    Ends (push base) s (fun id t => Balanced h₀ out t ∧ Pushed s t base id)
      fun t => t = s ∧ s.own.activation? base = none := by
  refine ((ends_activation base s).imp (fun _ _ q => q) fun t e => e).bind ?_
  rintro a s ⟨rfl, ha⟩
  dsimp only
  refine (b.change ha rfl rfl).bind fun _ s₁ ⟨heap, w, b₁⟩ => ?_
  have others (z : ActivationId) (c : Activation) (hz : z ≠ base)
      (hc : s.own.activation? z = some c) : s₁.own.activation? z = some c :=
    (w.others z hz).trans hc
  have vacant {z : ActivationId} (hs : s.own.activation? z = none) :
      s₁.own.activation? z = none := by
    refine (w.others z ?_).trans hs
    rintro rfl
    cases ha.symm.trans hs
  split
  · rename_i first
    refine ⟨b₁, w.units, ⟨a, ha, w.after, fun _ => rfl, fun busy => ?_⟩, others,
      fun other => absurd rfl other, fun z c o hs hc _ => ?_⟩
    · exact absurd (Nat.succ.inj first) busy
    · cases hc.symm.trans (vacant hs)
  rename_i more
  refine ((ends_unit a.unit s₁).imp (fun _ _ q => q) ?_).bind ?_
  · rintro t ⟨rfl, none⟩
    obtain ⟨x, hx, -⟩ := b₁.formed.fits base _ w.after
    cases hx.symm.trans none
  rintro x s₁ ⟨rfl, hx⟩
  refine (ends_frameCells b₁ w.after x.slots).bind ?_
  rintro cells s₂ ⟨own, b₂, width, size, gets⟩
  have made := ends_insertFrame (f := a.frame base cells) b₂ own size hx width
  refine made.attempt.bind fun r t done => ?_
  cases r with
  | error e => exact done.elim
  | ok id =>
    obtain ⟨framed, lasts⟩ := done
    rw [heap] at gets
    refine ⟨framed.balanced, framed.units.trans w.units,
      ⟨a, ha, framed.others base _ w.after, fun idle => absurd (congrArg Nat.succ idle) more,
        fun _ => ?_⟩, fun z c hz hc => framed.others z c (others z c hz hc),
      fun _ k n v hn own nested => ?_, fun z c o hs hc own => ?_⟩
    · have old (i : CellId) : i ∈ s.own.held → i < s.heap.cells.size := b.lt_size
      exact framed.frameOf ha (w.units ▸ hx) w.after w.others heap old width gets lasts
    · obtain ⟨cs, live, -⟩ := framed.live
      rw [nameAt?_eq live, framed.units, show (a.frame base cells).unit = a.unit from rfl, hx,
        Option.bind_some] at hn
      obtain ⟨y, d, ⟨i, name, hi, new, holds⟩, equips⟩ :=
        framed.equips k v (mem_framePrototypes.mpr ⟨n, hn, own, nested⟩)
      exact ⟨y, d, ⟨i, name, hi, heap ▸ new, holds⟩, equips⟩
    · -- the frame itself has a base
      refine framed.sees z c o ?_ (vacant hs) hc
      rintro rfl
      obtain ⟨cs, live, -⟩ := framed.live
      cases hc.symm.trans live
      cases own

/-! ### A call ends -/

/-- **A frame goes** when its call ends, and its base runs one call fewer. -/
theorem ends_pop_frame (b : Balanced h₀ out s) (ha : s.own.activation? id = some a)
    {base : ActivationId} (frame : a.base = some base) :
    Ends (pop id) s (fun _ t => Balanced h₀ out t ∧ t.own.units = s.own.units ∧
      t.own.activation? id = none ∧ ∀ z c, z ≠ id → s.own.activation? z = some c →
        t.own.activation? z = some (if z = base then { c with depth := c.depth - 1 } else c))
      E := by
  have goes : Ends (pop id) s (fun _ t => t.own.units = s.own.units ∧
      t.own.activation? id = none ∧ ∀ z c, z ≠ id → s.own.activation? z = some c →
        t.own.activation? z = some (if z = base then { c with depth := c.depth - 1 } else c))
      fun _ => False := by
    refine ((ends_activation id s).imp (fun _ _ q => q) fun _ e => ?_).bind ?_
    · cases ha.symm.trans e.2
    rintro a' t ⟨rfl, ha'⟩
    cases ha.symm.trans ha'
    simp only [frame]
    refine ((ends_remove id t).imp (fun _ _ q => q) fun _ e => ?_).bind ?_
    · cases ha.symm.trans e.2
    rintro cells u ⟨-, _, -, w⟩
    cases hb : u.own.activation? base with
    | none =>
      -- the base has gone
      refine (changeActivation_stale hb _).bind fun _ v same => ?_
      rw [same]
      refine ⟨w.units, w.after, fun z c hz hc => ?_⟩
      have still := (w.others z hz).trans hc
      rw [if_neg]
      · exact still
      · rintro rfl
        cases hb.symm.trans still
    | some d =>
      refine (ends_changeActivation hb _).bind ?_
      rintro _ v ⟨-, w'⟩
      have apart : id ≠ base := by
        rintro rfl
        cases hb.symm.trans w.after
      refine ⟨w'.units.trans w.units, (w'.others id apart).trans w.after, fun z c hz hc => ?_⟩
      have still := (w.others z hz).trans hc
      by_cases here : z = base
      · subst here
        cases hb.symm.trans still
        rw [if_pos rfl]
        exact w'.after
      · rw [if_neg here]
        exact (w'.others z here).trans still
  exact (((keeps_pop id).ends b).and goes).imp (fun _ _ q => q) fun _ e => e.2.elim

/-- The end of the last call: a plain slot gets a new cell, and any other keeps its own. -/
def Renews (h h' : Heap) (x : CellId × Option PadName) (j : CellId) : Prop :=
  ((∀ n, x.2 = some n → n.isPlain = false) → j = x.1) ∧
    ∀ n, x.2 = some n → n.isPlain = true → h.cells.size ≤ j ∧ h'.Holds j (emptyCell x.2)

theorem Renews.mono {h h' g g' : Heap} {x : CellId × Option PadName} {j : CellId}
    (adds : h.Adds g) (renews : Renews g g' x j) (adds' : g'.Adds h') : Renews h h' x j := by
  refine ⟨renews.1, fun n hn plain => ?_⟩
  obtain ⟨new, holds⟩ := renews.2 n hn plain
  exact ⟨Nat.le_trans adds.size new, adds'.old _ _ holds⟩

theorem ends_renewedCell (x : CellId × Option PadName) (h : Heap) {E : Heap → Prop} :
    Ends (renewedCell x.2 x.1) h (fun j h' => h.Adds h' ∧ Renews h h' x j) E := by
  obtain ⟨i, n⟩ := x
  unfold renewedCell
  cases n with
  | none =>
    refine ⟨.refl h, fun _ => rfl, fun n e => ?_⟩
    cases e
  | some name =>
    dsimp only
    split
    · rename_i kept
      have shown : name.isPlain = false := by rw [PadName.isPlain_eq, kept]; rfl
      refine ⟨.refl h, fun _ => rfl, fun n e plain => ?_⟩
      cases e
      cases shown.symm.trans plain
    · rename_i renewed
      have shown : name.isPlain = true := by
        rw [PadName.isPlain_eq, Bool.eq_false_of_not_eq_true renewed]
        rfl
      refine ⟨Heap.adds_allocate h (emptyCell_owned _), fun kept => ?_, fun _ _ _ => ?_⟩
      · cases (kept name rfl).symm.trans shown
      · exact ⟨Nat.le_refl _, Heap.holds_allocate h _⟩

/-- **The last call ends.** -/
theorem Balanced.renewed {cells : List CellId} {x : CodeUnit} {h₁ : Heap}
    (b : Balanced h₀ out s) (b' : Balanced h₀ out t) (ha : s.own.activation? id = some a)
    (hx : s.own.units[a.unit]? = some x)
    (after : t.own.activation? id = some { a with depth := a.depth - 1, cells })
    (last : a.depth ≤ 1) (renews : List.Forall₂ (Renews s.heap h₁) (a.cells.zip x.slots) cells)
    (lasts : h₁.Lasts t.heap) :
    Renewed s t id ∧ ∀ k, s.own.cellAt? id k = none → t.own.cellAt? id k = none := by
  obtain ⟨x', hx', fits⟩ := b.formed.fits id a ha
  cases hx.symm.trans hx'
  have len : cells.length = a.cells.length := by
    rw [← renews.length_eq, List.length_zip]
    exact Nat.min_eq_left fits
  have name (k : Nat) : s.own.nameAt? id k = x.nameAt? k := by
    rw [nameAt?_eq ha, hx, Option.bind_some]
  have got {k : Nat} {i : CellId} (hi : a.cells[k]? = some i) :
      ∃ j, cells[k]? = some j ∧ Renews s.heap h₁ (i, s.own.nameAt? id k) j := by
    have lt := (List.getElem?_eq_some_iff.mp hi).1
    have hj := List.getElem?_eq_getElem (len.symm ▸ lt)
    obtain ⟨⟨i', n⟩, there, renews⟩ := forall₂_getElem? renews hj
    obtain ⟨hi', hn⟩ := List.getElem?_zip_eq_some.mp there
    cases hi.symm.trans hi'
    refine ⟨_, hj, ?_⟩
    rw [name, CodeUnit.nameAt?, hn]
    exact renews
  have none (k : Nat) (hk : s.own.cellAt? id k = none) : t.own.cellAt? id k = none := by
    rw [cellAt?_eq ha, List.getElem?_eq_none_iff] at hk
    rw [cellAt?_eq after, List.getElem?_eq_none_iff]
    exact Nat.le_trans (Nat.le_of_eq len) hk
  refine ⟨⟨⟨a, _, ha, after, rfl, Nat.sub_eq_zero_of_le last⟩, fun k kept => ?_,
    fun k n i hn plain hi => ?_⟩, none⟩
  · rw [cellAt?_eq ha]
    cases hi : a.cells[k]? with
    | none => exact none k ((cellAt?_eq ha k).trans hi)
    | some i =>
      rw [cellAt?_eq after]
      obtain ⟨j, hj, same, -⟩ := got hi
      exact hj.trans (congrArg some (same kept))
  · rw [cellAt?_eq ha] at hi
    obtain ⟨j, hj, -, fresh⟩ := got hi
    obtain ⟨le, holds⟩ := fresh n hn plain
    have hj : t.own.cellAt? id k = some j := (cellAt?_eq after k).trans hj
    have old := b.lt_size (mem_held ha (List.mem_of_getElem? hi))
    refine ⟨j, hj, Nat.ne_of_gt (Nat.lt_of_lt_of_le old le), le, ?_⟩
    rw [← hn]
    refine lasts.holds holds ?_
    exact b'.kept.alive (List.mem_append_right _ (mem_held_of_cellAt? hj))

/-- **A call on a base ends**; with the last one its plain slots get new cells. -/
theorem ends_pop_base (b : Balanced h₀ out s) (ha : s.own.activation? id = some a)
    (own : a.base = none) :
    Ends (pop id) s (fun _ t => Balanced h₀ out t ∧ t.own.units = s.own.units ∧
      (∀ z c, z ≠ id → s.own.activation? z = some c → t.own.activation? z = some c) ∧
      (1 < a.depth → t.own.activation? id = some { a with depth := a.depth - 1 }) ∧
      (a.depth ≤ 1 → Renewed s t id ∧
        ∀ k, s.own.cellAt? id k = none → t.own.cellAt? id k = none)) E := by
  obtain ⟨x, hx, -⟩ := b.formed.fits id a ha
  have done : Ends (pop id) s (fun _ t => t.own.units = s.own.units ∧
      (∀ z c, z ≠ id → s.own.activation? z = some c → t.own.activation? z = some c) ∧
      (1 < a.depth → t.own.activation? id = some { a with depth := a.depth - 1 }) ∧
      (a.depth ≤ 1 → ∃ cells h₁,
        t.own.activation? id = some { a with depth := a.depth - 1, cells } ∧
        List.Forall₂ (Renews s.heap h₁) (a.cells.zip x.slots) cells ∧ h₁.Lasts t.heap))
      fun _ => False := by
    refine ((ends_activation id s).imp (fun _ _ q => q) fun _ e => ?_).bind ?_
    · cases ha.symm.trans e.2
    rintro a' s ⟨rfl, ha'⟩
    cases ha.symm.trans ha'
    dsimp only
    split
    · rename_i frame
      cases own.symm.trans frame
    refine (ends_changeActivation ha _).bind ?_
    rintro _ s₁ ⟨heap, w⟩
    have others (z : ActivationId) (c : Activation) (hz : z ≠ id)
        (hc : s.own.activation? z = some c) : s₁.own.activation? z = some c :=
      (w.others z hz).trans hc
    split
    · rename_i last
      rw [← w.units] at hx
      refine ((ends_unit a.unit s₁).imp (fun _ _ q => q) fun _ e => ?_).bind ?_
      · cases hx.symm.trans e.2
      rintro x' s₁ ⟨rfl, hx'⟩
      cases hx.symm.trans hx'
      have renewed : Ends ((a.cells.zip x.slots).mapM fun y => renewedCell y.2 y.1) s₁.heap _
          fun _ => False :=
        Heap.ends_mapM_adds (R := Renews) (fun y h => ends_renewedCell y h) Renews.mono
          (a.cells.zip x.slots) s₁.heap
      refine Ends.bind (Ends.of_eq (congrFun (mapM_liftM _ _) s₁) renewed.liftSure) ?_
      rintro cells s₂ ⟨same, -, renews⟩
      refine (ends_changeActivation (same ▸ w.after) fun a => { a with cells }).bind ?_
      rintro _ s₃ ⟨heap', w'⟩
      refine ⟨?_, fun z c hz hc => ?_, fun more => absurd more (Nat.not_lt.mpr last), fun _ => ?_⟩
      · exact w'.units.trans ((congrArg Pads.units same).trans w.units)
      · exact (w'.others z hz).trans (same ▸ others z c hz hc)
      · refine ⟨cells, s₂.heap, w'.after, heap ▸ renews, ?_⟩
        have gone := Heap.lasts_letGo s₃.heap (replaced a.cells cells)
        rw [← heap']
        exact gone
    · rename_i more
      exact ⟨w.units, others, fun _ => w.after, fun last => absurd last more⟩
  refine (((keeps_pop id).ends b).and done).imp ?_ fun _ e => e.2.elim
  rintro _ t ⟨b', units, others, more, last⟩
  refine ⟨b', units, others, more, fun le => ?_⟩
  obtain ⟨cells, h₁, after, renews, lasts⟩ := last le
  exact b.renewed b' ha hx after le renews lasts

end

end Pads

end ScriptCore
