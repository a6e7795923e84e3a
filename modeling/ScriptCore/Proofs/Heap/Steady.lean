import ScriptCore.Heap.Aggregate
import ScriptCore.Proofs.Heap.Cells
import ScriptCore.Proofs.Key.Pool
import ScriptCore.Proofs.Outcome

/-!
# Heap — what a heap keeps

`Holds` says what a cell is but for the number of its owners, `IsCode` that a place is for code,
and `IsBare` that no cell refers to another, so that what a cell owns is in its payload.

`Steady h h' but` relates a heap to a later one: every cell holds what it held, but for those of
`but`; places of code stay that; and the pools have turned at most.
-/

namespace ScriptCore.Heap

/-- The cell is alive and is `c`, but for the number of its owners. -/
def Holds (h : Heap) (i : CellId) (c : Cell) : Prop := ∃ n, h.cell? i = some { c with owners := n }

/-- Nothing but code is at the place, now or later. -/
def IsCode (h : Heap) (i : CellId) : Prop :=
  i < h.cells.size ∧ ∀ c, h.cell? i = some c → ∃ r, c.payload = .code r

/-- No cell refers to another. -/
def IsBare (h : Heap) : Prop := ∀ i c, h.cell? i = some c → c.target = none

/-- The later heap has what the earlier had, but for some cells. -/
structure Steady (h h' : Heap) (but : CellId → Prop) : Prop where
  held : ∀ i c, ¬ but i → h.Holds i c → h'.Holds i c
  code : ∀ i, h.IsCode i → h'.IsCode i
  bare : h.IsBare → h'.IsBare
  turns : h.ring.Sound → h.ring.Turns h'.ring

section
variable {h h' h'' : Heap} {i j : CellId} {c d : Cell} {but but' : CellId → Prop}

theorem Holds.payload (holds : h.Holds i c) (hd : h.cell? i = some d) : d.payload = c.payload := by
  obtain ⟨n, hn⟩ := holds
  cases hn.symm.trans hd
  rfl

theorem Holds.lt_size (holds : h.Holds i c) : i < h.cells.size :=
  holds.elim fun _ hn => Heap.lt_size hn

theorem Holds.not_isCode (holds : h.Holds i c) (hc : ∀ r, c.payload ≠ .code r) : ¬ h.IsCode i := by
  rintro ⟨-, code⟩
  obtain ⟨n, hn⟩ := holds
  obtain ⟨r, hr⟩ := code _ hn
  exact hc r hr

/-- Cells of different payloads are different cells. -/
theorem Holds.ne (hc : h.Holds i c) (hd : h.Holds j d) (differ : c.payload ≠ d.payload) :
    i ≠ j := by
  rintro rfl
  obtain ⟨n, hn⟩ := hd
  exact differ (hc.payload hn).symm

theorem IsBare.isLeaf (bare : h.IsBare) (hc : h.cell? i = some c) (cells : c.payload.cells = [])
    (keyless : ∀ t, c.payload ≠ .hash t) : c.IsLeaf := by
  refine ⟨?_, keyless⟩
  unfold Cell.owned
  rw [bare i c hc, cells]
  rfl

theorem IsCode.isLeaf (code : h.IsCode i) (bare : h.IsBare) (hc : h.cell? i = some c) :
    c.IsLeaf := by
  obtain ⟨r, hr⟩ := code.2 c hc
  refine bare.isLeaf hc ?_ fun t ht => ?_
  · rw [hr]
    rfl
  · rw [hr] at ht
    cases ht

/-! ### Steps -/

theorem Steady.refl (h : Heap) : h.Steady h but :=
  ⟨fun _ _ _ holds => holds, fun _ code => code, fun bare => bare, fun sound => .refl sound⟩

theorem Steady.trans (a : h.Steady h' but) (b : h'.Steady h'' but) : h.Steady h'' but where
  held i c hi holds := b.held i c hi (a.held i c hi holds)
  code i hi := b.code i (a.code i hi)
  bare hb := b.bare (a.bare hb)
  turns sound := (a.turns sound).trans (b.turns (a.turns sound).sound)

theorem Steady.mono (a : h.Steady h' but) (le : ∀ i, but i → but' i) : h.Steady h' but' :=
  { a with held := fun i c hi => a.held i c fun b => hi (le i b) }

/-- A cell is what it was, or changed in a way that keeps code code. -/
theorem steady_of_cells (size : h.cells.size ≤ h'.cells.size)
    (turns : h.ring.Sound → h.ring.Turns h'.ring)
    (held : ∀ i c, ¬ but i → h.Holds i c → h'.Holds i c)
    (old : ∀ i d, h'.cell? i = some d → (∃ c, h.cell? i = some c ∧ d.target = c.target ∧
      ∀ r, c.payload = .code r → ∃ r, d.payload = .code r) ∨
        h.cells.size ≤ i ∧ d.target = none) :
    h.Steady h' but where
  held := held
  code i hi := by
    refine ⟨Nat.lt_of_lt_of_le hi.1 size, fun d hd => ?_⟩
    rcases old i d hd with ⟨c, hc, -, code⟩ | ⟨new, -⟩
    · obtain ⟨r, hr⟩ := hi.2 c hc
      exact code r hr
    · exact absurd hi.1 (Nat.not_lt.mpr new)
  bare hb i d hd := by
    rcases old i d hd with ⟨c, hc, target, -⟩ | ⟨-, none⟩
    · exact target.trans (hb i c hc)
    · exact none
  turns := turns

theorem steady_allocate (h : Heap) (bare : c.target = none) :
    h.Steady (h.allocate c).2 fun _ => False := by
  refine steady_of_cells (by simp [allocate]) .refl (fun i d _ ⟨n, hn⟩ => ⟨n, ?_⟩)
    fun i d hd => ?_
  · rw [cell?_allocate, if_neg (Nat.ne_of_lt (Heap.lt_size hn)), hn]
  · rw [cell?_allocate] at hd
    split at hd
    · cases hd
      exact .inr ⟨Nat.le_of_eq (Eq.symm (by assumption)), bare⟩
    · exact .inl ⟨d, hd, rfl, fun r hr => ⟨r, hr⟩⟩

theorem holds_allocate (h : Heap) (c : Cell) : (h.allocate c).2.Holds h.cells.size c :=
  ⟨1, by rw [cell?_allocate, if_pos rfl]⟩

/-- A cell gets another payload of its kind. -/
theorem steady_setPayload (h : Heap) (i : CellId) (hc : h.cell? i = some c) {p : Payload}
    (kind : ∀ r, c.payload = .code r → ∃ r, p = .code r) :
    h.Steady (h.setCell i { c with payload := p }) (· = i) := by
  refine steady_of_cells (by simp) (fun sound => by simpa using .refl sound)
    (fun j d hj ⟨n, hn⟩ => ⟨n, ?_⟩) fun j d hd => ?_
  · rw [cell?_setCell, if_neg fun e => hj e.1.symm, hn]
  · rw [cell?_setCell] at hd
    split at hd
    · rename_i e
      cases hd
      exact .inl ⟨c, e.1 ▸ hc, rfl, kind⟩
    · exact .inl ⟨d, hd, rfl, fun r hr => ⟨r, hr⟩⟩

theorem steady_retainAll (h : Heap) (is : List CellId) :
    h.Steady (h.retainAll is) fun _ => False := by
  refine steady_of_cells (by simp) (fun sound => by simpa using .refl sound)
    (fun j d _ ⟨n, hn⟩ => ⟨n + is.count j, ?_⟩) fun j d hd => ?_
  · rw [cell?_retainAll, hn]
    rfl
  · rw [cell?_retainAll] at hd
    obtain ⟨c, hc, rfl⟩ := Option.map_eq_some_iff.mp hd
    exact .inl ⟨c, hc, rfl, fun r hr => ⟨r, hr⟩⟩

/-- **Letting leaves go** touches those that lose their last owner. -/
theorem steady_letGo {is : List CellId}
    (leaf : ∀ i ∈ is, ∀ c, h.cell? i = some c → c.IsLeaf) :
    h.Steady (h.letGo is)
      fun j => j ∈ is ∧ ∀ c, h.cell? j = some c → c.owners ≤ is.count j := by
  obtain ⟨ring, size, cells⟩ := faded_letGo leaf
  refine steady_of_cells (Nat.le_of_eq size.symm) (fun sound => by rw [ring]; exact .refl sound)
    (fun j d hj ⟨n, hn⟩ => ?_) fun j d hd => ?_
  · have spared : is.count j = 0 ∨ is.count j < n := by
      rw [List.count_eq_zero, Classical.or_iff_not_imp_left, Classical.not_not]
      intro named
      refine Nat.lt_of_not_le fun le => hj ⟨named, fun c hc => ?_⟩
      cases hn.symm.trans hc
      exact le
    refine ⟨n - is.count j, ?_⟩
    rw [cells, hn]
    exact if_pos spared
  · rw [cells] at hd
    obtain ⟨c, hc, hd⟩ := Option.bind_eq_some_iff.mp hd
    rw [fade_eq_some hd]
    exact .inl ⟨c, hc, rfl, fun r hr => ⟨r, hr⟩⟩

/-- Letting go of leaves that have other owners touches nothing. -/
theorem steady_letGo_owned {is : List CellId}
    (owned : ∀ i ∈ is, ∃ c, h.cell? i = some c ∧ c.IsLeaf ∧ is.count i < c.owners) :
    h.Steady (h.letGo is) fun _ => False := by
  refine (steady_letGo fun i hi d hd => ?_).mono fun i lost => ?_
  · obtain ⟨c, hc, leaf, -⟩ := owned i hi
    rwa [← Option.some.inj (hc.symm.trans hd)]
  · obtain ⟨hi, few⟩ := lost
    obtain ⟨c, hc, -, more⟩ := owned i hi
    exact Nat.not_le_of_lt more (few c hc)

/-- Letting code go touches nothing but code. -/
theorem steady_letGo_code {is : List CellId} (bare : h.IsBare) (code : ∀ i ∈ is, h.IsCode i) :
    h.Steady (h.letGo is) h.IsCode :=
  (steady_letGo fun i hi _ hc => (code i hi).isLeaf bare hc).mono fun i hi => code i hi.1

theorem steady_ring (h : Heap) {ring : Keyring} (turns : h.ring.Sound → h.ring.Turns ring) :
    h.Steady { h with ring } fun _ => False :=
  ⟨fun _ _ _ holds => holds, fun _ code => code, fun bare => bare, turns⟩

/-! ### Cells that hold a table -/

variable {t u : Table CellId}

theorem bind_get {α : Type} (f : Heap → OnHeap α) (h : Heap) :
    (get >>= f : OnHeap α) h = f h h := rfl

theorem table_eq (holds : h.Holds i (.ofTable t)) : table i h = .ok t h := by
  obtain ⟨n, hn⟩ := holds
  unfold table
  rw [bind_get, cell_eq hn]
  rfl

theorem fetch_eq (holds : h.Holds i (.ofTable t)) (k : Spelling) :
    fetch i k h = .ok (t.fetch? k) h := by
  unfold fetch
  rw [bind_ok (table_eq holds)]
  rfl

theorem writableTable_eq (holds : h.Holds i (.ofTable t)) : writableTable i h = .ok t h := by
  have read := table_eq holds
  obtain ⟨n, hn⟩ := holds
  have writable : (h.cell i).checkWritable = .ok () := by
    rw [cell_eq hn]
    rfl
  unfold writableTable
  rw [bind_get, writable]
  exact read

/-- The heap with another table in a cell. -/
def withTable (h : Heap) (i : CellId) (t : Table CellId) (ring : Keyring) : Heap :=
  { h with ring }.updateCell i fun c => { c with payload := .hash t }

theorem cell?_withTable (h : Heap) (i : CellId) (t : Table CellId) (ring : Keyring)
    (hj : j ≠ i) : (h.withTable i t ring).cell? j = h.cell? j := by
  unfold withTable updateCell
  rw [cell?_setCell, if_neg fun e => hj e.1.symm]
  rfl

theorem ring_withTable (h : Heap) (i : CellId) (t : Table CellId) (ring : Keyring) :
    (h.withTable i t ring).ring = ring := ring_setCell ..

theorem holds_withTable (holds : h.Holds i (.ofTable t)) (ring : Keyring) :
    (h.withTable i u ring).Holds i (.ofTable u) := by
  obtain ⟨n, hn⟩ := holds
  have hn' : { h with ring }.cell? i = some { Cell.ofTable t with owners := n } := hn
  refine ⟨n, ?_⟩
  unfold withTable updateCell
  rw [cell?_setCell, isAlive, hn', if_pos ⟨rfl, rfl⟩, cell_eq hn']
  rfl

theorem steady_withTable (holds : h.Holds i (.ofTable t)) {ring : Keyring}
    (turns : h.ring.Sound → h.ring.Turns ring) : h.Steady (h.withTable i u ring) (· = i) := by
  obtain ⟨n, hn⟩ := holds
  have hn' : { h with ring }.cell? i = some { Cell.ofTable t with owners := n } := hn
  refine ((steady_ring h turns).mono fun _ => False.elim).trans ?_
  unfold withTable updateCell
  rw [cell_eq hn']
  exact steady_setPayload _ i hn' fun _ => Payload.noConfusion

theorem store_eq (holds : h.Holds i (.ofTable t)) {k : Spelling} {v : CellId}
    {old : Option CellId} {ring : Keyring} (e : t.store h.ring k v = .ok (old, u, ring)) :
    store i k v h = .ok old ((h.withTable i u ring).retain v) := by
  unfold store
  rw [bind_ok (writableTable_eq holds), bind_get, e]
  rfl

theorem delete_eq (holds : h.Holds i (.ofTable t)) {k : Spelling} {old : Option CellId}
    {ring : Keyring} (e : t.delete h.ring h.isReadOnly k = .ok (old, u, ring)) :
    delete i k h = .ok old (h.withTable i u ring) := by
  unfold delete
  rw [bind_ok (writableTable_eq holds), bind_get, e]
  rfl

end

end ScriptCore.Heap
