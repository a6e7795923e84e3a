import Mathlib.Data.List.Forall2
import ScriptCore.Proofs.Heap.Steady

/-!
# Heap — lists of texts

An array cell whose elements are text cells holds a list of texts.  `mapM_new` makes the text
cells, `replaceItems` puts them in the place of other elements and lets those go.
-/

namespace ScriptCore.Heap

variable {h h' : Heap} {i isa : CellId} {old items : List CellId}

theorem exists_mem_of_forall₂ {α β : Type} {R : α → β → Prop} {l : List α} {l' : List β}
    (h : List.Forall₂ R l l') {a : α} (ha : a ∈ l) : ∃ b ∈ l', R a b := by
  induction h with
  | nil => cases ha
  | cons first _ ih =>
    rcases List.mem_cons.mp ha with rfl | ha
    · exact ⟨_, List.mem_cons_self, first⟩
    · obtain ⟨b, hb, r⟩ := ih ha
      exact ⟨b, List.mem_cons_of_mem _ hb, r⟩

theorem exists_of_forall₂ {α β : Type} {R : α → β → Prop} {l : List α} {l' : List β}
    (h : List.Forall₂ R l l') {a : α} (ha : a ∈ l) : ∃ b, R a b :=
  (exists_mem_of_forall₂ h ha).imp fun _ => And.right

/-! ### Reading -/

theorem items_eq (holds : h.Holds i (.ofItems items)) : Heap.items i h = .ok items h := by
  obtain ⟨n, hn⟩ := holds
  unfold Heap.items
  rw [bind_get, cell_eq hn]
  rfl

theorem getBytes_eq {s : String} (holds : h.Holds i (.ofText s)) :
    getBytes i .silent h = .ok (Text.encode s) h := by
  obtain ⟨n, hn⟩ := holds
  have hooks : runHooks .get i h = .ok () h := by
    unfold runHooks
    rw [bind_get, cell_eq hn, if_pos (.inl rfl)]
    rfl
  have source : sourceOf i h = .ok (.text (Text.encode s)) h := by
    unfold sourceOf
    rw [bind_get, cell_eq hn]
    rfl
  unfold getBytes readBytes
  rw [bind_ok hooks, bind_ok source, bind_get, cell_eq hn]
  rfl

/-- Reading every element of a list of texts. -/
theorem mapM_getBytes {α : Type} {list : List String} (f : Bytes → α)
    (holds : List.Forall₂ (fun i s => h.Holds i (.ofText s)) items list) :
    (items.mapM fun i => return f (← getBytes i .silent) : OnHeap (List α)) h =
      .ok (list.map fun s => f (Text.encode s)) h := by
  induction holds with
  | nil => rfl
  | @cons i s is list first _ ih =>
    rw [List.mapM_cons, bind_assoc, bind_ok (getBytes_eq first), pure_bind, bind_ok ih]
    rfl

/-! ### Writing -/

/-- **New texts.**  They are cells of their own, and the cells there were are left alone. -/
theorem mapM_new (list : List String) (h : Heap) :
    ∃ names h', (list.mapM fun s => new (.ofText s)) h = .ok names h' ∧
      h.Steady h' (fun _ => False) ∧ h.cells.size ≤ h'.cells.size ∧ names.Nodup ∧
      (∀ i ∈ names, h.cells.size ≤ i) ∧ (∀ i < h.cells.size, h'.cell? i = h.cell? i) ∧
      List.Forall₂ (fun i s => h'.cell? i = some (.ofText s)) names list := by
  induction list generalizing h with
  | nil => exact ⟨[], h, rfl, .refl h, Nat.le_refl _, .nil, nofun, fun _ _ => rfl, .nil⟩
  | cons s list ih =>
    obtain ⟨names, h', e, steady, size, nodup, fresh, old, texts⟩ :=
      ih (h.allocate (.ofText s)).2
    have grown : (h.allocate (.ofText s)).2.cells.size = h.cells.size + 1 := by simp [allocate]
    rw [grown] at fresh old size
    refine ⟨h.cells.size :: names, h', ?_, (steady_allocate h rfl).trans steady, by omega, ?_, ?_,
      fun i hi => ?_, .cons ?_ texts⟩
    · have made : new (.ofText s) h = .ok h.cells.size (h.allocate (.ofText s)).2 := rfl
      rw [List.mapM_cons, bind_ok made, bind_ok e]
      rfl
    · exact List.nodup_cons.mpr ⟨fun there => by have := fresh _ there; omega, nodup⟩
    · intro i hi
      rcases List.mem_cons.mp hi with rfl | hi
      · exact Nat.le_refl _
      · have := fresh i hi
        omega
    · rw [old i (by omega), cell?_allocate, if_neg (Nat.ne_of_lt hi)]
    · rw [old _ (by omega), cell?_allocate, if_pos rfl]
      rfl

theorem assignItems_eq (holds : h.Holds isa (.ofItems old)) (names : List CellId) :
    assignItems isa names h = .ok () (((h.setCell isa
      { h.cell isa with payload := .array names }).retainAll names).letGo old) := by
  obtain ⟨n, hn⟩ := holds
  have writable : (h.cell isa).checkWritable = .ok () := by
    rw [cell_eq hn]
    rfl
  unfold assignItems changeItems
  rw [bind_get, writable, cell_eq hn]
  rfl

/-- **Replacing a list.**  New names come in the place of old leaves.  Whoever made the names lets
go of them, so the array is their one owner in the end. -/
theorem replaceItems (holds : h.Holds isa (.ofItems old))
    (leaf : ∀ i ∈ old, ∀ c, h.cell? i = some c → c.IsLeaf) (apart : isa ∉ old)
    {names : List CellId} (nodup : names.Nodup) (fresh : ∀ i ∈ names, i ≠ isa ∧ i ∉ old)
    (made : ∀ i ∈ names, ∃ s, h.cell? i = some (.ofText s)) :
    ∃ h', assignItems isa names h = .ok () h' ∧
      h.Steady (h'.letGo names) (fun i => i = isa ∨ i ∈ old) ∧
      (h'.letGo names).Holds isa (.ofItems names) := by
  obtain ⟨n, hn⟩ := id holds
  refine ⟨_, assignItems_eq holds names, ?_⟩
  have array : h.Steady (h.setCell isa { { Cell.ofItems old with owners := n } with
      payload := .array names }) (· = isa) :=
    steady_setPayload h isa hn fun _ => Payload.noConfusion
  rw [cell_eq hn]
  generalize hg : h.setCell isa { { Cell.ofItems old with owners := n } with
    payload := .array names } = g at array
  have there : g.Holds isa (.ofItems names) := by
    refine ⟨n, ?_⟩
    rw [← hg, cell?_setCell, isAlive, hn, if_pos ⟨rfl, rfl⟩]
    rfl
  have other : ∀ i, i ≠ isa → g.cell? i = h.cell? i := fun i hi => by
    rw [← hg, cell?_setCell, if_neg fun e => hi e.1.symm]
  have retained := steady_retainAll g names
  have leaves : ∀ i ∈ old, ∀ d, (g.retainAll names).cell? i = some d → d.IsLeaf := by
    intro i hi d hd
    rw [cell?_retainAll, other i fun e => apart (e ▸ hi)] at hd
    obtain ⟨c, hc, rfl⟩ := Option.map_eq_some_iff.mp hd
    exact leaf i hi c hc
  have gone : (g.retainAll names).Steady ((g.retainAll names).letGo old) (· ∈ old) :=
    (steady_letGo leaves).mono fun _ hi => hi.1
  -- the array and the maker own a name each once
  have twice : ∀ i ∈ names, ∃ s,
      ((g.retainAll names).letGo old).cell? i = some { Cell.ofText s with owners := 2 } := by
    intro i hi
    obtain ⟨s, hs⟩ := made i hi
    refine ⟨s, ?_⟩
    rw [(faded_letGo leaves).cells, List.count_eq_zero.mpr (fresh i hi).2, cell?_retainAll,
      other i (fresh i hi).1, hs, List.count_eq_one_of_mem nodup hi]
    rfl
  have kept : ((g.retainAll names).letGo old).Steady
      (((g.retainAll names).letGo old).letGo names) fun _ => False := by
    refine steady_letGo_owned fun i hi => ?_
    obtain ⟨s, hs⟩ := twice i hi
    refine ⟨_, hs, ⟨rfl, fun _ => Payload.noConfusion⟩, ?_⟩
    rw [List.count_eq_one_of_mem nodup hi]
    exact Nat.one_lt_two
  have rest : g.Steady (((g.retainAll names).letGo old).letGo names) (· ∈ old) :=
    ((retained.mono fun _ => False.elim).trans gone).trans (kept.mono fun _ => False.elim)
  exact ⟨(array.mono fun _ => .inl).trans (rest.mono fun _ => .inr),
    rest.held isa _ apart there⟩

end ScriptCore.Heap
