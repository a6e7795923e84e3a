import Mathlib.Data.Finmap
import ScriptCore.Proofs.Table.Linked

/-!
# Table — the finite map a table stands for

`Shows` says which map a table holds, by the entries it binds; `Agrees` says that all one can ask
a table gives the answers of the map.  A sound table agrees with the map it shows
(`Sound.agrees`).
-/

namespace ScriptCore.Table
variable {α : Type}

/-- A finite map from letters to values. -/
abbrev Contents (α : Type) := Finmap fun _ : Bytes × Bool => α

/-- The live entries of the table are those of the map. -/
def Shows (t : Table α) (m : Contents α) : Prop :=
  ∀ x v, m.lookup x = some v ↔ t.Binds x (some v)

/-- All that one can ask the table is answered from the map. -/
structure Agrees (t : Table α) (m : Contents α) : Prop where
  fetch : ∀ s : Spelling, t.fetch? s = m.lookup s.letters
  contains : ∀ s : Spelling, t.contains s = true ↔ s.letters ∈ m
  size : t.size = m.keys.card
  toList : ((t.toList.map fun (k, v) => ⟨k.letters, v⟩ : List (Σ _ : Bytes × Bool, α)) :
    Multiset (Σ _ : Bytes × Bool, α)) = m.entries

section
variable {t : Table α} {m : Contents α} {i : Nat}

/-- The place of a spelling, and what is there. -/
theorem Linked.locate_cases (h : t.Linked) (s : Spelling) :
    t.locate s = none ∧ (∀ o, ¬ t.Binds s.letters o) ∨
      ∃ i o, t.locate s = some i ∧ i ∈ t.chained ∧ t.contentAt i = some (s.letters, o) := by
  cases found : t.locate s with
  | none =>
    refine .inl ⟨rfl, fun o ⟨i, hi, c⟩ => ?_⟩
    exact (locate_eq_none_iff h).mp found i hi (by simp [lettersAt_eq, c])
  | some i =>
    obtain ⟨hi, letters⟩ := (locate_eq_some_iff h).mp found
    obtain ⟨e, he, hl⟩ := lettersAt_eq_some_iff.mp letters
    exact .inr ⟨i, e.value, rfl, hi, by simp [contentAt, he, hl]⟩

/-- What the map has for letters that are bound. -/
theorem Shows.lookup_eq (h : t.Shows m) (linked : t.Linked) {x : Bytes × Bool} {o : Option α}
    (hb : t.Binds x o) : m.lookup x = o := by
  cases o with
  | some v => exact (h x v).mpr hb
  | none =>
    cases found : m.lookup x with
    | none => rfl
    | some v => exact linked.binds_unique ((h x v).mp found) hb

theorem Shows.lookup_eq_none (h : t.Shows m) {x : Bytes × Bool} (hb : ∀ o, ¬ t.Binds x o) :
    m.lookup x = none := by
  cases found : m.lookup x with
  | none => rfl
  | some v => exact absurd ((h x v).mp found) (hb _)

/-! ### Asking a table -/

theorem Shows.fetch? (h : t.Shows m) (linked : t.Linked) (s : Spelling) :
    t.fetch? s = m.lookup s.letters := by
  unfold Table.fetch?
  rcases linked.locate_cases s with ⟨none, unbound⟩ | ⟨i, o, found, hi, c⟩
  · rw [none, h.lookup_eq_none unbound]
    rfl
  · rw [found, h.lookup_eq linked ⟨i, hi, c⟩, Option.bind_some, valueAt_eq, c]
    rfl

theorem Shows.contains (h : t.Shows m) (linked : t.Linked) (s : Spelling) :
    t.contains s = true ↔ s.letters ∈ m := by
  unfold Table.contains presence
  rw [← Finmap.lookup_isSome]
  rcases linked.locate_cases s with ⟨none, unbound⟩ | ⟨i, o, found, hi, c⟩
  · simp [none, h.lookup_eq_none unbound]
  · rw [found, h.lookup_eq linked ⟨i, hi, c⟩]
    cases o <;> simp [isPlaceholder_eq, c]

/-- The live entry at a place. -/
def liveAt (t : Table α) (i : Nat) : Option (Σ _ : Bytes × Bool, α) :=
  (t.contentAt i).bind fun c => c.2.map (⟨c.1, ·⟩)

theorem liveAt_eq_some_iff {x : Bytes × Bool} {v : α} :
    t.liveAt i = some ⟨x, v⟩ ↔ t.contentAt i = some (x, some v) := by
  unfold liveAt
  rcases t.contentAt i with - | ⟨y, - | w⟩ <;> simp

theorem map_toList (t : Table α) :
    t.toList.map (fun (k, v) => (⟨k.letters, v⟩ : Σ _ : Bytes × Bool, α)) =
      t.chained.filterMap t.liveAt := by
  unfold toList
  rw [List.map_filterMap]
  refine List.filterMap_congr fun i _ => ?_
  rw [liveAt, contentAt]
  rcases t.entry? i with - | ⟨k, - | v⟩ <;> rfl

theorem Linked.nodup_live (h : t.Linked) : (t.chained.filterMap t.liveAt).Nodup := by
  rw [List.Nodup, List.pairwise_filterMap]
  refine h.nodup_chained.imp_of_mem fun {i j} hi hj ne => ?_
  rintro ⟨x, v⟩ ci _ cj rfl
  rw [liveAt_eq_some_iff] at ci cj
  exact ne (h.distinct i j hi hj (by simp [lettersAt_eq, ci, cj]))

theorem mem_live_iff {x : Bytes × Bool} {v : α} :
    ⟨x, v⟩ ∈ t.chained.filterMap t.liveAt ↔ t.Binds x (some v) := by
  simp only [List.mem_filterMap, liveAt_eq_some_iff, Binds]

/-- Every linked table shows a map. -/
theorem Linked.exists_shows (h : t.Linked) : ∃ m, t.Shows m := by
  have nodup : (t.chained.filterMap t.liveAt).NodupKeys := by
    rw [List.nodupKeys_iff_pairwise, List.pairwise_filterMap]
    refine h.nodup_chained.imp_of_mem fun {i j} hi hj ne => ?_
    rintro ⟨x, v⟩ ci ⟨y, w⟩ cj rfl
    rw [liveAt_eq_some_iff] at ci cj
    exact ne (h.distinct i j hi hj (by simp [lettersAt_eq, ci, cj]))
  refine ⟨List.toFinmap (t.chained.filterMap t.liveAt), fun x v => ?_⟩
  rw [Finmap.dlookup_list_toFinmap, ← mem_live_iff]
  exact List.mem_dlookup_iff nodup

theorem Shows.toList (h : t.Shows m) (linked : t.Linked) :
    ((t.toList.map fun (k, v) => ⟨k.letters, v⟩ : List (Σ _ : Bytes × Bool, α)) :
      Multiset (Σ _ : Bytes × Bool, α)) = m.entries := by
  rw [map_toList]
  refine (Multiset.Nodup.ext (Multiset.coe_nodup.mpr linked.nodup_live) m.nodup_entries).mpr ?_
  rintro ⟨x, v⟩
  rw [Multiset.mem_coe, mem_live_iff, ← h x v, Finmap.lookup_eq_some_iff]

theorem Counted.size_eq (h : t.Counted) : t.size = t.toList.length := by
  have live : t.toList.length = t.chained.countP (fun i => !t.isPlaceholder i) := by
    rw [← List.length_map (fun (k, v) => (⟨k.letters, v⟩ : Σ _ : Bytes × Bool, α)), map_toList,
      List.length_filterMap_eq_countP]
    refine List.countP_congr fun i hi => ?_
    obtain ⟨e, he⟩ := h.entry_eq hi
    rw [liveAt, isPlaceholder_eq, contentAt, he]
    cases e.value <;> simp
  rw [size, h.counted, h.marked, live, List.length_eq_countP_add_countP t.isPlaceholder]
  simp

/-- **What a table stands for.**  A sound table agrees with the map it shows. -/
theorem Sound.agrees (h : t.Sound) (shows : t.Shows m) : t.Agrees m where
  fetch := shows.fetch? h.toLinked
  contains := shows.contains h.toLinked
  size := by
    have card : m.keys.card = m.entries.card := Multiset.card_map _ _
    rw [h.size_eq, card, ← shows.toList h.toLinked, Multiset.coe_card, List.length_map]
  toList := shows.toList h.toLinked

end

end ScriptCore.Table
