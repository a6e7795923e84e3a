import ScriptCore.Proofs.Table.Update
import ScriptCore.Proofs.Table.Values

/-!
# Table — what comes into a table and what leaves it

A table is `Tight` when its arena holds no value beside those of its live entries.  Then the
values it holds are those of the map it shows (`Tight.count_values`), so an update trades them as
the map does: what was held and what is brought is what is held now and what is handed over.

* `Housed.exchange_store`, `Housed.exchange_delete`: storing and deleting.
* `Housed.exchange_clear`: a restricted table that is cleared gives up each value once.
-/

namespace ScriptCore.Table
variable {α : Type} [DecidableEq α]

/-- The values of live entries, bucket by bucket. -/
def liveValues (t : Table α) : List α := t.toList.map (·.2)

/-- All values of the arena are those of live entries. -/
def Tight (t : Table α) : Prop := ∀ x, t.values.count x = t.liveValues.count x

/-- How often a map has a value. -/
def Contents.count (m : Contents α) (x : α) : Nat := (m.entries.map (·.2)).count x

section
variable {t u : Table α} {r r' : Keyring} {m : Contents α} {i : Nat} {x : α} {y : Bytes × Bool}

/-! ### Values of a map -/

theorem Contents.count_toFinmap (s : AList fun _ : Bytes × Bool => α) (x : α) :
    Contents.count s.toFinmap x = (s.entries.map (·.2)).count x := by
  unfold Contents.count
  rw [AList.toFinmap_entries, Multiset.map_coe, Multiset.coe_count]

/-- Taking letters out of a map takes their value. -/
theorem Contents.count_erase (m : Contents α) (y : Bytes × Bool) (x : α) :
    Contents.count (m.erase y) x + (m.lookup y).toList.count x = m.count x := by
  induction m using Finmap.induction_on with
  | H s =>
    rw [Finmap.erase_toFinmap, Finmap.lookup_toFinmap, count_toFinmap, count_toFinmap]
    show ((s.entries.kerase y).map (·.2)).count x + _ = _
    cases there : s.lookup y with
    | none =>
      have absent : y ∉ s.entries.keys := List.dlookup_eq_none.mp there
      rw [List.kerase_of_notMem_keys absent]
      rfl
    | some v =>
      obtain ⟨w, before, after, out, split, erased⟩ := List.exists_of_kerase
        (List.mem_keys_of_mem (List.of_mem_dlookup there))
      have same : w = v := by
        have found : s.entries.dlookup y = some v := there
        rw [split, List.dlookup_append] at found
        simpa [List.dlookup_eq_none.mpr out] using found
      rw [erased, split, same]
      simp only [List.map_append, List.map_cons, List.count_append, Option.toList_some,
        List.count_cons, List.count_nil]
      omega

/-- Binding letters to a value brings it, and takes the value they had. -/
theorem Contents.count_insert (m : Contents α) (y : Bytes × Bool) (v x : α) :
    Contents.count (m.insert y v) x + (m.lookup y).toList.count x = m.count x + [v].count x := by
  have bound := Contents.count_erase (m.insert y v) y x
  have before := Contents.count_erase m y x
  have same : (m.insert y v).erase y = m.erase y := by
    refine Finmap.ext_lookup fun z => ?_
    by_cases hz : z = y
    · rw [hz, Finmap.lookup_erase, Finmap.lookup_erase]
    · rw [Finmap.lookup_erase_ne hz, Finmap.lookup_erase_ne hz, Finmap.lookup_insert_of_ne _ hz]
  rw [same, Finmap.lookup_insert, Option.toList_some] at bound
  omega

/-! ### Values of a table -/

theorem Shows.count_liveValues (h : t.Shows m) (linked : t.Linked) (x : α) :
    t.liveValues.count x = m.count x := by
  unfold Contents.count
  rw [← h.toList linked, Multiset.map_coe, Multiset.coe_count, List.map_map]
  rfl

theorem Tight.count_values (tight : t.Tight) (h : t.Shows m) (linked : t.Linked) (x : α) :
    t.values.count x = m.count x := (tight x).trans (h.count_liveValues linked x)

omit [DecidableEq α] in
theorem values_eq (t : Table α) :
    t.values = (List.range t.entries.size).filterMap t.valueAt := by
  have places : t.entries.toList = (List.range t.entries.size).map t.entry? := by
    refine List.ext_getElem (by simp) fun i hi _ => ?_
    have lt : i < t.entries.size := by simpa using hi
    simp [ entry?, lt]
  unfold values
  rw [places, List.filterMap_map]
  rfl

omit [DecidableEq α] in
theorem liveValues_eq (t : Table α) : t.liveValues = t.chained.filterMap t.valueAt := by
  unfold liveValues toList
  rw [List.map_filterMap]
  refine List.filterMap_congr fun i _ => ?_
  unfold valueAt
  rcases t.entry? i with - | ⟨k, - | v⟩ <;> rfl

/-- The values of live entries are in the arena. -/
theorem Linked.count_liveValues_le (linked : t.Linked) (x : α) :
    t.liveValues.count x ≤ t.values.count x := by
  rw [liveValues_eq, values_eq, ((linked.places.filterMap t.valueAt).count_eq x).symm,
    List.filterMap_append, List.count_append]
  exact Nat.le_add_right _ _

/-- A table that holds no more than its map does is tight. -/
theorem Shows.tight (h : t.Shows m) (linked : t.Linked)
    (le : ∀ x, t.values.count x ≤ m.count x) : t.Tight := by
  intro x
  have within := linked.count_liveValues_le x
  rw [h.count_liveValues linked] at within ⊢
  exact Nat.le_antisymm (le x) within

/-! ### Updates -/

/-- A housed table that holds the values of its live entries alone. -/
structure Tidy (t : Table α) (r : Keyring) : Prop where
  housed : t.Housed r
  tight : t.Tight

theorem Tidy.turns (h : t.Tidy r) (turns : r.Turns r') : t.Tidy r' :=
  ⟨h.housed.of_sound h.housed.sound turns rfl rfl, h.tight⟩

theorem Tidy.count_values (h : t.Tidy r) (shows : t.Shows m) (x : α) :
    t.values.count x = m.count x := h.tight.count_values shows h.housed.sound.toLinked x

/-- A table with no entries whose seed is that of its pool. -/
theorem tidy_empty (ring : r.Sound) {seed : Seed} {pool : Option Nat}
    (home : ∀ p, pool = some p → (r.pool p).seed = seed) : Tidy ({ seed, pool } : Table α) r :=
  ⟨⟨sound_new seed false pool, ring, home⟩, fun _ => rfl⟩

theorem Tidy.emptied (h : t.Tidy r) : t.emptied.Tidy r := tidy_empty h.housed.ring h.housed.home

/-- **Storing** brings the value, and hands over the one it replaces. -/
theorem Tidy.store (h : t.Tidy r) {s : Spelling} {v : α} {old : Option α}
    (e : t.store r s v = .ok (old, u, r')) : u.Tidy r' ∧ r.Turns r' ∧
      ∀ x, u.values.count x + old.toList.count x = t.values.count x + [v].count x := by
  obtain ⟨m, shows⟩ := h.housed.sound.toLinked.exists_shows
  have stored := h.housed.store shows s v
  rw [e] at stored
  obtain ⟨housed, shown, rfl, -, turns⟩ := stored
  have linked := housed.sound.toLinked
  have tight : u.Tight := by
    refine shown.tight linked fun x => ?_
    have at_most := count_store (x := x) e
    have exchanged := Contents.count_insert m s.letters v x
    rw [h.count_values shows] at at_most
    omega
  refine ⟨⟨housed, tight⟩, turns, fun x => ?_⟩
  rw [h.count_values shows, tight.count_values shown linked]
  exact Contents.count_insert m s.letters v x

/-- What is handed over is the value there was. -/
theorem Tidy.store_old (h : t.Tidy r) {s : Spelling} {v : α} {old : Option α}
    (e : t.store r s v = .ok (old, u, r')) : old = t.fetch? s := by
  obtain ⟨m, shows⟩ := h.housed.sound.toLinked.exists_shows
  have stored := h.housed.store shows s v
  rw [e] at stored
  obtain ⟨-, -, rfl, -, -⟩ := stored
  exact (shows.fetch? h.housed.sound.toLinked s).symm

/-- **Deleting** hands over the value there was. -/
theorem Tidy.delete (h : t.Tidy r) {readOnly : α → Bool} {s : Spelling} {old : Option α}
    (e : t.delete r readOnly s = .ok (old, u, r')) : u.Tidy r' ∧ r.Turns r' ∧
      ∀ x, u.values.count x + old.toList.count x = t.values.count x := by
  obtain ⟨m, shows⟩ := h.housed.sound.toLinked.exists_shows
  have deleted := h.housed.delete shows readOnly s
  rw [e] at deleted
  obtain ⟨housed, shown, rfl, -, turns⟩ := deleted
  have linked := housed.sound.toLinked
  have tight : u.Tight := by
    refine shown.tight linked fun x => ?_
    have at_most := count_delete (x := x) e
    have erased := Contents.count_erase m s.letters x
    rw [h.count_values shows] at at_most
    omega
  refine ⟨⟨housed, tight⟩, turns, fun x => ?_⟩
  rw [h.count_values shows, tight.count_values shown linked]
  exact Contents.count_erase m s.letters x

omit [DecidableEq α] in
/-- **Reserving** leaves the arena alone. -/
theorem values_reserve {n : Nat} (e : t.reserve n = .ok u) : u.values = t.values := by
  unfold Table.reserve at e
  dsimp only at e
  split at e
  · cases e
  split at e
  · cases e
    rfl
  split at e
  · cases e
  · cases e
    rfl

theorem Tidy.reserve (h : t.Tidy r) {n : Nat} (e : t.reserve n = .ok u) : u.Tidy r := by
  obtain ⟨m, shows⟩ := h.housed.sound.toLinked.exists_shows
  obtain ⟨housed, shown⟩ := h.housed.reserve shows e
  refine ⟨housed, shown.tight housed.sound.toLinked fun x => ?_⟩
  rw [values_reserve e, h.count_values shows]

theorem Tidy.setRestricted (h : t.Tidy r) (restricted : Bool) : Tidy { t with restricted } r := by
  obtain ⟨m, shows⟩ := h.housed.sound.toLinked.exists_shows
  exact ⟨(h.housed.setMarks shows restricted t.pinned).1, h.tight⟩

/-- Places that lose their values one after the other. -/
theorem count_foldl_setValue {places : List Nat} (nodup : places.Nodup) (x : α) :
    (places.foldl (fun t i => t.setValue i none) t).values.count x +
      (places.filterMap t.valueAt).count x ≤ t.values.count x := by
  induction places generalizing t with
  | nil => simp
  | cons i places ih =>
    obtain ⟨out, nodup⟩ := List.nodup_cons.mp nodup
    have first := count_setValue (x := x) t i none
    have rest := ih (t := t.setValue i none) nodup
    have same : places.filterMap (t.setValue i none).valueAt = places.filterMap t.valueAt := by
      refine List.filterMap_congr fun j hj => ?_
      have other : i ≠ j := fun e => out (e ▸ hj)
      rw [valueAt_eq, valueAt_eq, contentAt_setValue, if_neg other]
    have both : ((i :: places).filterMap t.valueAt).count x =
        (t.valueAt i).toList.count x + (places.filterMap t.valueAt).count x := by
      cases found : t.valueAt i <;> simp [found, List.count_cons, Nat.add_comm]
    rw [same] at rest
    rw [List.foldl_cons, both]
    simp only [Option.toList_none, List.count_nil] at first
    omega

/-- **Clearing** a restricted table hands over every value. -/
theorem Tidy.clear (h : t.Tidy r) (restricted : t.restricted = true) {readOnly : α → Bool}
    {gone : List α} (e : t.clear r readOnly = .ok (gone, u, r')) : u.Tidy r' ∧ r.Turns r' ∧
      ∀ x, u.values.count x + gone.count x = t.values.count x := by
  obtain ⟨housed, shown⟩ := h.housed.clear e
  unfold Table.clear at e
  rw [if_pos restricted] at e
  split at e
  · cases e
  cases e
  have linked := housed.sound.toLinked
  have nodup := h.housed.sound.toLinked.nodup_chained
  have tight := shown.tight linked fun x => by
    have lost : (t.chained.foldl (fun t i => t.setValue i none) t).values.count x +
        (t.chained.filterMap t.valueAt).count x ≤ t.values.count x := count_foldl_setValue nodup x
    rw [← liveValues_eq, ← h.tight] at lost
    show (t.chained.foldl (fun t i => t.setValue i none) t).values.count x ≤ 0
    omega
  refine ⟨⟨housed, tight⟩, .refl h.housed.ring, fun x => ?_⟩
  rw [tight.count_values shown linked, h.tight]
  exact Nat.zero_add _

end

end ScriptCore.Table
