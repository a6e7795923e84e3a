import ScriptCore.Proofs.Table.Growth
import ScriptCore.Table.Update

/-!
# Table — the values that a table holds

What storing and deleting hand over has left the table, and a value that is stored has come to it
once at most (`count_store`, `count_delete`).  Growth may drop placeholders, which have no values.
-/

namespace ScriptCore.Table
variable {α : Type} [DecidableEq α] {t u : Table α} {i : Nat} {x : α}

/-! ### Places -/

/-- How often a list yields something when one of its members is changed. -/
theorem count_filterMap_modify {β : Type} (f : β → Option α) (g : β → β) (l : List β) (i : Nat) :
    ((l.modify i g).filterMap f).count x + (l[i]?.bind f).toList.count x =
      (l.filterMap f).count x + (l[i]?.bind fun b => f (g b)).toList.count x := by
  induction l generalizing i with
  | nil => simp
  | cons b l ih =>
    cases i with
    | zero =>
      cases hb : f b <;> cases hg : f (g b) <;> simp [hb, hg, List.count_cons, Nat.add_right_comm]
    | succ i =>
      have := ih i
      cases hb : f b <;> simp [hb, List.count_cons] <;> omega

/-- A place gets another value, and gives up the one it had. -/
theorem count_setValue (t : Table α) (i : Nat) (v : Option α) :
    (t.setValue i v).values.count x + (t.valueAt i).toList.count x ≤
      t.values.count x + v.toList.count x := by
  have changed := count_filterMap_modify (x := x) (fun e : Option (Entry α) => e.bind (·.value))
    (fun e => e.map fun e => { e with value := v }) t.entries.toList i
  unfold values valueAt entry? setValue
  rw [Array.toList_modify]
  rw [Array.getElem?_toList] at changed
  cases there : t.entries[i]? with
  | none => simp_all
  | some e => cases e <;> simp_all

/-- A freed place gives up the value it had. -/
theorem count_freePlace (t : Table α) (i : Nat) :
    (t.freePlace i).1.values.count x + (t.valueAt i).toList.count x = t.values.count x := by
  have changed := count_filterMap_modify (x := x) (fun e : Option (Entry α) => e.bind (·.value))
    (fun _ => none) t.entries.toList i
  unfold values valueAt entry? freePlace
  rw [Array.toList_setIfInBounds, List.set_eq_modify]
  rw [Array.getElem?_toList] at changed
  cases there : t.entries[i]? <;> simp_all

/-- A place that is filled gets the value of its entry. -/
theorem count_allocate (t : Table α) (e : Entry α) :
    (t.allocate e).2.values.count x ≤ t.values.count x + e.value.toList.count x := by
  unfold allocate
  split
  · rename_i i _ _
    have changed := count_filterMap_modify (x := x)
      (fun e : Option (Entry α) => e.bind (·.value)) (fun _ => some e) t.entries.toList i
    unfold values
    rw [Array.toList_setIfInBounds, List.set_eq_modify]
    rw [Array.getElem?_toList] at changed
    cases there : t.entries[i]? <;> simp_all
    omega
  · unfold values
    rw [Array.toList_push, List.filterMap_append, List.count_append]
    cases value : e.value <;> simp [value]

omit [DecidableEq α] in
/-- What is found is held. -/
theorem mem_values_of_fetch? {s : Spelling} (found : t.fetch? s = some x) : x ∈ t.values := by
  obtain ⟨i, -, hx⟩ := Option.bind_eq_some_iff.mp found
  obtain ⟨e, he, hx⟩ := Option.bind_eq_some_iff.mp hx
  have there : t.entries[i]? = some (some e) := Option.join_eq_some_iff.mp he
  rw [← Array.getElem?_toList] at there
  exact List.mem_filterMap.mpr ⟨some e, List.mem_of_getElem? there, hx⟩

omit [DecidableEq α] in
/-- A table does not look at more than the letters of a spelling. -/
theorem fetch?_congr (t : Table α) {s s' : Spelling} (letters : s.letters = s'.letters) :
    t.fetch? s = t.fetch? s' := by
  have bytes : s.bytes = s'.bytes := congrArg Prod.fst letters
  have wide : s.wide = s'.wide := congrArg Prod.snd letters
  unfold fetch? locate hashOf answers Key.matchesSpelling
  rw [bytes, wide]

/-! ### Removing -/

theorem count_remove (t : Table α) (i : Nat) :
    (t.remove i).1.values.count x + (t.valueAt i).toList.count x ≤ t.values.count x := by
  have blank : ((t.unlink i).setValue i none).values.count x + (t.valueAt i).toList.count x ≤
      t.values.count x := count_setValue (t.unlink i) i none
  unfold remove
  dsimp only
  split
  · exact blank
  · have freed := count_freePlace (x := x) ((t.unlink i).setValue i none) i
    omega

theorem count_foldl_remove (places : List Nat) (ks : List Key) :
    (places.foldl (fun (t, ks) i =>
      let (t, k) := t.remove i
      (t, ks ++ k)) (t, ks)).1.values.count x ≤ t.values.count x := by
  induction places generalizing t ks with
  | nil => exact Nat.le_refl _
  | cons i places ih =>
    have first := count_remove (x := x) t i
    exact Nat.le_trans (ih (t := (t.remove i).1) _) (Nat.le_of_add_right_le first)

theorem count_dropPlaceholders (t : Table α) :
    t.dropPlaceholders.1.values.count x ≤ t.values.count x :=
  count_foldl_remove (t.chained.filter t.isPlaceholder) []

/-! ### Growth -/

omit [DecidableEq α] in
/-- **A new seed** leaves every value in its place. -/
theorem values_reseed (t : Table α) (supply : Supply) :
    (t.reseed supply).1.values = t.values := by
  have size := (reseed_entries t supply).1
  have there (u : Table α) (i : Nat) (hi : i < u.entries.size) :
      u.entries[i].bind (·.value) = u.valueAt i := by
    unfold valueAt entry?
    rw [Array.getElem?_eq_getElem hi, Option.join_some]
  have same : (t.reseed supply).1.entries.toList.map (·.bind (·.value)) =
      t.entries.toList.map (·.bind (·.value)) := by
    refine List.ext_getElem (by simpa using size) fun i hi hi' => ?_
    rw [List.length_map, Array.length_toList] at hi hi'
    rw [List.getElem_map, List.getElem_map, Array.getElem_toList, Array.getElem_toList,
      there _ i hi, there _ i hi', valueAt_eq, valueAt_eq, contentAt_reseed]
  have yielded := congrArg (List.filterMap id) same
  rwa [List.filterMap_map, List.filterMap_map] at yielded

theorem count_split (t : Table α) (supply : Supply) :
    (t.split supply).1.values.count x ≤ t.values.count x := by
  have cleared : (if 0 < t.placeholders ∧ t.restricted = false then t.dropPlaceholders
      else (t, [])).1.values.count x ≤ t.values.count x := by
    split
    · exact count_dropPlaceholders t
    · exact Nat.le_refl _
  unfold split
  generalize (if 0 < t.placeholders ∧ t.restricted = false then t.dropPlaceholders
    else (t, [])) = w at cleared
  dsimp only
  split
  · dsimp only
    rw [values_reseed]
    exact cleared
  · exact cleared

/-- **Adding** an entry brings its value. -/
theorem count_add (t : Table α) (key : Key) (v : α) (supply : Supply) :
    (t.add key v supply).2.1.values.count x ≤ t.values.count x + [v].count x := by
  have linked : (t.link ⟨key, some v⟩).2.values.count x ≤ t.values.count x + [v].count x :=
    count_allocate t ⟨key, some v⟩
  unfold add
  dsimp only
  split
  · exact Nat.le_trans (count_split _ supply) linked
  · exact linked

/-! ### Updates -/

/-- **Storing** brings the value, and takes out the one that is handed over. -/
theorem count_store {r r' : Keyring} {s : Spelling} {v : α} {old : Option α}
    (e : t.store r s v = .ok (old, u, r')) :
    u.values.count x + old.toList.count x ≤ t.values.count x + [v].count x := by
  unfold Table.store at e
  split at e
  · rename_i i _
    have set := count_setValue (x := x) t i (some v)
    dsimp only at e
    split at e <;> cases e <;> exact set
  · split at e
    · cases e
    · cases e
      exact count_add t _ v _

/-- **Deleting** takes out the value that is handed over. -/
theorem count_delete {r r' : Keyring} {readOnly : α → Bool} {s : Spelling} {old : Option α}
    (e : t.delete r readOnly s = .ok (old, u, r')) :
    u.values.count x + old.toList.count x ≤ t.values.count x := by
  unfold Table.delete at e
  split at e
  · split at e
    · cases e
    · cases e
      exact Nat.le_refl _
  · rename_i i _
    split at e
    · cases e
      exact Nat.le_refl _
    · rename_i v there
      split at e
      · split at e
        · cases e
        · cases e
          have set := count_setValue (x := x) t i none
          rwa [there] at set
      · cases e
        have removed := count_remove (x := x) t i
        rwa [there] at removed

end ScriptCore.Table
