import ScriptCore.Proofs.Table.Linked

/-!
# Table — taking entries out

`Removes t gone u` says that `u` is the linked table `t` without the places `gone`: the rest of
the chains, their entries and the settings stay.

* `removes_remove`: an entry that is taken out leaves the rest alone, also when the cursor stands
  on it or was to go on from it.
* `Counted.dropPlaceholders`: without its placeholders a table holds what has a value.
-/

namespace ScriptCore.Table
variable {α : Type}

/-- What an operation on places leaves alone. -/
structure Settings where
  seed : Seed
  restricted : Bool
  rehashed : Bool
  countsKeys : Bool
  pinned : Bool
  pool : Option Nat
  buckets : Nat

/-- The settings of a table. -/
def settings (t : Table α) : Settings :=
  ⟨t.seed, t.restricted, t.rehashed, t.countsKeys, t.pinned, t.pool, t.buckets⟩

/-- A later table that is restricted as before, and has the seed for good if the earlier had. -/
structure Fixed (t u : Table α) : Prop where
  restricted : u.restricted = t.restricted
  seed : t.mayReseed = false → u.mayReseed = false ∧ u.seed = t.seed

theorem Fixed.refl (t : Table α) : t.Fixed t := ⟨rfl, fun h => ⟨h, rfl⟩⟩

theorem Fixed.of_settings {t u : Table α} (h : u.settings = t.settings) : t.Fixed u where
  restricted := congrArg Settings.restricted h
  seed settled := by
    simp only [settings, Settings.mk.injEq] at h
    obtain ⟨seed, -, rehashed, countsKeys, pinned, -⟩ := h
    refine ⟨?_, seed⟩
    unfold mayReseed at settled ⊢
    rwa [rehashed, countsKeys, pinned]

/-- `u` is the table `t` without the chained places `gone`. -/
structure Removes (t : Table α) (gone : List Nat) (u : Table α) : Prop where
  linked : u.Linked
  chained : t.chained.Perm (gone ++ u.chained)
  entries : ∀ j ∉ gone, u.entry? j = t.entry? j
  settings : u.settings = t.settings
  total : u.total = t.total
  placeholders : u.placeholders = t.placeholders

section
variable {t u v : Table α} {gone more : List Nat} {i j : Nat}

theorem Removes.refl (h : t.Linked) : t.Removes [] t := ⟨h, .refl _, fun _ _ => rfl, rfl, rfl, rfl⟩

theorem Removes.trans (h : t.Removes gone u) (h' : u.Removes more v) :
    t.Removes (gone ++ more) v where
  linked := h'.linked
  chained := by
    rw [List.append_assoc]
    exact h.chained.trans (h'.chained.append_left gone)
  entries j hj := by
    rw [List.mem_append, not_or] at hj
    rw [h'.entries j hj.2, h.entries j hj.1]
  settings := h'.settings.trans h.settings
  total := h'.total.trans h.total
  placeholders := h'.placeholders.trans h.placeholders

/-! ### What follows a place -/

theorem successor_eq_some {c : List Nat} (nodup : c.Nodup) (h : successor i c = some j) :
    j ∈ c ∧ j ≠ i := by
  unfold successor at h
  have sub : (c.dropWhile (· ≠ i)).Sublist c := List.dropWhile_sublist _
  have first := List.head?_dropWhile_not (· ≠ i) c
  generalize c.dropWhile (· ≠ i) = d at h sub first
  cases d with
  | nil => cases h
  | cons k rest =>
    obtain rfl : k = i := by simpa using first
    have mem : j ∈ rest := List.mem_of_mem_head? h
    refine ⟨sub.subset (List.mem_cons_of_mem _ mem), ?_⟩
    rintro rfl
    exact (List.nodup_cons.mp (nodup.sublist sub)).1 mem

/-! ### Unlinking -/

theorem chain_modify (f : List Nat → List Nat) (hf : f [] = []) {cs : Array (List Nat)}
    {b c : Nat} : (cs.modify b f).getD c [] = if b = c then f (cs.getD c []) else cs.getD c [] := by
  simp only [Array.getD_eq_getD_getElem?, Array.getElem?_modify]
  split
  · cases cs[c]? <;> simp [hf]
  · rfl

theorem perm_chained_unlink (h : t.Linked) (hi : i ∈ t.chained) :
    t.chained.Perm (i :: (t.unlink i).chained) := perm_flatten_erase (h.mem_chain hi)

theorem mem_unlink (h : t.Linked) (hi : i ∈ t.chained) (hj : j ∈ t.chained) (ne : j ≠ i) :
    j ∈ (t.unlink i).chained :=
  (List.mem_cons.mp ((perm_chained_unlink h hi).mem_iff.mp hj)).resolve_left ne

theorem mem_chain_of_unlink {b : Nat} (hj : j ∈ (t.unlink i).chain b) : j ∈ t.chain b := by
  unfold unlink chain at hj
  rw [chain_modify _ rfl] at hj
  split at hj
  · exact List.mem_of_mem_erase hj
  · exact hj

theorem nodup_chain (h : t.Linked) (b : Nat) : (t.chain b).Nodup := by
  cases hb : t.chains[b]? with
  | none => simp [chain, Array.getD_eq_getD_getElem?, hb]
  | some c =>
    have : c.Sublist t.chained :=
      List.sublist_flatten_of_mem (List.mem_iff_getElem?.mpr ⟨b, by simpa using hb⟩)
    simpa [chain, Array.getD_eq_getD_getElem?, hb] using h.nodup_chained.sublist this

theorem current_unlink : (t.unlink i).cursor.current = t.cursor.current := by
  unfold unlink
  dsimp only
  split <;> rfl

theorem parted_unlink : (t.unlink i).cursor.parted = t.cursor.parted := by
  unfold unlink
  dsimp only
  split <;> rfl

/-- A cursor that has parted goes on from a place that is still chained. -/
theorem next_unlink (h : t.Linked) (hi : i ∈ t.chained) (hp : t.cursor.parted = true)
    (hj : (t.unlink i).cursor.next = some j) : j ∈ (t.unlink i).chained := by
  unfold unlink at hj
  dsimp only at hj
  split at hj
  · obtain ⟨mem, ne⟩ := successor_eq_some (nodup_chain h _) hj
    exact mem_unlink h hi (mem_chained_iff.mpr ⟨_, mem⟩) ne
  · -- the link it had does not lead to `i`, or it would have been moved on
    refine mem_unlink h hi (h.next hp j hj) ?_
    rintro rfl
    exact (by assumption : ¬ (t.cursor.parted = true ∧ t.cursor.next = some j)) ⟨hp, hj⟩

/-! ### Removing -/

theorem entry?_freePlace : entry? (t.freePlace i).1 j = if i = j then none else t.entry? j := by
  unfold freePlace entry?
  rw [Array.getElem?_setIfInBounds]
  split
  · split <;> rfl
  · rfl

/-- What makes a table one without the place `i`: its chains have `i` unlinked, and its free list
and cursor have got the place. -/
theorem Removes.of_unlink (h : t.Linked) (hi : i ∈ t.chained)
    (chains : u.chains = (t.unlink i).chains) (entries : ∀ j ≠ i, u.entry? j = t.entry? j)
    (settings : u.settings = t.settings) (total : u.total = t.total)
    (placeholders : u.placeholders = t.placeholders) (size : u.entries.size = t.entries.size)
    (places : (i :: (t.free ++ t.parked.toList)).Perm (u.free ++ u.parked.toList))
    (vacant : ∀ j ∈ u.free, u.entry? j = none)
    (filled : ∀ j, u.parked = some j → (u.entry? j).isSome)
    (hashed : ∀ e, u.entry? i = some e → e.key.hash = t.seed.hash e.key.bytes)
    (standing : ∀ j, u.cursor.current = some j → j ∈ u.chained ∨ u.parked = some j)
    (parted : u.cursor.parted = true → u.cursor.current.isSome)
    (next : u.cursor.parted = true → ∀ j, u.cursor.next = some j → j ∈ u.chained) :
    t.Removes [i] u := by
  have chained : u.chained = (t.unlink i).chained := by rw [Table.chained, chains]; rfl
  have perm : t.chained.Perm (i :: u.chained) := chained ▸ perm_chained_unlink h hi
  have apart : i ∉ u.chained := (List.nodup_cons.mp (perm.nodup h.nodup_chained)).1
  have back {j : Nat} (hj : j ∈ u.chained) : j ∈ t.chained ∧ u.entry? j = t.entry? j :=
    ⟨perm.mem_iff.mpr (List.mem_cons_of_mem _ hj), entries j fun e => apart (e ▸ hj)⟩
  have buckets : u.buckets = t.buckets := congrArg Settings.buckets settings
  have seed : u.seed = t.seed := congrArg Settings.seed settings
  refine ⟨⟨?_, ?_, ?_, vacant, ?_, ?_, ?_, standing, parted, next⟩, perm,
    fun j hj => entries j (by simpa using hj), settings, total, placeholders⟩
  · rw [buckets]
    exact h.positive
  · intro b j hj
    rw [bucketOf, buckets, hashAt, (back (mem_chained_iff.mpr ⟨b, hj⟩)).2]
    rw [chain, chains] at hj
    exact h.placed b j (mem_chain_of_unlink hj)
  · rw [size]
    refine .trans ?_ h.places
    exact (places.symm.append_left _).trans (List.perm_middle.trans (perm.symm.append_right _))
  · rintro j (hj | hj)
    · rw [(back hj).2]
      exact h.filled j (.inl (back hj).1)
    · exact filled j hj
  · intro j e he
    rw [seed]
    by_cases hj : j = i
    · exact hashed e (hj ▸ he)
    · exact h.hashed j e (entries j hj ▸ he)
  · intro j k hj hk e
    rw [lettersAt, lettersAt, (back hj).2, (back hk).2] at e
    exact h.distinct j k (back hj).1 (back hk).1 e

/-- The entry that the cursor stands on keeps its place, without a value. -/
theorem removes_under_cursor (h : t.Linked) (hi : i ∈ t.chained)
    (stands : t.cursor.current = some i) (next : Option Nat)
    (hn : ∀ j, next = some j → j ∈ (t.unlink i).chained) :
    let w := (t.unlink i).setValue i none
    t.Removes [i] { w with cursor := { w.cursor with parted := true, next } } := by
  intro w
  have unparked : t.parked = none := by
    unfold parked
    split
    · exact absurd hi (h.not_chained_of_parked (by simp [parked, *]))
    · rfl
  have current : w.cursor.current = some i := current_unlink.trans stands
  have entry (j : Nat) : w.entry? j =
      if i = j then (t.entry? j).map ({ · with value := none }) else t.entry? j := entry?_setValue
  refine .of_unlink h hi rfl (fun j hj => ?_) ?_ rfl rfl ?_ ?_ (fun j hj => ?_) (fun j hj => ?_)
    (fun e he => ?_) (fun j hj => .inr hj) (fun _ => ?_) fun _ => hn
  · exact (entry j).trans (if_neg (Ne.symm hj))
  · simp [settings, w, setValue, unlink, buckets]
  · simp [w, setValue, unlink]
  · -- the place goes from the chains to the cursor
    show (i :: (t.free ++ t.parked.toList)).Perm (t.free ++ w.cursor.current.toList)
    rw [unparked, current]
    simpa using (List.perm_append_singleton i t.free).symm
  · refine (entry j).trans ?_
    rw [if_neg, h.vacant j hj]
    rintro rfl
    exact h.not_chained_of_free hj hi
  · obtain rfl : i = j := Option.some.inj (current.symm.trans hj)
    show (w.entry? i).isSome
    rw [entry, if_pos rfl, Option.isSome_map]
    exact h.filled i (.inl hi)
  · obtain ⟨e', he', rfl⟩ := Option.map_eq_some_iff.mp
      ((if_pos rfl).symm.trans ((entry i).symm.trans he))
    exact h.hashed i e' he'
  · show w.cursor.current.isSome
    rw [current]
    rfl

/-- An entry that the cursor does not stand on gives its place back. -/
theorem removes_freePlace (h : t.Linked) (hi : i ∈ t.chained)
    (stands : t.cursor.current ≠ some i) :
    t.Removes [i] (((t.unlink i).setValue i none).freePlace i).1 := by
  set w := (t.unlink i).setValue i none
  have cursor : (w.freePlace i).1.cursor = (t.unlink i).cursor := rfl
  have parked : (w.freePlace i).1.parked = t.parked := by
    rw [Table.parked, cursor, current_unlink, parted_unlink]
    rfl
  have entry (j : Nat) : entry? (w.freePlace i).1 j = if i = j then none else t.entry? j := by
    rw [entry?_freePlace]
    split
    · rfl
    · exact entry?_setValue.trans (if_neg (by assumption))
  refine .of_unlink h hi rfl (fun j hj => ?_) ?_ rfl rfl ?_ ?_ (fun j hj => ?_) (fun j hj => ?_)
    (fun e he => ?_) (fun j hj => ?_) (fun hp => ?_) fun hp j hj => ?_
  · exact (entry j).trans (if_neg (Ne.symm hj))
  · simp [settings, freePlace, w, setValue, unlink, buckets]
  · simp [freePlace, w, setValue, unlink]
  · rw [parked]
    exact .refl _
  · rw [entry]
    split
    · rfl
    · exact h.vacant j ((List.mem_cons.mp hj).resolve_left (Ne.symm (by assumption)))
  · rw [parked] at hj
    rw [entry, if_neg]
    · exact h.filled j (.inr hj)
    · rintro rfl
      exact h.not_chained_of_parked hj hi
  · rw [entry, if_pos rfl] at he
    cases he
  · rw [cursor, current_unlink] at hj
    rw [parked]
    refine (h.standing j hj).imp_left fun hc => ?_
    have stays : j ∈ (t.unlink i).chained := mem_unlink h hi hc fun e => stands (e ▸ hj)
    exact stays
  · rw [cursor, parted_unlink] at hp
    rw [cursor, current_unlink]
    exact h.parted hp
  · rw [cursor] at hp hj
    rw [Table.chained, show (w.freePlace i).1.chains = (t.unlink i).chains from rfl]
    exact next_unlink h hi (parted_unlink.symm.trans hp) hj

/-- **Removing.**  An entry that is taken out leaves the rest alone, wherever the cursor is. -/
theorem removes_remove (h : t.Linked) (hi : i ∈ t.chained) : t.Removes [i] (t.remove i).1 := by
  unfold remove
  dsimp only
  split
  · refine removes_under_cursor h hi (current_unlink.symm.trans (by assumption)) _ fun j hj => ?_
    obtain ⟨mem, ne⟩ := successor_eq_some (nodup_chain h _) hj
    exact mem_unlink h hi (mem_chained_iff.mpr ⟨_, mem⟩) ne
  · refine removes_freePlace h hi fun stands => ?_
    exact (by assumption : ¬ _ = some i) (current_unlink.trans stands)

/-- What is chained once places are gone. -/
theorem Removes.mem_chained_iff (h : t.Removes gone u) (linked : t.Linked) :
    i ∈ u.chained ↔ i ∈ t.chained ∧ i ∉ gone := by
  have nodup := (List.nodup_append.mp (h.chained.nodup linked.nodup_chained)).2.2
  rw [h.chained.mem_iff, List.mem_append]
  constructor
  · exact fun hi => ⟨.inr hi, fun hg => nodup i hg i hi rfl⟩
  · exact fun ⟨hi, hg⟩ => hi.resolve_left hg

theorem Removes.kept (h : t.Removes gone u) (linked : t.Linked) (hi : i ∈ u.chained) :
    u.entry? i = t.entry? i := h.entries i ((h.mem_chained_iff linked).mp hi).2

/-- What is bound once places are gone. -/
theorem Removes.binds_iff (h : t.Removes gone u) (linked : t.Linked) {x : Bytes × Bool}
    {o : Option α} : u.Binds x o ↔ t.Binds x o ∧ ∀ j ∈ gone, t.lettersAt j ≠ some x := by
  have content {k : Nat} (hk : k ∉ gone) : u.contentAt k = t.contentAt k := by
    rw [contentAt, h.entries k hk]
    rfl
  constructor
  · rintro ⟨k, hk, c⟩
    obtain ⟨hk, apart⟩ := (h.mem_chained_iff linked).mp hk
    rw [content apart] at c
    refine ⟨⟨k, hk, c⟩, fun j hj letters => apart ?_⟩
    obtain rfl := linked.distinct j k (h.chained.mem_iff.mpr (List.mem_append_left _ hj)) hk
      (letters.trans (by simp [lettersAt_eq, c]))
    exact hj
  · rintro ⟨⟨k, hk, c⟩, absent⟩
    have apart : k ∉ gone := fun hg => absent k hg (by simp [lettersAt_eq, c])
    exact ⟨k, (h.mem_chained_iff linked).mpr ⟨hk, apart⟩, (content apart).trans c⟩

/-- A sound table without one of its live entries. -/
theorem Sound.remove (h : t.Sound) (hi : i ∈ t.chained) {x : Bytes × Bool} {v : α}
    (c : t.contentAt i = some (x, some v)) :
    Sound { (t.remove i).1 with total := (t.remove i).1.total - 1 } ∧
      (t.remove i).1.settings = t.settings ∧
      ∀ y o, (t.remove i).1.Binds y o ↔ t.Binds y o ∧ y ≠ x := by
  have r := removes_remove h.toLinked hi
  have live : t.isPlaceholder i = false := by simp [isPlaceholder_eq, c]
  generalize (t.remove i).1 = u at r
  have length := r.chained.length_eq
  have marked : u.chained.countP u.isPlaceholder = t.chained.countP t.isPlaceholder := by
    rw [r.chained.countP_eq, List.singleton_append, List.countP_cons_of_neg (by simp [live])]
    refine List.countP_congr fun j hj => ?_
    rw [isPlaceholder, r.kept h.toLinked hj]
    rfl
  have buckets : u.buckets = t.buckets := congrArg Settings.buckets r.settings
  refine ⟨⟨⟨?_, ?_, ?_, ?_⟩, ?_⟩, r.settings, fun y o => ?_⟩
  · exact r.linked.remarked (u.total - 1) u.placeholders u.restricted u.pinned
  · exact buckets ▸ h.power
  · show u.total - 1 = u.chained.length
    rw [r.total, h.counted, length]
    simp
  · exact r.placeholders.trans (h.marked.trans marked.symm)
  · show u.total - 1 ≤ u.buckets
    have := h.roomy
    rw [r.total, buckets]
    omega
  · rw [r.binds_iff h.toLinked]
    simp [lettersAt_eq, c, eq_comm]

/-! ### Dropping placeholders -/

theorem removes_foldl (h : t.Linked) (nodup : gone.Nodup) (sub : ∀ i ∈ gone, i ∈ t.chained)
    (ks : List Key) :
    t.Removes gone (gone.foldl (fun (t, ks) i =>
      let (t, k) := t.remove i
      (t, ks ++ k)) (t, ks)).1 := by
  induction gone generalizing t ks with
  | nil => exact .refl h
  | cons i gone ih =>
    have first := removes_remove h (sub i (List.mem_cons_self ..))
    obtain ⟨apart, nodup⟩ := List.nodup_cons.mp nodup
    refine first.trans (ih first.linked nodup (fun j hj => ?_) _)
    have hj' := first.chained.mem_iff.mp (sub j (List.mem_cons_of_mem _ hj))
    refine (List.mem_append.mp hj').resolve_left fun e => ?_
    obtain rfl := List.mem_singleton.mp e
    exact apart hj

/-- **Dropping placeholders.**  What has a value is left, in its place. -/
theorem Counted.dropPlaceholders (h : t.Counted) :
    t.dropPlaceholders.1.Counted ∧ t.dropPlaceholders.1.settings = t.settings ∧
      t.dropPlaceholders.1.total ≤ t.total ∧
      ∀ i x o, i ∈ t.dropPlaceholders.1.chained ∧
          t.dropPlaceholders.1.contentAt i = some (x, o) ↔
        i ∈ t.chained ∧ t.contentAt i = some (x, o) ∧ o.isSome = true := by
  have r := removes_foldl h.toLinked (h.nodup_chained.filter t.isPlaceholder)
    (fun i hi => (List.mem_filter.mp hi).1) []
  have shape : ∃ w : Table α, t.Removes (t.chained.filter t.isPlaceholder) w ∧
      t.dropPlaceholders.1 = { w with
        total := w.total - (t.chained.filter t.isPlaceholder).length
        placeholders := w.placeholders - (t.chained.filter t.isPlaceholder).length } :=
    ⟨_, r, rfl⟩
  -- the counts go down by as many as there were
  clear r
  obtain ⟨w, r, e⟩ := shape
  rw [e]
  have mem (i : Nat) : i ∈ w.chained ↔ i ∈ t.chained ∧ t.isPlaceholder i = false := by
    rw [r.mem_chained_iff h.toLinked, List.mem_filter, not_and, Bool.not_eq_true]
    exact and_congr_right fun hi => forall_prop_of_true hi
  have live (i : Nat) (hi : i ∈ w.chained) : w.isPlaceholder i = false := by
    rw [isPlaceholder, r.kept h.toLinked hi]
    exact ((mem i).mp hi).2
  have length := r.chained.length_eq
  rw [List.length_append] at length
  refine ⟨⟨?_, ?_, ?_, ?_⟩, r.settings, ?_, fun i x o => ?_⟩
  · exact r.linked.remarked _ _ w.restricted w.pinned
  · obtain ⟨k, hk⟩ := h.power
    exact ⟨k, (congrArg Settings.buckets r.settings).trans hk⟩
  · show w.total - _ = w.chained.length
    rw [r.total, h.counted]
    omega
  · show w.placeholders - _ = w.chained.countP w.isPlaceholder
    rw [r.placeholders, h.marked, List.countP_eq_length_filter, Nat.sub_self]
    exact (List.countP_eq_zero.mpr fun i hi => by simp [live i hi]).symm
  · show w.total - _ ≤ t.total
    rw [r.total]
    exact Nat.sub_le _ _
  · show i ∈ w.chained ∧ w.contentAt i = _ ↔ _
    have value (c : t.contentAt i = some (x, o)) : t.isPlaceholder i = false ↔ o.isSome = true := by
      rw [isPlaceholder_eq, c]
      cases o <;> simp
    constructor
    · rintro ⟨hi, c⟩
      rw [contentAt, r.kept h.toLinked hi] at c
      exact ⟨((mem i).mp hi).1, c, (value c).mp ((mem i).mp hi).2⟩
    · rintro ⟨hi, c, some⟩
      have hi := (mem i).mpr ⟨hi, (value c).mpr some⟩
      refine ⟨hi, ?_⟩
      rw [contentAt, r.kept h.toLinked hi]
      exact c

end

end ScriptCore.Table
