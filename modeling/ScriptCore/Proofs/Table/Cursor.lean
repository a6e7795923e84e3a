import ScriptCore.Proofs.Table.Removal

/-!
# Table — moving the cursor

A step of the cursor gives the place it had parked back and leaves the chains alone
(`Sound.rewind`, `Sound.step`).
-/

namespace ScriptCore.Table
variable {α : Type}

section
variable {t u : Table α} {i j : Nat}

/-- `u` is the table `t` but for its cursor, which has not parted, and the place it had parked. -/
structure Settles (t u : Table α) : Prop where
  linked : u.Linked
  chains : u.chains = t.chains
  entries : ∀ i ∈ t.chained, u.entry? i = t.entry? i
  settings : u.settings = t.settings
  total : u.total = t.total
  placeholders : u.placeholders = t.placeholders
  still : u.cursor.parted = false

/-- Where a cursor that has not parted may stand. -/
theorem Linked.setCursor (h : t.Linked) (still : t.parked = none) {c : Cursor}
    (hc : c.parted = false) (stands : ∀ i, c.current = some i → i ∈ t.chained) :
    Linked { t with cursor := c } where
  positive := h.positive
  placed := h.placed
  places := by
    have := h.places
    rw [still] at this
    show (t.chained ++ (t.free ++ (if c.parted then c.current else none).toList)).Perm _
    rwa [hc]
  vacant := h.vacant
  filled i hi := h.filled i (hi.imp_right fun e => by simp [parked, hc] at e)
  hashed := h.hashed
  distinct := h.distinct
  standing i hi := .inl (stands i hi)
  parted hp := by rw [hc] at hp; cases hp
  next hp := by rw [hc] at hp; cases hp

theorem settles_settle (h : t.Linked) : t.Settles t.settle.1 := by
  unfold settle
  cases hp : t.cursor.parted with
  | false =>
    have still : t.parked = none := by simp [parked, hp]
    refine ⟨h.setCursor still rfl fun i hi => ?_, rfl, fun _ _ => rfl, rfl, rfl, rfl, rfl⟩
    exact (h.standing i hi).resolve_right (by simp [still])
  | true =>
    obtain ⟨i, hi⟩ := Option.isSome_iff_exists.mp (h.parted hp)
    have parked : t.parked = some i := by simp [Table.parked, hp, hi]
    have apart : i ∉ t.chained := h.not_chained_of_parked parked
    rw [hi]
    -- the place that was parked goes to the free list
    set c : Cursor := { t.cursor with parted := false, current := none, next := none }
    set u := (Table.freePlace { t with cursor := c } i).1
    have entry (j : Nat) : u.entry? j = if i = j then none else t.entry? j := entry?_freePlace
    have old {j : Nat} (hj : j ∈ t.chained) : u.entry? j = t.entry? j := by
      rw [entry, if_neg]
      rintro rfl
      exact apart hj
    refine ⟨⟨h.positive, fun b j hj => ?_, ?_, fun j hj => ?_, fun j hj => ?_, fun j e he => ?_,
      fun j k hj hk e => ?_, fun j hj => ?_, fun hp => ?_, fun hp => ?_⟩, rfl, fun j hj => old hj,
      rfl, rfl, rfl, rfl⟩
    · rw [hashAt, old (mem_chained_iff.mpr ⟨b, hj⟩)]
      exact h.placed b j hj
    · have := h.places
      rw [parked] at this
      show (t.chained ++ (i :: t.free ++ [])).Perm
        (List.range (t.entries.setIfInBounds i none).size)
      rw [Array.size_setIfInBounds, List.append_nil]
      exact ((List.perm_append_singleton i t.free).symm.append_left _).trans this
    · rw [entry]
      split
      · rfl
      · exact h.vacant j ((List.mem_cons.mp hj).resolve_left (Ne.symm (by assumption)))
    · rcases hj with hj | hj
      · rw [old hj]
        exact h.filled j (.inl hj)
      · cases hj
    · rw [entry] at he
      split at he
      · cases he
      · exact h.hashed j e he
    · rw [lettersAt, lettersAt, old hj, old hk] at e
      exact h.distinct j k hj hk e
    · cases hj
    · cases hp
    · cases hp

/-! ### Stepping -/

theorem Settles.parked (h : t.Settles u) : u.parked = none := by simp [Table.parked, h.still]

theorem Settles.sound (h : t.Settles u) (sound : t.Sound) : u.Sound :=
  sound.of_linked h.linked (congrArg Settings.buckets h.settings) h.total h.placeholders
    (by rw [chained, h.chains]; rfl) fun i hi => by rw [contentAt, h.entries i hi]; rfl

theorem Settles.binds_iff (h : t.Settles u) {x : Bytes × Bool} {o : Option α} :
    u.Binds x o ↔ t.Binds x o := by
  have chained : u.chained = t.chained := by rw [Table.chained, h.chains]; rfl
  unfold Binds
  rw [chained]
  refine exists_congr fun i => and_congr_right fun hi => ?_
  rw [contentAt, h.entries i hi]
  rfl

/-- Moving the cursor over a table that has settled. -/
theorem Sound.setCursor (h : t.Sound) (still : t.parked = none) {c : Cursor}
    (hc : c.parted = false) (stands : ∀ i, c.current = some i → i ∈ t.chained) :
    Sound { t with cursor := c } :=
  h.of_linked (h.toLinked.setCursor still hc stands) rfl rfl rfl (.refl _) fun _ _ => rfl

/-- A walk goes on within a chain. -/
theorem mem_of_mem_resume (hi : i ∈ t.resume) : i ∈ t.chained := by
  unfold resume at hi
  dsimp only at hi
  split at hi
  · cases hi
  · exact mem_chained_iff.mpr ⟨_, (List.dropWhile_sublist _).subset hi⟩

theorem mem_of_firstShown {w : Bool} {b b' : Option Nat} {rest : List Nat}
    (h : t.firstShown w b rest = some (b', i)) : i ∈ rest ∨ i ∈ t.chained := by
  unfold firstShown at h
  dsimp only at h
  split at h
  · rename_i found
    cases h
    exact .inl (List.mem_of_find?_eq_some found)
  · obtain ⟨c, -, hc⟩ := List.exists_of_findSome?_eq_some h
    obtain ⟨k, found, e⟩ := Option.map_eq_some_iff.mp hc
    cases e
    exact .inr (mem_chained_iff.mpr ⟨c, List.mem_of_find?_eq_some found⟩)

/-- **Rewinding** keeps a table sound, with what it holds. -/
theorem Sound.rewind (h : t.Sound) : t.rewind.2.1.Sound ∧ t.rewind.2.1.settings = t.settings ∧
    ∀ x o, t.rewind.2.1.Binds x o ↔ t.Binds x o := by
  have s := settles_settle h.toLinked
  refine ⟨(s.sound h).setCursor s.parked rfl fun i hi => ?_, s.settings, fun x o => s.binds_iff⟩
  cases hi

/-- **A step of the cursor** keeps a table sound, with what it holds. -/
theorem Sound.step (h : t.Sound) (w : Bool) :
    (t.step w).2.1.Sound ∧ (t.step w).2.1.settings = t.settings ∧
      ∀ x o, (t.step w).2.1.Binds x o ↔ t.Binds x o := by
  have s := settles_settle h.toLinked
  unfold Table.step
  dsimp only
  split
  · refine ⟨(s.sound h).setCursor s.parked rfl fun i hi => ?_, s.settings, fun x o => s.binds_iff⟩
    cases hi
  · rename_i b i found
    refine ⟨(s.sound h).setCursor s.parked rfl fun j hj => ?_, s.settings, fun x o => s.binds_iff⟩
    cases hj
    refine (mem_of_firstShown found).elim (fun hr => ?_) id
    rw [Table.chained, s.chains]
    exact mem_of_mem_resume hr

end

end ScriptCore.Table
