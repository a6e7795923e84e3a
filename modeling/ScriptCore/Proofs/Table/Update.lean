import ScriptCore.Proofs.Key.Pool
import ScriptCore.Proofs.Table.Contents
import ScriptCore.Table.Update

/-!
# Table — what updates do to the map

`Housed t r` is a sound table that keeps its keys in the keyring `r`.  Each update of a housed
table that shows a map leaves a housed table that shows the changed map, or refuses.
-/

namespace ScriptCore.Table
variable {α : Type}

/-- A sound table, whose pool is one of the sound pools of a keyring and has its seed. -/
structure Housed (t : Table α) (r : Keyring) : Prop where
  sound : t.Sound
  ring : r.Sound
  home : ∀ p, t.pool = some p → (r.pool p).seed = t.seed

section
variable {t u : Table α} {r r' : Keyring} {m : Contents α} {i : Nat}

/-- A table with the seed and the pool of a housed one. -/
theorem Housed.of_sound (h : Housed t r) (sound : u.Sound) (turns : r.Turns r')
    (seed : u.seed = t.seed) (pool : u.pool = t.pool) : Housed u r' where
  sound := sound
  ring := turns.sound
  home p hp := by
    rw [turns.seeds, seed]
    exact h.home p (pool ▸ hp)

/-! ### Changes of the map -/

theorem Shows.of_binds (h : t.Shows m) (binds : ∀ x v, u.Binds x (some v) ↔ t.Binds x (some v)) :
    u.Shows m := fun x v => (h x v).trans (binds x v).symm

theorem Shows.insert (h : t.Shows m) {x : Bytes × Bool} {v : α}
    (binds : ∀ y w, u.Binds y (some w) ↔ if y = x then w = v else t.Binds y (some w)) :
    u.Shows (m.insert x v) := by
  intro y w
  rw [binds]
  split
  · subst y
    rw [Finmap.lookup_insert, Option.some.injEq, eq_comm]
  · rw [Finmap.lookup_insert_of_ne _ (by assumption)]
    exact h y w

theorem Shows.erase (h : t.Shows m) {x : Bytes × Bool}
    (binds : ∀ y w, u.Binds y (some w) ↔ t.Binds y (some w) ∧ y ≠ x) : u.Shows (m.erase x) := by
  intro y w
  rw [binds]
  by_cases hy : y = x
  · subst y
    simp [Finmap.lookup_erase]
  · rw [Finmap.lookup_erase_ne hy, h y w]
    exact (and_iff_left hy).symm

/-! ### Storing -/

/-- A new value for an entry the table holds. -/
theorem Housed.setValue (h : Housed t r) (shows : t.Shows m) (hi : i ∈ t.chained)
    {x : Bytes × Bool} {o : Option α} (c : t.contentAt i = some (x, o)) (v : α) {n : Nat}
    (hn : n + o.isNone.toNat = t.placeholders) :
    Housed { t.setValue i (some v) with placeholders := n } r ∧
      Shows { t.setValue i (some v) with placeholders := n } (m.insert x v) := by
  refine ⟨h.of_sound (h.sound.setValue hi c hn) (.refl h.ring) rfl rfl,
    shows.insert fun y w => ?_⟩
  have := h.sound.toLinked.binds_setValue (v := some v) (y := y) (o := some w) hi (x := x)
    (by simp [lettersAt_eq, c])
  rwa [Option.some.injEq] at this

/-- Placeholders are counted. -/
theorem Sound.placeholders_pos (h : t.Sound) (hi : i ∈ t.chained) {x : Bytes × Bool}
    (c : t.contentAt i = some (x, none)) : 0 < t.placeholders := by
  rw [h.marked, List.countP_pos_iff]
  exact ⟨i, hi, by simp [isPlaceholder_eq, c]⟩

/-- **Inserting.**  A spelling the table does not hold is bound to the value. -/
theorem Housed.insertNew (h : Housed t r) (shows : t.Shows m) {s : Spelling}
    (absent : t.locate s = none) (v : α) :
    Housed (t.insertNew r s v).2.1 (t.insertNew r s v).2.2 ∧
      (t.insertNew r s v).2.1.Shows (m.insert s.letters v) ∧
        t.Fixed (t.insertNew r s v).2.1 ∧ r.Turns (t.insertNew r s v).2.2 := by
  obtain ⟨letters, hash, turns⟩ := h.ring.keyFor h.home s
  unfold Table.insertNew
  generalize r.keyFor t.pool s t.seed = k at letters hash turns
  obtain ⟨key, r'⟩ := k
  dsimp only at letters hash turns ⊢
  have unmet := (locate_eq_none_iff h.sound.toLinked).mp absent
  have a := h.sound.add key (by rwa [show key.bytes = s.bytes from
    congrArg Prod.fst letters]) (letters ▸ unmet) v r'.supply
  generalize t.add key v r'.supply = added at a
  obtain ⟨i, u, gone, supply⟩ := added
  dsimp only at a ⊢
  have turns' := (turns.draw supply).trans ((turns.draw supply).sound.releaseAll t.pool gone)
  refine ⟨⟨a.sound, turns'.sound, fun p hp => ?_⟩, shows.insert fun y w => ?_, a.fixed,
    turns'⟩
  · rcases a.home with ⟨seed, pool⟩ | ⟨-, none⟩
    · rw [turns'.seeds, seed]
      exact h.home p (pool ▸ hp)
    · rw [none] at hp
      cases hp
  · rw [a.binds_iff, letters]
    split
    · subst y
      refine ⟨fun hb => hb.elim (·.2) fun ⟨j, hj, c⟩ => ?_, fun hw => .inl ⟨rfl, hw⟩⟩
      exact absurd (by simp [lettersAt_eq, c]) (unmet j hj)
    · exact or_iff_right fun hy => (by assumption : ¬ y = s.letters) hy.1

/-- **Storing.**  The value is bound, and the one it replaced is given. -/
theorem Housed.store (h : Housed t r) (shows : t.Shows m) (s : Spelling) (v : α) :
    match t.store r s v with
    | .ok (old, u, r') =>
      Housed u r' ∧ u.Shows (m.insert s.letters v) ∧ old = m.lookup s.letters ∧
        t.Fixed u ∧ r.Turns r'
    | .error _ => t.restricted = true := by
  unfold Table.store
  rcases h.sound.locate_cases s with ⟨none, unbound⟩ | ⟨i, o, found, hi, c⟩
  · rw [none]
    dsimp only
    cases restricted : t.restricted with
    | true => rfl
    | false =>
      obtain ⟨housed, shown, fixed⟩ := h.insertNew shows none v
      exact ⟨housed, shown, (shows.lookup_eq_none unbound).symm, fixed⟩
  · rw [found]
    have old : t.valueAt i = o := by simp [valueAt_eq, c]
    dsimp only
    rw [old, shows.lookup_eq h.sound.toLinked ⟨i, hi, c⟩]
    cases o with
    | some w =>
      obtain ⟨housed, shown⟩ := h.setValue shows hi c v (n := t.placeholders) rfl
      exact ⟨housed, shown, rfl, .of_settings rfl, .refl h.ring⟩
    | none =>
      have := h.sound.placeholders_pos hi c
      obtain ⟨housed, shown⟩ := h.setValue shows hi c v (n := t.placeholders - 1)
        (by simp; omega)
      exact ⟨housed, shown, rfl, .of_settings rfl, .refl h.ring⟩

/-- An unrestricted table takes every value. -/
theorem Housed.store_free (h : Housed t r) (shows : t.Shows m) (free : t.restricted = false)
    (s : Spelling) (v : α) :
    ∃ u r', t.store r s v = .ok (m.lookup s.letters, u, r') ∧ Housed u r' ∧
      u.Shows (m.insert s.letters v) ∧ t.Fixed u ∧ r.Turns r' := by
  have stored := h.store shows s v
  cases e : t.store r s v with
  | error =>
    rw [e, free] at stored
    cases stored
  | ok result =>
    rw [e] at stored
    obtain ⟨old, u, r'⟩ := result
    obtain ⟨housed, shown, rfl, fixed, turns⟩ := stored
    exact ⟨u, r', rfl, housed, shown, fixed, turns⟩

/-- **Storing what is missing.**  The value is bound unless there is one, and the value that is
bound is given. -/
theorem Housed.fetchOrStore (h : Housed t r) (shows : t.Shows m) (s : Spelling) (v : α) :
    match t.fetchOrStore r s v with
    | .ok (w, u, r') => Housed u r' ∧
      u.Shows (if s.letters ∈ m then m else m.insert s.letters v) ∧
      w = (m.lookup s.letters).getD v
    | .error _ => t.restricted = true := by
  unfold Table.fetchOrStore
  have fetched := shows.fetch? h.sound.toLinked s
  cases found : t.fetch? s with
  | some old =>
    rw [found] at fetched
    have mem : s.letters ∈ m := Finmap.mem_of_lookup_eq_some fetched.symm
    dsimp only
    rw [if_pos mem, ← fetched]
    exact ⟨h, shows, rfl⟩
  | none =>
    rw [found] at fetched
    have mem : s.letters ∉ m := Finmap.lookup_eq_none.mp fetched.symm
    have stored := h.store shows s v
    dsimp only
    cases e : t.store r s v with
    | error => rwa [e] at stored
    | ok result =>
      rw [e] at stored
      rw [if_neg mem, ← fetched]
      exact ⟨stored.1, stored.2.1, rfl⟩

/-- **Changing.**  A value that is bound is changed, and the new one is given. -/
theorem Housed.modify (h : Housed t r) (shows : t.Shows m) (s : Spelling) (f : α → α) :
    Housed (t.modify s f).2 r ∧
      (t.modify s f).2.Shows ((m.lookup s.letters).elim m fun v => m.insert s.letters (f v)) ∧
      (t.modify s f).1 = (m.lookup s.letters).map f := by
  unfold Table.modify
  rcases h.sound.locate_cases s with ⟨none, unbound⟩ | ⟨i, o, found, hi, c⟩
  · rw [none, shows.lookup_eq_none unbound]
    exact ⟨h, shows, rfl⟩
  · have old : t.valueAt i = o := by simp [valueAt_eq, c]
    rw [found, shows.lookup_eq h.sound.toLinked ⟨i, hi, c⟩]
    dsimp only
    rw [old]
    cases o with
    | none => exact ⟨h, shows, rfl⟩
    | some w =>
      obtain ⟨housed, shown⟩ := h.setValue shows hi c (f w) (n := t.placeholders) rfl
      exact ⟨housed, shown, rfl⟩

/-! ### Deleting -/

/-- **Deleting.**  The letters are bound no more, and the value they had is given. -/
theorem Housed.delete (h : Housed t r) (shows : t.Shows m) (readOnly : α → Bool) (s : Spelling) :
    match t.delete r readOnly s with
    | .ok (old, u, r') =>
      Housed u r' ∧ u.Shows (m.erase s.letters) ∧ old = m.lookup s.letters ∧
        t.Fixed u ∧ r.Turns r'
    | .error _ => t.restricted = true := by
  have absent (none : m.lookup s.letters = none) : m.erase s.letters = m := by
    refine Finmap.ext_lookup fun x => ?_
    by_cases hx : x = s.letters
    · rw [hx, Finmap.lookup_erase, none]
    · exact Finmap.lookup_erase_ne hx
  unfold Table.delete
  rcases h.sound.locate_cases s with ⟨none, unbound⟩ | ⟨i, o, found, hi, c⟩
  · rw [none]
    dsimp only
    cases restricted : t.restricted with
    | true => rfl
    | false =>
      have lookup := shows.lookup_eq_none unbound
      exact ⟨h, (absent lookup).symm ▸ shows, lookup.symm, .refl t, .refl h.ring⟩
  · have old : t.valueAt i = o := by simp [valueAt_eq, c]
    have lookup := shows.lookup_eq h.sound.toLinked ⟨i, hi, c⟩
    rw [found, lookup]
    dsimp only
    rw [old]
    cases o with
    | none => exact ⟨h, (absent lookup).symm ▸ shows, rfl, .refl t, .refl h.ring⟩
    | some v =>
      dsimp only
      cases restricted : t.restricted with
      | true =>
        rw [if_pos rfl]
        by_cases ro : readOnly v = true
        · rw [if_pos ro]
        · -- the entry stays as a placeholder
          rw [if_neg ro]
          refine ⟨h.of_sound (h.sound.setValue hi c rfl) (.refl h.ring) rfl rfl,
            shows.erase fun y w => ?_, rfl, .of_settings rfl, .refl h.ring⟩
          have := h.sound.toLinked.binds_setValue (v := none) (y := y) (o := some w) hi
            (x := s.letters) (by simp [lettersAt_eq, c])
          refine this.trans ?_
          split <;> simp [*]
      | false =>
        obtain ⟨sound, settings, binds⟩ := h.sound.remove hi c
        refine ⟨h.of_sound sound (h.ring.releaseAll t.pool _) (congrArg Settings.seed settings)
          (congrArg Settings.pool settings), shows.erase fun y w => binds y _, rfl,
          .of_settings settings, h.ring.releaseAll t.pool _⟩

/-- **Clearing placeholders** changes nothing of what the table shows. -/
theorem Housed.clearPlaceholders (h : Housed t r) (shows : t.Shows m) :
    Housed (t.clearPlaceholders r).1 (t.clearPlaceholders r).2 ∧
      (t.clearPlaceholders r).1.Shows m := by
  obtain ⟨counted, settings, total, holds⟩ := h.sound.toCounted.dropPlaceholders
  have buckets : t.dropPlaceholders.1.buckets = t.buckets := congrArg Settings.buckets settings
  refine ⟨h.of_sound ⟨counted, ?_⟩ (h.ring.releaseAll t.pool _) (congrArg Settings.seed settings)
    (congrArg Settings.pool settings), shows.of_binds fun x v => ?_⟩
  · show t.dropPlaceholders.1.total ≤ t.dropPlaceholders.1.buckets
    rw [buckets]
    exact Nat.le_trans total h.sound.roomy
  · refine exists_congr fun i => (holds i x _).trans ?_
    simp

/-! ### Clearing -/

/-- Places that have lost their values. -/
theorem Linked.blanked (h : t.Linked) (places : List Nat) :
    let u := places.foldl (fun t i => t.setValue i none) t
    u.Linked ∧ u.chains = t.chains ∧ u.settings = t.settings ∧ u.total = t.total ∧
      ∀ j, u.contentAt j =
        if j ∈ places then (t.contentAt j).map fun c => (c.1, none) else t.contentAt j := by
  induction places generalizing t with
  | nil => exact ⟨h, rfl, rfl, rfl, fun j => by simp⟩
  | cons i places ih =>
    obtain ⟨linked, chains, settings, total, content⟩ := ih (h.setValue i none)
    refine ⟨linked, chains, settings, total, fun j => (content j).trans ?_⟩
    rw [contentAt_setValue]
    by_cases hj : i = j
    · subst i
      simp [Function.comp_def]
    · simp [hj, Ne.symm hj]

theorem Housed.clear_restricted (h : Housed t r) :
    let u := t.chained.foldl (fun t i => t.setValue i none) t
    Housed { u with placeholders := u.total } r ∧ Shows { u with placeholders := u.total } ∅ := by
  intro u
  obtain ⟨linked, chains, settings, total, content⟩ := h.sound.toLinked.blanked t.chained
  have chained : u.chained = t.chained := by rw [Table.chained, chains]; rfl
  have blank {j : Nat} (hj : j ∈ u.chained) : ∃ x, u.contentAt j = some (x, none) := by
    rw [chained] at hj
    obtain ⟨e, he⟩ := h.sound.entry_eq hj
    exact ⟨e.key.letters, by rw [content, if_pos hj, contentAt, he]; rfl⟩
  have buckets : u.buckets = t.buckets := congrArg Settings.buckets settings
  refine ⟨h.of_sound ⟨⟨?_, ?_, ?_, ?_⟩, ?_⟩ (.refl h.ring) (congrArg Settings.seed settings)
    (congrArg Settings.pool settings), fun x v => ?_⟩
  · exact linked.remarked u.total u.total u.restricted u.pinned
  · exact buckets ▸ h.sound.power
  · show u.total = u.chained.length
    rw [total, chained, h.sound.counted]
  · show u.total = u.chained.countP u.isPlaceholder
    rw [total, h.sound.counted, ← chained, eq_comm, List.countP_eq_length]
    intro j hj
    obtain ⟨x, c⟩ := blank hj
    simp [isPlaceholder_eq, c]
  · show u.total ≤ u.buckets
    rw [total, buckets]
    exact h.sound.roomy
  · rw [Finmap.lookup_empty]
    refine iff_of_false (by simp) ?_
    rintro ⟨j, hj, c⟩
    obtain ⟨y, c'⟩ := blank hj
    have c : u.contentAt j = some (x, some v) := c
    rw [c'] at c
    cases c

theorem Housed.clear_all (h : Housed t r) (turns : r.Turns r') :
    let u : Table α := { t with
      chains := t.chains.map fun _ => [], entries := #[], free := [], total := 0
      placeholders := 0, cursor := {} }
    Housed u r' ∧ u.Shows ∅ := by
  intro u
  have chain (b : Nat) : u.chain b = [] := by
    simp only [u, Table.chain, Array.getD_eq_getD_getElem?, Array.getElem?_map]
    cases t.chains[b]? <;> rfl
  have buckets : u.buckets = t.buckets := Array.size_map
  refine ⟨h.of_sound ?_ turns rfl rfl, fun x v => ?_⟩
  · exact sound_of_empty (buckets ▸ h.sound.power) chain rfl rfl rfl rfl rfl
  · rw [Finmap.lookup_empty]
    exact iff_of_false (by simp) (not_binds_of_empty chain)

/-- **Clearing.**  Nothing is bound any more. -/
theorem Housed.clear (h : Housed t r) {readOnly : α → Bool} {gone : List α}
    (e : t.clear r readOnly = .ok (gone, u, r')) : Housed u r' ∧ u.Shows ∅ := by
  unfold Table.clear at e
  by_cases restricted : t.restricted = true
  · rw [if_pos restricted] at e
    split at e
    · cases e
    · cases e
      exact h.clear_restricted
  · rw [if_neg restricted] at e
    cases e
    exact h.clear_all (h.ring.releaseAll t.pool t.heldKeys)

theorem restricted_of_clear {readOnly : α → Bool} {why : Refusal}
    (e : t.clear r readOnly = .error why) : t.restricted = true := by
  unfold Table.clear at e
  by_cases restricted : t.restricted = true
  · exact restricted
  · rw [if_neg restricted] at e
    cases e

/-! ### What leaves the map alone -/

theorem Housed.startWalk (h : Housed t r) (shows : t.Shows m) :
    Housed (t.startWalk r).2.1 (t.startWalk r).2.2 ∧ (t.startWalk r).2.1.Shows m ∧
      (t.startWalk r).1 = t.size := by
  obtain ⟨sound, settings, binds⟩ := h.sound.rewind
  refine ⟨h.of_sound sound (h.ring.releaseAll t.pool _) (congrArg Settings.seed settings)
    (congrArg Settings.pool settings), shows.of_binds fun x v => binds x _, ?_⟩
  have s := settles_settle h.sound.toLinked
  exact congrArg₂ (· - ·) s.total s.placeholders

theorem Housed.walk (h : Housed t r) (shows : t.Shows m) (w : Bool) :
    Housed (t.walk r w).2.1 (t.walk r w).2.2 ∧ (t.walk r w).2.1.Shows m := by
  obtain ⟨sound, settings, binds⟩ := h.sound.step w
  exact ⟨h.of_sound sound (h.ring.releaseAll t.pool _) (congrArg Settings.seed settings)
    (congrArg Settings.pool settings), shows.of_binds fun x v => binds x _⟩

theorem Housed.reserve (h : Housed t r) (shows : t.Shows m) {n : Nat}
    (hu : t.reserve n = .ok u) : Housed u r ∧ u.Shows m := by
  obtain ⟨sound, -, seed, pool, binds⟩ := h.sound.reserve hu
  exact ⟨h.of_sound sound (.refl h.ring) seed pool, shows.of_binds fun x v => binds x _⟩

/-- A mark of a table changes nothing of its places. -/
theorem Housed.setMarks (h : Housed t r) (shows : t.Shows m) (restricted pinned : Bool) :
    Housed { t with restricted, pinned } r ∧ Shows { t with restricted, pinned } m := by
  have linked : Linked { t with restricted, pinned } :=
    h.sound.toLinked.remarked t.total t.placeholders restricted pinned
  exact ⟨h.of_sound (h.sound.of_linked linked rfl rfl rfl (.refl _) fun _ _ => rfl) (.refl h.ring)
    rfl rfl, shows⟩

end

end ScriptCore.Table
