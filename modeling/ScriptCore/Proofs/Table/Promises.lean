import ScriptCore.Proofs.Table.Restricted

/-!
# Table — what the marks of a table promise

A restricted table promises its set of keys, and a table whose seed is pinned promises the seed:
`t.Honours u` says that a later table `u` is true to that.  A restricted table also promises that no
read-only value goes: an operation that is not refused leaves it, or stores another one over it
(`Housed.shields_store`, `Housed.shields_delete`, `shields_clear`, `Housed.shields_reserve`).

The marks are the table's own: an operation that makes a new table in its place has to carry them
over.
-/

namespace ScriptCore.Table
variable {α : Type}

/-- `u` is true to what the marks of `t` promise. -/
structure Honours (t u : Table α) : Prop where
  keys : t.restricted = true → t.SameKeys u
  pinned : u.pinned = t.pinned
  seed : t.pinned = true → u.seed = t.seed

/-- The values that must not go are still there, but that of a key which is stored over. -/
def Shields (t u : Table α) (stays : α → Bool) (stored : Option (Spelling × α)) : Prop :=
  ∀ k v, t.fetch? k = some v → stays v = true → u.fetch? k = some v ∨
    ∃ x ∈ stored, x.1.letters = k.letters ∧ u.fetch? k = some x.2

section
variable {t u v : Table α} {r r' : Keyring} {key : Key} {k : Spelling} {w : α} {stays : α → Bool}

theorem Honours.refl (t : Table α) : t.Honours t := ⟨fun _ => .refl t, rfl, fun _ => rfl⟩

theorem Honours.trans (h : t.Honours u) (h' : u.Honours v) : t.Honours v where
  keys restricted := by
    have first := h.keys restricted
    exact first.trans (h'.keys (first.restricted.trans restricted))
  pinned := h'.pinned.trans h.pinned
  seed pinned := (h'.seed (h.pinned.trans pinned)).trans (h.seed pinned)

/-! ### The mark of the seed -/

theorem pinned_remove (t : Table α) (i : Nat) : (t.remove i).1.pinned = t.pinned := by
  unfold remove
  dsimp only
  split <;> rfl

theorem pinned_dropPlaceholders (t : Table α) : t.dropPlaceholders.1.pinned = t.pinned := by
  have all (places : List Nat) (t : Table α) (ks : List Key) :
      (places.foldl (fun w i => ((w.1.remove i).1, w.2 ++ (w.1.remove i).2)) (t, ks)).1.pinned =
        t.pinned := by
    induction places generalizing t ks with
    | nil => rfl
    | cons i places ih => exact (ih _ _).trans (pinned_remove t i)
  exact all (t.chained.filter t.isPlaceholder) t []

theorem pinned_split (t : Table α) (supply : Supply) : (t.split supply).1.pinned = t.pinned := by
  have cleared : (if 0 < t.placeholders ∧ t.restricted = false then t.dropPlaceholders
      else (t, [])).1.pinned = t.pinned := by
    split
    · exact pinned_dropPlaceholders t
    · rfl
  unfold Table.split
  generalize (if 0 < t.placeholders ∧ t.restricted = false then t.dropPlaceholders else (t, [])) =
    w at cleared
  dsimp only
  split <;> exact cleared

theorem pinned_add (t : Table α) (key : Key) (w : α) (supply : Supply) :
    (t.add key w supply).2.1.pinned = t.pinned := by
  have linked : (t.link ⟨key, some w⟩).2.pinned = t.pinned := by
    unfold link allocate
    cases t.free <;> rfl
  unfold add
  dsimp only
  split
  · exact (pinned_split _ _).trans linked
  · exact linked

/-! ### Each operation honours the marks -/

/-- A seed that is pinned is kept for good. -/
theorem Fixed.seed_of_pinned (fixed : t.Fixed u) (pinned : t.pinned = true) : u.seed = t.seed :=
  (fixed.seed (by simp [mayReseed, pinned])).2

theorem Honours.of_settings (keys : t.restricted = true → t.SameKeys u)
    (settings : u.settings = t.settings) : t.Honours u :=
  ⟨keys, congrArg Settings.pinned settings, fun _ => congrArg Settings.seed settings⟩

/-- **Each operation** honours the marks, but to lift a restriction, to clear placeholders and to
pin the seed. -/
theorem Op.Does.honours {op : Op α} (does : op.Does t r u r') (h : Housed t r)
    (keeps : op.KeepsSet) (other : op ≠ .pinSeed) : t.Honours u := by
  have linked := h.sound.toLinked
  have keys (restricted : t.restricted = true) := does.sameKeys linked restricted keeps
  cases does with
  | nothing | value | empty | restrict | rebucket | intern | release =>
    exact ⟨keys, rfl, fun _ => rfl⟩
  | insert _ absent =>
    obtain ⟨m, shows⟩ := linked.exists_shows
    obtain ⟨-, -, fixed, -⟩ := h.insertNew shows absent _
    exact ⟨keys, pinned_add .., fixed.seed_of_pinned⟩
  | remove found =>
    have removes := removes_remove linked ((locate_eq_some_iff linked).mp found).1
    exact .of_settings keys removes.settings
  | blank => exact .of_settings keys (linked.blanked t.chained).2.2.1
  | clearPlaceholders | unrestrict => exact keeps.elim
  | pinSeed => exact absurd rfl other
  | rewind => exact .of_settings keys h.sound.rewind.2.1
  | step => exact .of_settings keys (h.sound.step _).2.1

theorem Housed.honours_store (h : Housed t r) {old : Option α}
    (e : t.store r k w = .ok (old, u, r')) : t.Honours u :=
  ((does_store t r (.store k w) (.inl rfl)).of_ok e).honours h trivial nofun

theorem Housed.honours_delete (h : Housed t r) {old : Option α}
    (e : t.delete r stays k = .ok (old, u, r')) : t.Honours u :=
  ((does_delete t r k stays false).of_ok e).honours h trivial nofun

theorem Housed.honours_reserve (h : Housed t r) {n : Nat} (e : t.reserve n = .ok u) :
    t.Honours u :=
  (does_reserve r e).honours h trivial nofun

theorem Housed.honours_clear (h : Housed t r) {gone : List α}
    (e : t.clear r stays = .ok (gone, u, r')) : t.Honours u :=
  ((does_clear t r stays).of_ok e).honours h trivial nofun

/-! ### What must not go -/

theorem Housed.shields_store (h : Housed t r) {old : Option α}
    (e : t.store r k w = .ok (old, u, r')) : t.Shields u stays (some (k, w)) := by
  intro k' v found _
  obtain ⟨m, shows⟩ := h.sound.toLinked.exists_shows
  have stored := h.store shows k w
  rw [e] at stored
  obtain ⟨housed, shown, -⟩ := stored
  rw [shows.fetch? h.sound.toLinked] at found
  rw [shown.fetch? housed.sound.toLinked]
  by_cases same : k.letters = k'.letters
  · refine .inr ⟨(k, w), rfl, same, ?_⟩
    rw [← same, Finmap.lookup_insert]
  · refine .inl ?_
    rw [Finmap.lookup_insert_of_ne _ fun e => same e.symm, found]

theorem Housed.shields_delete (h : Housed t r) (restricted : t.restricted = true)
    {old : Option α} (e : t.delete r stays k = .ok (old, u, r')) : t.Shields u stays none := by
  intro k' v found must
  obtain ⟨m, shows⟩ := h.sound.toLinked.exists_shows
  have deleted := h.delete shows stays k
  rw [e] at deleted
  obtain ⟨housed, shown, -⟩ := deleted
  refine .inl ?_
  rw [shows.fetch? h.sound.toLinked] at found
  rw [shown.fetch? housed.sound.toLinked]
  have other : k'.letters ≠ k.letters := fun same => by
    -- to delete the value itself is refused
    rw [same, ← shows.fetch? h.sound.toLinked] at found
    have refused : t.delete r stays k = .error (.ofKey k.bytes .deleteReadOnly) :=
      delete_eq_error_iff.mpr ⟨restricted, .inr ⟨⟨v, found, must⟩, rfl⟩⟩
    cases refused.symm.trans e
  rw [Finmap.lookup_erase_ne other, found]

theorem Housed.shields_clear (h : Housed t r) (restricted : t.restricted = true) {gone : List α}
    (e : t.clear r stays = .ok (gone, u, r')) : t.Shields u stays none := by
  intro k v found must
  obtain ⟨_, refused⟩ := (h.sound.toLinked.exists_clear_eq_error_iff (r := r) restricted
    stays).mpr ⟨k, v, found, must⟩
  cases refused.symm.trans e

theorem Housed.shields_reserve (h : Housed t r) {n : Nat} (e : t.reserve n = .ok u) :
    t.Shields u stays none := by
  intro k v found _
  obtain ⟨m, shows⟩ := h.sound.toLinked.exists_shows
  obtain ⟨housed, shown⟩ := h.reserve shows e
  rw [shows.fetch? h.sound.toLinked] at found
  exact .inl ((shown.fetch? housed.sound.toLinked k).trans found)

end

end ScriptCore.Table
