import ScriptCore.Proofs.Key.Users

/-!
# Key — the key that a pool holds

Of all keys with the same letters a pool holds one, from the first of its users to the last.  A
pool never gives up its seed and has no placeholders, so when it grows it keeps every key that it
holds, each with its identity.

* `Sound.key?_intern`: interning gives the key that is held, and holds the one that is given.
* `Exact.countsUsers`: how a pool counts the users of a key, and which key they are given.
-/

namespace ScriptCore

namespace Table
variable {α : Type}

/-- The key at a place. -/
def keyAt (t : Table α) (i : Nat) : Option Key := (t.entry? i).map (·.key)

/-- A chained entry has the key. -/
def Stores (t : Table α) (k : Key) : Prop := ∃ i ∈ t.chained, t.keyAt i = some k

section
variable {t u : Table α} {i j : Nat} {k key : Key} {s : Spelling}

theorem lettersAt_eq_keyAt (t : Table α) (i : Nat) :
    t.lettersAt i = (t.keyAt i).map Key.letters := by
  simp [lettersAt, keyAt, Function.comp_def]

/-- **The stored key** of a spelling is the one with its letters. -/
theorem Linked.storedKey?_eq_some_iff (h : t.Linked) :
    t.storedKey? s = some k ↔ t.Stores k ∧ k.letters = s.letters := by
  constructor
  · intro found
    obtain ⟨i, located, there⟩ := Option.bind_eq_some_iff.mp found
    obtain ⟨hi, letters⟩ := (locate_eq_some_iff h).mp located
    have there : t.keyAt i = some k := there
    rw [lettersAt_eq_keyAt, there] at letters
    exact ⟨⟨i, hi, there⟩, Option.some.inj letters⟩
  · rintro ⟨⟨i, hi, there⟩, letters⟩
    have located : t.locate s = some i :=
      (locate_eq_some_iff h).mpr ⟨hi, by rw [lettersAt_eq_keyAt, there, ← letters]; rfl⟩
    rw [storedKey?, located]
    exact there

theorem keyAt_setValue (t : Table α) (i : Nat) (v : Option α) (j : Nat) :
    (t.setValue i v).keyAt j = t.keyAt j := by
  unfold keyAt
  rw [entry?_setValue]
  split
  · cases t.entry? j <;> rfl
  · rfl

theorem stores_setValue (v : Option α) : (t.setValue i v).Stores k ↔ t.Stores k :=
  exists_congr fun j => and_congr_right fun _ => by rw [keyAt_setValue]

theorem Removes.stores {gone : List Nat} (h : t.Removes gone u) (linked : t.Linked)
    (stored : u.Stores k) : t.Stores k := by
  obtain ⟨i, hi, there⟩ := stored
  refine ⟨i, ((h.mem_chained_iff linked).mp hi).1, ?_⟩
  rwa [keyAt, h.kept linked hi] at there

theorem Gains.stores_iff {e : Entry α} (g : t.Gains e i u) :
    u.Stores k ↔ k = e.key ∨ t.Stores k := by
  constructor
  · rintro ⟨j, hj, there⟩
    rw [keyAt, g.entry] at there
    split at there
    · exact .inl (Option.some.inj there).symm
    · exact .inr ⟨j, (g.mem.mp hj).resolve_left (by assumption), there⟩
  · rintro (rfl | ⟨j, hj, there⟩)
    · exact ⟨i, g.mem.mpr (.inl rfl), by rw [keyAt, g.new]; rfl⟩
    · exact ⟨j, g.mem.mpr (.inr hj), by rwa [keyAt, g.old hj]⟩

theorem stores_doubled : t.doubled.Stores k ↔ t.Stores k :=
  exists_congr fun _ => and_congr_left' (chained_doubled t).mem_iff

/-- **Adding** to a table that keeps its seed and has no placeholders: it comes to store the key
besides, under its identity, and draws nothing. -/
theorem Linked.add_settled (h : t.Linked) (settled : t.mayReseed = false)
    (full : t.placeholders = 0) (key : Key) (v : α) (supply : Supply) :
    (t.add key v supply).2.2.2 = supply ∧
      (t.add key v supply).2.1.keyAt (t.add key v supply).1 = some key ∧
      ∀ k, (t.add key v supply).2.1.Stores k ↔ k = key ∨ t.Stores k := by
  have g := h.link ⟨key, some v⟩
  unfold Table.add
  generalize t.link ⟨key, some v⟩ = r at g
  obtain ⟨i, w⟩ := r
  dsimp only at g ⊢
  have there : w.keyAt i = some key := by rw [keyAt, g.new]; rfl
  have settings := g.settings
  simp only [Table.settings, Settings.mk.injEq] at settings
  obtain ⟨-, -, rehashed, countsKeys, pinned, -⟩ := settings
  have keeps : w.doubled.mayReseed = false := by
    unfold mayReseed at settled ⊢
    show (!(w.rehashed || w.countsKeys || w.pinned)) = false
    rwa [rehashed, countsKeys, pinned]
  have none : ¬ (0 < w.placeholders ∧ w.restricted = false) := by
    rw [g.placeholders, full]
    exact fun h => Nat.lt_irrefl 0 h.1
  split
  · unfold Table.split
    rw [if_neg none]
    dsimp only
    rw [keeps, if_neg (by simp)]
    exact ⟨rfl, there, fun k => stores_doubled.trans g.stores_iff⟩
  · exact ⟨rfl, there, fun k => g.stores_iff⟩

end

end Table

namespace Pool

/-- The key that is held for a spelling. -/
def key? (p : Pool) (s : Spelling) : Option Key := p.counts.storedKey? s

variable {p : Pool} {s y : Spelling} {k q : Key}

theorem Sound.key?_eq_some_iff (h : p.Sound) :
    p.key? s = some k ↔ p.counts.Stores k ∧ k.letters = s.letters :=
  h.counts.toLinked.storedKey?_eq_some_iff

theorem Sound.letters_of_key? (h : p.Sound) (held : p.key? s = some k) :
    k.letters = s.letters := (h.key?_eq_some_iff.mp held).2

/-- A key is held for all spellings of its letters. -/
theorem Sound.key?_congr (h : p.Sound) (letters : s.letters = y.letters) :
    p.key? s = p.key? y := by
  refine Option.ext fun k => ?_
  rw [h.key?_eq_some_iff, h.key?_eq_some_iff, letters]

theorem Sound.placeholders_eq (h : p.Sound) : p.counts.placeholders = 0 := by
  rw [h.counts.marked, List.countP_eq_zero]
  intro i hi
  obtain ⟨e, he⟩ := h.counts.entry_eq hi
  have value : e.value ≠ none := fun none =>
    h.full e.key.letters ⟨i, hi, by simp [Table.contentAt, he, none]⟩
  simpa [Table.isPlaceholder, he] using value

/-! ### Interning -/

/-- The key that is given is the one that is held, or else a key made for the spelling, which is
held from then on. -/
theorem Sound.intern_cases (h : p.Sound) (s : Spelling) (supply : Supply) :
    (p.key? s = some (p.intern s supply).1 ∧ (p.intern s supply).2.2 = supply ∧
      ∀ q, (p.intern s supply).2.1.counts.Stores q ↔ p.counts.Stores q) ∨
    (p.key? s = none ∧ ((p.intern s supply).1, (p.intern s supply).2.2) =
        Key.ofSpelling s p.seed supply ∧
      ∀ q, (p.intern s supply).2.1.counts.Stores q ↔
        q = (p.intern s supply).1 ∨ p.counts.Stores q) := by
  unfold Pool.intern
  rcases h.counts.toLinked.locate_cases s with ⟨none, -⟩ | ⟨i, o, found, hi, c⟩
  · right
    obtain ⟨same, there, stores⟩ := h.counts.toLinked.add_settled h.settled h.placeholders_eq
      (Key.ofSpelling s p.seed supply).1 1 (Key.ofSpelling s p.seed supply).2
    rw [none]
    dsimp only
    rw [show Option.map _ _ = _ from there]
    refine ⟨?_, Prod.ext rfl same, stores⟩
    rw [key?, Table.storedKey?, none]
    rfl
  · left
    rw [found]
    obtain ⟨⟨key, o'⟩, he, -, rfl⟩ := Table.contentAt_eq_some_iff.mp c
    dsimp only
    rw [he]
    cases o' with
    | none => exact absurd ⟨i, hi, c⟩ (h.full s.letters)
    | some n =>
      refine ⟨?_, rfl, fun q => Table.stores_setValue _⟩
      rw [key?, Table.storedKey?, found, Option.bind_some, he]
      rfl

/-- **Interning** gives the key that is held, and holds the one that is given. -/
theorem Sound.key?_intern (h : p.Sound) (s : Spelling) (supply : Supply) (y : Spelling) :
    (p.intern s supply).2.1.key? y =
      if y.letters = s.letters then some (p.intern s supply).1 else p.key? y := by
  obtain ⟨letters, -, sound, -⟩ := h.intern s supply
  refine Option.ext fun q => ?_
  rw [sound.key?_eq_some_iff]
  rcases h.intern_cases s supply with ⟨held, -, stores⟩ | ⟨none, -, stores⟩
  · rw [stores, ← h.key?_eq_some_iff]
    split
    · rw [h.key?_congr (by assumption), held]
    · rfl
  · rw [stores]
    split
    · rename_i here
      -- no other key of these letters was held
      have other : ¬ (p.counts.Stores q ∧ q.letters = y.letters) := by
        rw [← h.key?_eq_some_iff, h.key?_congr here, none]
        nofun
      constructor
      · rintro ⟨rfl | stored, same⟩
        · rfl
        · exact absurd ⟨stored, same⟩ other
      · rintro ⟨⟩
        exact ⟨.inl rfl, letters.trans here.symm⟩
    · rename_i apart
      rw [h.key?_eq_some_iff]
      refine and_congr_left fun same => or_iff_right ?_
      rintro rfl
      exact apart (same.symm.trans letters)

/-- A key that is held is the one that is given. -/
theorem Sound.intern_of_key? (h : p.Sound) (held : p.key? s = some k) (supply : Supply) :
    (p.intern s supply).1 = k := by
  rcases h.intern_cases s supply with ⟨same, -⟩ | ⟨none, -⟩
  · exact Option.some.inj (same.symm.trans held)
  · rw [none] at held
    cases held

/-! ### Releasing -/

/-- **Releasing** holds no key that was not held. -/
theorem Sound.key?_of_release (h : p.Sound) (held : (p.release k).2.key? y = some q) :
    p.key? y = some q := by
  rw [(h.release k).1.key?_eq_some_iff] at held
  rw [h.key?_eq_some_iff]
  refine held.imp_left fun stored => ?_
  revert stored
  unfold Pool.release
  rcases h.counts.toLinked.locate_cases (.ofKey k) with ⟨none, -⟩ | ⟨i, o, found, hi, -⟩
  · rw [none]
    exact id
  · rw [found]
    dsimp only
    cases p.counts.valueAt i with
    | none => exact id
    | some n =>
      dsimp only
      have linked := h.counts.toLinked.setValue i (some (n - 1))
      split
      · intro stored
        exact (Table.stores_setValue _).mp ((Table.removes_remove linked hi).stores linked stored)
      · exact (Table.stores_setValue _).mp

/-! ### Counting -/

/-- A key is held when it has users. -/
theorem Exact.isSome_key?_iff (h : p.Exact) (s : Spelling) :
    (p.key? s).isSome = true ↔ 0 < p.users s := by
  unfold key? Table.storedKey?
  rcases h.counts.toLinked.locate_cases s with ⟨none, unbound⟩ | ⟨i, o, found, hi, c⟩
  · rw [none, h.toSound.users_eq_zero fun n => unbound _]
    simp
  · obtain ⟨e, he, -, rfl⟩ := Table.contentAt_eq_some_iff.mp c
    rw [found, Option.bind_some, he]
    cases value : e.value with
    | none => exact absurd ⟨i, hi, value ▸ c⟩ (h.full _)
    | some n =>
      have bound : p.counts.Binds s.letters (some n) := ⟨i, hi, value ▸ c⟩
      rw [h.toSound.users_eq bound]
      refine iff_of_true rfl (Nat.pos_of_ne_zero ?_)
      rintro rfl
      exact h.used _ bound

/-- A new pool holds no key. -/
theorem key?_ofSeed (seed : Seed) (s : Spelling) : (ofSeed seed).key? s = none := by
  have users := (exact_ofSeed seed).isSome_key?_iff s
  rw [(sound_ofSeed seed).users_eq_zero fun _ => Table.not_binds_new] at users
  rw [← Option.not_isSome_iff_eq_none, users]
  exact Nat.lt_irrefl 0

/-- How a pool counts the users of its keys, and which key it gives them. -/
structure CountsUsers (p : Pool) : Prop where
  /-- A key is held when it has users, and they have it in common. -/
  held : ∀ s : Spelling, ((p.key? s).isSome = true ↔ 0 < p.users s) ∧
    ∀ k, p.key? s = some k → k.letters = s.letters
  /-- Interning gives the key that is held, and makes it one only when there is none; the key has
  one user more. -/
  interned : ∀ (s : Spelling) (supply : Supply),
    let (k, p', _) := p.intern s supply
    k.letters = s.letters ∧ p'.key? s = some k ∧ (∀ k', p.key? s = some k' → k' = k) ∧
      ∀ y : Spelling, p'.users y = p.users y + if y.letters = s.letters then 1 else 0
  /-- Releasing succeeds when there is a user, and then the key has one user less. -/
  released : ∀ k : Key, ((p.release k).1 = true ↔ 0 < p.users k) ∧
    ∀ y : Spelling, (p.release k).2.users y +
      (if (p.release k).1 = true ∧ y.letters = k.letters then 1 else 0) = p.users y
  /-- The pool is as large as there are keys that have users. -/
  size : ∃ keys : Finset (Bytes × Bool), p.size = keys.card ∧
    ∀ s : Spelling, s.letters ∈ keys ↔ 0 < p.users s

/-- A key is found when it has a user. -/
theorem Exact.release_iff (h : p.Exact) (k : Key) : (p.release k).1 = true ↔ 0 < p.users k := by
  refine ⟨fun found => ?_, h.toSound.finds⟩
  unfold Pool.release at found
  rcases h.counts.toLinked.locate_cases (.ofKey k) with ⟨none, -⟩ | ⟨i, o, located, hi, c⟩
  · rw [none] at found
    cases found
  · cases o with
    | none => exact absurd ⟨i, hi, c⟩ (h.full _)
    | some n =>
      have bound : p.counts.Binds (Spelling.ofKey k).letters (some n) := ⟨i, hi, c⟩
      rw [h.toSound.users_eq bound]
      refine Nat.pos_of_ne_zero ?_
      rintro rfl
      exact h.used _ bound

theorem Exact.countsUsers (h : p.Exact) : p.CountsUsers where
  held s := ⟨h.isSome_key?_iff s, fun k => h.toSound.letters_of_key?⟩
  interned s supply := by
    have held := h.toSound.key?_intern s supply s
    rw [if_pos rfl] at held
    exact ⟨(h.toSound.intern s supply).1, held,
      fun k' had => (h.toSound.intern_of_key? had supply).symm, h.users_intern s supply⟩
  released k := by
    have found := h.release_iff k
    refine ⟨found, fun y => ?_⟩
    rw [h.users_release]
    by_cases here : y.letters = k.letters
    · have same : p.users y = p.users k := h.toSound.users_congr here
      simp only [here, if_true, and_true, found, same]
      split <;> omega
    · simp [here, Ne.symm here]
  size := by
    obtain ⟨m, shows⟩ := h.counts.toLinked.exists_shows
    have agrees := h.counts.agrees shows
    refine ⟨m.keys, agrees.size, fun s => ?_⟩
    rw [Finmap.mem_keys, users, agrees.fetch, ← Finmap.lookup_isSome]
    cases bound : m.lookup s.letters with
    | none => simp
    | some n =>
      refine iff_of_true rfl (Nat.pos_of_ne_zero ?_)
      rintro rfl
      exact h.used _ ((shows _ _).mp bound)

end Pool

end ScriptCore
