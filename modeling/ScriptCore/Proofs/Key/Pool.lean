import ScriptCore.Key.Pool
import ScriptCore.Proofs.Table.Growth

/-!
# Key — pools give keys that can be trusted

A pool is a table that counts users, so that its soundness is that of a table which never gives
up its seed and has no placeholders.

* `Pool.Sound.intern`: interning a spelling gives a key with its letters, hashed by the seed of
  the pool.
* `Keyring.Sound.keyFor`: so does the key that a table stores for a spelling, whether it is
  interned or the table's own.
-/

namespace ScriptCore

/-- The key of a spelling has its letters, and the hash of them. -/
theorem Key.ofSpelling_spec (s : Spelling) (seed : Seed) (supply : Supply) :
    (Key.ofSpelling s seed supply).1.letters = s.letters ∧
      (Key.ofSpelling s seed supply).1.hash = seed.hash s.bytes := by
  unfold Key.ofSpelling Key.ofHashed
  dsimp only
  cases origin : s.origin with
  | none => exact ⟨rfl, rfl⟩
  | some k =>
    dsimp only
    split
    · obtain ⟨bytes, wide⟩ := s.faithful k origin
      exact ⟨Prod.ext bytes wide, by assumption⟩
    · exact ⟨rfl, rfl⟩

namespace Pool

/-- A pool whose table is sound, keeps its seed and has a count for every key. -/
structure Sound (p : Pool) : Prop where
  counts : p.counts.Sound
  settled : p.counts.mayReseed = false
  full : ∀ x, ¬ p.counts.Binds x none

theorem sound_ofSeed (seed : Seed) : (ofSeed seed).Sound :=
  ⟨Table.sound_new seed true none, rfl, fun _ => Table.not_binds_new⟩

variable {p : Pool}

/-- A pool with a changed count. -/
theorem Sound.setCount (h : p.Sound) {i n m : Nat} {x : Bytes × Bool}
    (hi : i ∈ p.counts.chained) (c : p.counts.contentAt i = some (x, some n)) :
    Sound ⟨p.counts.setValue i (some m)⟩ where
  counts := h.counts.setValue hi c rfl
  settled := h.settled
  full y hb := by
    rw [h.counts.toLinked.binds_setValue hi (x := x) (by simp [Table.lettersAt_eq, c])] at hb
    split at hb
    · cases hb
    · exact h.full y hb

/-- **Interning.**  The key has the letters of the spelling and the hash of the pool's seed. -/
theorem Sound.intern (h : p.Sound) (s : Spelling) (supply : Supply) :
    (p.intern s supply).1.letters = s.letters ∧
      (p.intern s supply).1.hash = p.seed.hash s.bytes ∧
      (p.intern s supply).2.1.Sound ∧ (p.intern s supply).2.1.seed = p.seed := by
  unfold Pool.intern
  cases found : p.counts.locate s with
  | none =>
    obtain ⟨letters, hash⟩ := Key.ofSpelling_spec s p.seed supply
    generalize Key.ofSpelling s p.seed supply = r at letters hash
    obtain ⟨key, supply⟩ := r
    dsimp only at letters hash ⊢
    have bytes : key.bytes = s.bytes := congrArg Prod.fst letters
    have a := h.counts.add key (bytes ▸ hash)
      (letters ▸ (Table.locate_eq_none_iff h.counts.toLinked).mp found) 1 supply
    generalize p.counts.add key 1 supply = r at a
    obtain ⟨i, t, gone, supply⟩ := r
    dsimp only at a ⊢
    obtain ⟨settled, seed⟩ := a.fixed.seed h.settled
    obtain ⟨e, he, el, -⟩ := Table.contentAt_eq_some_iff.mp a.new.2
    rw [he]
    refine ⟨el.trans letters, ?_, ⟨a.sound, settled, fun x hb => ?_⟩, seed⟩
    · show e.key.hash = _
      rw [a.sound.hashed i e he, seed, show e.key.bytes = s.bytes from
        congrArg Prod.fst (el.trans letters)]
      rfl
    · rcases a.old x none hb with ⟨-, none⟩ | hb
      · cases none
      · exact h.full x hb
  | some i =>
    obtain ⟨hi, letters⟩ := (Table.locate_eq_some_iff h.counts.toLinked).mp found
    obtain ⟨⟨key, o⟩, he, hl⟩ := Table.lettersAt_eq_some_iff.mp letters
    have c : p.counts.contentAt i = some (s.letters, o) := by simp [Table.contentAt, he, ← hl]
    dsimp only
    rw [he]
    cases o with
    | none => exact absurd ⟨i, hi, c⟩ (h.full s.letters)
    | some n =>
      refine ⟨hl, ?_, h.setCount hi c, rfl⟩
      show key.hash = _
      rw [h.counts.hashed i _ he, show key.bytes = s.bytes from congrArg Prod.fst hl]
      rfl

/-- **Releasing** keeps a pool sound. -/
theorem Sound.release (h : p.Sound) (k : Key) :
    (p.release k).2.Sound ∧ (p.release k).2.seed = p.seed := by
  unfold Pool.release
  cases found : p.counts.locate (.ofKey k) with
  | none => exact ⟨h, rfl⟩
  | some i =>
    obtain ⟨hi, letters⟩ := (Table.locate_eq_some_iff h.counts.toLinked).mp found
    dsimp only
    cases value : p.counts.valueAt i with
    | none => exact ⟨h, rfl⟩
    | some n =>
      obtain ⟨e, he, hv⟩ := Option.bind_eq_some_iff.mp value
      have c : p.counts.contentAt i = some (e.key.letters, some n) := by
        simp [Table.contentAt, he, hv]
      have less := h.setCount (m := n - 1) hi c
      dsimp only
      split
      · have c' : (p.counts.setValue i (some (n - 1))).contentAt i =
            some (e.key.letters, some (n - 1)) := by simp [Table.contentAt_setValue, c]
        obtain ⟨sound, settings, binds⟩ := less.counts.remove hi c'
        obtain ⟨settled, seed⟩ := (Table.Fixed.of_settings settings).seed less.settled
        exact ⟨⟨sound, settled, fun x hb => less.full x ((binds x none).mp hb).1⟩, seed⟩
      · exact ⟨less, rfl⟩

end Pool

namespace Keyring

/-- A keyring whose pools are sound. -/
def Sound (r : Keyring) : Prop := ∀ p, (r.pool p).Sound

/-- Pools of the given seeds, without a key. -/
def ofSeeds (seeds : Array Seed) (supply : Supply) : Keyring := ⟨seeds.map .ofSeed, supply⟩

theorem sound_ofSeeds (seeds : Array Seed) (supply : Supply) : (ofSeeds seeds supply).Sound := by
  intro p
  unfold pool ofSeeds
  simp only [Array.getD_eq_getD_getElem?, Array.getElem?_map]
  cases seeds[p]? <;> exact Pool.sound_ofSeed _

variable {r : Keyring}

/-- A keyring with one pool in place of another of its seed. -/
theorem pool_setIfInBounds (p q : Nat) (pool : Pool) (supply : Supply) :
    Keyring.pool ⟨r.pools.setIfInBounds p pool, supply⟩ q = pool ∧ p = q ∨
      Keyring.pool ⟨r.pools.setIfInBounds p pool, supply⟩ q = r.pool q := by
  unfold Keyring.pool
  simp only [Array.getD_eq_getD_getElem?, Array.getElem?_setIfInBounds]
  split
  · split
    · exact .inl ⟨rfl, by assumption⟩
    · rename_i outside
      exact .inr (by rw [Array.getElem?_eq_none (by omega)])
  · exact .inr rfl

/-- `r'` is a keyring with sound pools of the seeds that those of `r` have. -/
structure Turns (r r' : Keyring) : Prop where
  sound : r'.Sound
  seeds : ∀ p, (r'.pool p).seed = (r.pool p).seed

theorem Turns.refl (h : r.Sound) : r.Turns r := ⟨h, fun _ => rfl⟩

theorem Turns.trans {r' r'' : Keyring} (h : r.Turns r') (h' : r'.Turns r'') : r.Turns r'' :=
  ⟨h'.sound, fun p => (h'.seeds p).trans (h.seeds p)⟩

/-- What is drawn from the supply does not matter to the pools. -/
theorem Turns.draw {r' : Keyring} (h : r.Turns r') (supply : Supply) :
    r.Turns { r' with supply } := ⟨h.sound, h.seeds⟩

theorem Turns.of_pool (h : r.Sound) {p : Nat} {pool : Pool} (sound : pool.Sound)
    (seed : pool.seed = (r.pool p).seed) (supply : Supply) :
    r.Turns ⟨r.pools.setIfInBounds p pool, supply⟩ where
  sound q := by
    rcases pool_setIfInBounds (r := r) p q pool supply with ⟨e, -⟩ | e <;> rw [e]
    · exact sound
    · exact h q
  seeds q := by
    rcases pool_setIfInBounds (r := r) p q pool supply with ⟨e, rfl⟩ | e <;> rw [e]
    exact seed

theorem Sound.intern (h : r.Sound) (p : Nat) (s : Spelling) :
    (r.intern p s).1.letters = s.letters ∧
      (r.intern p s).1.hash = (r.pool p).seed.hash s.bytes ∧ r.Turns (r.intern p s).2 := by
  obtain ⟨letters, hash, sound, seed⟩ := (h p).intern s r.supply
  exact ⟨letters, hash, .of_pool h sound seed _⟩

theorem Sound.release (h : r.Sound) (p : Nat) (k : Key) : r.Turns (r.release p k).2 := by
  obtain ⟨sound, seed⟩ := (h p).release k
  exact .of_pool h sound seed _

theorem Sound.releaseAll (h : r.Sound) (p : Option Nat) (ks : List Key) :
    r.Turns (r.releaseAll p ks) := by
  cases p with
  | none => exact .refl h
  | some p =>
    show r.Turns (ks.foldl (fun r k => (r.release p k).2) r)
    induction ks generalizing r with
    | nil => exact .refl h
    | cons k ks ih => exact (h.release p k).trans (ih (h.release p k).sound)

/-- **The key that is stored.**  It has the letters of the spelling, and the hash of the seed
that a table has in common with its pool. -/
theorem Sound.keyFor (h : r.Sound) {pool : Option Nat} {seed : Seed}
    (home : ∀ p, pool = some p → (r.pool p).seed = seed) (s : Spelling) :
    (r.keyFor pool s seed).1.letters = s.letters ∧
      (r.keyFor pool s seed).1.hash = seed.hash s.bytes ∧ r.Turns (r.keyFor pool s seed).2 := by
  cases pool with
  | none =>
    obtain ⟨letters, hash⟩ := Key.ofSpelling_spec s seed r.supply
    exact ⟨letters, hash, h, fun _ => rfl⟩
  | some p =>
    obtain ⟨letters, hash, turns⟩ := h.intern p s
    rw [home p rfl] at hash
    exact ⟨letters, hash, turns⟩

end Keyring

end ScriptCore
