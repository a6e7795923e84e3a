import ScriptCore.Proofs.Key.Held

/-!
# Key — identities are given once

An identity is drawn from the supply when a key is made, and the supply only goes on.

* `Supply.Issued`: no two of the keys there are have one identity, and none has an identity that is
  still to be drawn.
* `Keyring.Issues.intern`, `Keyring.Issues.keyFor`: interning keeps that so, when the spelling was
  read off one of the keys there are or off none.
* `Keyring.Within`: the keys that one keyring holds are held by another.
-/

namespace ScriptCore

/-- The keys were given identities of their own, all drawn before. -/
structure Supply.Issued (supply : Supply) (ks : List Key) : Prop where
  below : ∀ k ∈ ks, k.handle < supply.next
  apart : ∀ k ∈ ks, ∀ l ∈ ks, k.handle = l.handle → k = l

/-- The spelling is read off one of the keys, if it is read off a key. -/
def Spelling.ReadOff (s : Spelling) (ks : List Key) : Prop := ∀ k ∈ s.origin, k ∈ ks

instance (s : Spelling) (ks : List Key) : Decidable (s.ReadOff ks) :=
  inferInstanceAs (Decidable (∀ k ∈ s.origin, k ∈ ks))

namespace Supply
variable {supply : Supply} {ks ls : List Key} {s : Spelling} {k : Key}

theorem Issued.subset (h : supply.Issued ks) (sub : ls ⊆ ks) : supply.Issued ls where
  below k hk := h.below k (sub hk)
  apart k hk l hl := h.apart k (sub hk) l (sub hl)

/-- A key is made with the next identity. -/
theorem Issued.fresh (h : supply.Issued ks) (next : k.handle = supply.next) :
    Issued { supply with next := supply.next + 1 } (k :: ks) where
  below l hl := by
    rcases List.mem_cons.mp hl with rfl | hl
    · exact Nat.lt_succ_of_le (Nat.le_of_eq next)
    · exact Nat.lt_succ_of_lt (h.below l hl)
  apart l hl m hm same := by
    rcases List.mem_cons.mp hl with el | hl <;> rcases List.mem_cons.mp hm with em | hm
    · rw [el, em]
    · have := h.below m hm
      rw [← same, el] at this
      omega
    · have := h.below l hl
      rw [same, em] at this
      omega
    · exact h.apart l hl m hm same

/-- **The key of a spelling** is the one that it was read off, or a key of its own. -/
theorem Issued.ofSpelling (h : supply.Issued ks) (read : s.ReadOff ks) (seed : Seed) :
    (Key.ofSpelling s seed supply).2.Issued ((Key.ofSpelling s seed supply).1 :: ks) := by
  unfold Key.ofSpelling Key.ofHashed
  dsimp only
  cases origin : s.origin with
  | none => exact h.fresh rfl
  | some k =>
    dsimp only
    split
    · exact h.subset (List.cons_subset.mpr ⟨read k origin, fun _ => id⟩)
    · exact h.fresh rfl

end Supply

namespace Keyring
variable {r r' r'' : Keyring} {ks ls : List Key} {p q : Nat} {s : Spelling} {k : Key}

/-! ### The keys that pools hold -/

/-- Every key that a pool of `r` holds, the pool of `r'` holds too. -/
def Within (r r' : Keyring) : Prop :=
  ∀ p s k, (r.pool p).key? s = some k → (r'.pool p).key? s = some k

theorem Within.refl (r : Keyring) : r.Within r := fun _ _ _ => id

theorem Within.trans (h : r.Within r') (h' : r'.Within r'') : r.Within r'' :=
  fun p s k held => h' p s k (h p s k held)

/-- A pool that there is not holds nothing. -/
theorem key?_of_size_le (out : r.pools.size ≤ p) (s : Spelling) : (r.pool p).key? s = none := by
  rw [pool, Array.getD_eq_getD_getElem?, Array.getElem?_eq_none out, Option.getD_none]
  exact Pool.key?_ofSeed {} s

/-- **Interning**, seen from one of the pools there are. -/
theorem Sound.key?_intern (h : r.Sound) (hq : q < r.pools.size) (p : Nat) (s y : Spelling) :
    ((r.intern p s).2.pool q).key? y =
      if p = q ∧ y.letters = s.letters then some (r.intern p s).1 else (r.pool q).key? y := by
  show (Keyring.pool ⟨r.pools.setIfInBounds p ((r.pool p).intern s r.supply).2.1, _⟩ q).key? y = _
  rw [pool_set hq]
  by_cases here : p = q
  · subst here
    rw [if_pos rfl, (h p).key?_intern]
    simp only [true_and]
    rfl
  · rw [if_neg here, if_neg fun both => here both.1]

/-- Interning holds what was held. -/
theorem Sound.within_intern (h : r.Sound) (p : Nat) (s : Spelling) :
    r.Within (r.intern p s).2 := by
  intro q y k held
  have hq : q < r.pools.size := by
    refine Nat.lt_of_not_le fun out => ?_
    rw [key?_of_size_le out] at held
    cases held
  rw [h.key?_intern hq]
  split
  · rename_i here
    obtain ⟨rfl, letters⟩ := here
    have given : (r.intern p s).1 = k :=
      (h p).intern_of_key? ((h p).key?_congr letters ▸ held) r.supply
    rw [given]
  · exact held

/-- **Releasing** leaves nothing that was not held. -/
theorem Sound.release_within (h : r.Sound) (p : Nat) (k : Key) :
    (r.release p k).2.Within r := by
  intro q y l held
  have kept := pool_setIfInBounds (r := r) p q ((r.pool p).release k).2 r.supply
  change (Keyring.pool ⟨r.pools.setIfInBounds p ((r.pool p).release k).2, r.supply⟩ q).key? y = _
    at held
  rcases kept with ⟨e, rfl⟩ | e
  · rw [e] at held
    exact (h p).key?_of_release held
  · rwa [e] at held

theorem Sound.releaseAll_within (h : r.Sound) (p : Option Nat) (gone : List Key) :
    (r.releaseAll p gone).Within r := by
  cases p with
  | none => exact .refl r
  | some p =>
    show Within (gone.foldl (fun r k => (r.release p k).2) r) r
    induction gone generalizing r with
    | nil => exact .refl r
    | cons k gone ih => exact (ih (h.release p k).sound).trans (h.release_within p k)

/-- The key for a table is interned in its pool, or made. -/
theorem Sound.within_keyFor (h : r.Sound) (pool : Option Nat) (s : Spelling) (seed : Seed) :
    (r.keyFor pool s seed).2.Sound ∧ r.Within (r.keyFor pool s seed).2 := by
  cases pool with
  | none => exact ⟨h, .refl r⟩
  | some p => exact ⟨(h.intern p s).2.2.sound, h.within_intern p s⟩

/-! ### The keys that were made -/

/-- The keys are all that were made and may be met again: those that pools hold are among them. -/
structure Issues (r : Keyring) (ks : List Key) : Prop where
  issued : r.supply.Issued ks
  pools : ∀ p s k, (r.pool p).key? s = some k → k ∈ ks

theorem issues_ofSeeds (seeds : Array Seed) (supply : Supply) :
    (ofSeeds seeds supply).Issues [] where
  issued := ⟨nofun, nofun⟩
  pools p s k held := by
    obtain ⟨seed, e⟩ := pool_ofSeeds seeds supply p
    rw [e, Pool.key?_ofSeed] at held
    cases held

/-- A keyring that holds nothing besides has issued the same keys. -/
theorem Issues.of_within (h : r.Issues ks) (within : r'.Within r)
    (supply : r'.supply = r.supply) : r'.Issues ks where
  issued := supply ▸ h.issued
  pools p s k held := h.pools p s k (within p s k held)

/-- More keys may have been made than the pools hold. -/
theorem Issues.more (h : r.Issues ks) {supply : Supply} (issued : supply.Issued ls)
    (sub : ks ⊆ ls) : Issues { r with supply } ls where
  issued := issued
  pools p s k held := sub (h.pools p s k held)

theorem supply_releaseAll (r : Keyring) (p : Option Nat) (gone : List Key) :
    (r.releaseAll p gone).supply = r.supply := by
  cases p with
  | none => rfl
  | some p =>
    show (gone.foldl (fun r k => (r.release p k).2) r).supply = r.supply
    induction gone generalizing r with
    | nil => rfl
    | cons k gone ih => exact ih (r.release p k).2

theorem Issues.releaseAll (h : r.Issues ks) (sound : r.Sound) (p : Option Nat)
    (gone : List Key) : (r.releaseAll p gone).Issues ks :=
  h.of_within (sound.releaseAll_within p gone) (supply_releaseAll r p gone)

/-- **Interning** gives a key that was made before or is made now. -/
theorem Issues.intern (h : r.Issues ks) (sound : r.Sound) (p : Nat) (read : s.ReadOff ks) :
    (r.intern p s).2.Issues ((r.intern p s).1 :: ks) where
  issued := by
    show ((r.pool p).intern s r.supply).2.2.Issued (((r.pool p).intern s r.supply).1 :: ks)
    rcases (sound p).intern_cases s r.supply with ⟨held, same, -⟩ | ⟨-, made, -⟩
    · rw [same]
      exact h.issued.subset (List.cons_subset.mpr ⟨h.pools p s _ held, fun _ => id⟩)
    · have issued := h.issued.ofSpelling read (r.pool p).seed
      rwa [← made] at issued
  pools q y k held := by
    rcases Nat.lt_or_ge q r.pools.size with hq | out
    · rw [sound.key?_intern hq] at held
      split at held
      · exact Option.some.inj held ▸ List.mem_cons_self
      · exact List.mem_cons_of_mem _ (h.pools q y k held)
    · rw [key?_of_size_le ((size_intern (r := r) p s).trans_le out)] at held
      cases held

/-- **A key of its own** is made, unless the spelling was read off one that is as good. -/
theorem Issues.newKey (h : r.Issues ks) (read : s.ReadOff ks) (seed : Seed) :
    (r.newKey s seed).2.Issues ((r.newKey s seed).1 :: ks) :=
  h.more (h.issued.ofSpelling read seed) (List.subset_cons_self _ _)

theorem Issues.keyFor (h : r.Issues ks) (sound : r.Sound) (pool : Option Nat)
    (read : s.ReadOff ks) (seed : Seed) :
    (r.keyFor pool s seed).2.Issues ((r.keyFor pool s seed).1 :: ks) := by
  cases pool with
  | none => exact h.newKey read seed
  | some p => exact h.intern sound p read

end Keyring

end ScriptCore
