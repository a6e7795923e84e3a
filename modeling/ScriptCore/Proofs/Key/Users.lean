import ScriptCore.Proofs.Key.Pool
import ScriptCore.Proofs.Table.Contents

/-!
# Key — how many users a key has

Interning a spelling gives its key one user more in the one pool, and releasing a key takes one
from it; a key whose last user has gone is not held any more.

* `Keyring.Exact.users_internAll`, `Keyring.Exact.users_releaseAll`: what interning and releasing
  do to the users of every key in every pool.
* `Keyring.Exact.finds`: keys that have users enough are all found when they are released one
  after the other.
-/

namespace ScriptCore

/-- How many of the keys are spelt by the letters. -/
def Key.tally (x : Bytes × Bool) (ks : List Key) : Nat := ks.countP fun k => k.letters = x

namespace Key
variable {x : Bytes × Bool} {k : Key} {ks ls : List Key}

@[simp]
theorem tally_nil : tally x [] = 0 := rfl

@[simp]
theorem tally_cons : tally x (k :: ks) = tally x ks + if k.letters = x then 1 else 0 := by
  simp [tally, List.countP_cons]

@[simp]
theorem tally_append : tally x (ks ++ ls) = tally x ks + tally x ls := List.countP_append

theorem tally_eq_count (x : Bytes × Bool) (ks : List Key) :
    tally x ks = (ks.map letters).count x := by
  rw [List.count, List.countP_map]
  exact List.countP_congr fun k _ => by simp

end Key

namespace Pool

/-- A sound pool that holds no key without a user. -/
structure Exact (p : Pool) : Prop extends Sound p where
  used : ∀ x, ¬ p.counts.Binds x (some 0)

variable {p p' : Pool} {s y : Spelling} {k : Key} {x : Bytes × Bool} {n : Nat}

theorem exact_ofSeed (seed : Seed) : (ofSeed seed).Exact :=
  ⟨sound_ofSeed seed, fun _ => Table.not_binds_new⟩

/-! ### Counting users -/

/-- The users of a key are the count that is bound, or none. -/
theorem Sound.users_cases (h : p.Sound) (s : Spelling) :
    p.counts.Binds s.letters (some (p.users s)) ∨
      p.users s = 0 ∧ ∀ n, ¬ p.counts.Binds s.letters (some n) := by
  unfold users Table.fetch?
  rcases h.counts.toLinked.locate_cases s with ⟨none, unbound⟩ | ⟨i, o, found, hi, c⟩
  · rw [none]
    exact .inr ⟨rfl, fun n => unbound _⟩
  · rw [found, Option.bind_some, Table.valueAt_eq, c]
    cases o with
    | none => exact absurd ⟨i, hi, c⟩ (h.full s.letters)
    | some n => exact .inl ⟨i, hi, c⟩

theorem Sound.users_eq (h : p.Sound) (bound : p.counts.Binds s.letters (some n)) :
    p.users s = n := by
  rcases h.users_cases s with bound' | ⟨-, unbound⟩
  · exact Option.some.inj (h.counts.toLinked.binds_unique bound' bound)
  · exact absurd bound (unbound n)

theorem Sound.users_eq_zero (h : p.Sound) (unbound : ∀ n, ¬ p.counts.Binds s.letters (some n)) :
    p.users s = 0 := by
  rcases h.users_cases s with bound | ⟨zero, -⟩
  · exact absurd bound (unbound _)
  · exact zero

/-- Letters have users in common. -/
theorem Sound.users_congr (h : p.Sound) (letters : s.letters = y.letters) :
    p.users s = p.users y := by
  rcases h.users_cases y with bound | ⟨zero, unbound⟩
  · exact h.users_eq (letters ▸ bound)
  · rw [zero]
    exact h.users_eq_zero (letters ▸ unbound)

/-! ### Interning -/

/-- **Interning** counts one user more of the key, and leaves all others alone. -/
theorem Sound.binds_intern (h : p.Sound) (s : Spelling) (supply : Supply) :
    (p.intern s supply).2.1.counts.Binds x (some n) ↔
      if x = s.letters then n = p.users s + 1 else p.counts.Binds x (some n) := by
  unfold Pool.intern
  rcases h.counts.toLinked.locate_cases s with ⟨none, unbound⟩ | ⟨i, o, found, hi, c⟩
  · rw [none, h.users_eq_zero fun n => unbound _]
    obtain ⟨letters, hash⟩ := Key.ofSpelling_spec s p.seed supply
    generalize Key.ofSpelling s p.seed supply = r at letters hash
    obtain ⟨key, supply⟩ := r
    dsimp only at letters hash ⊢
    have bytes : key.bytes = s.bytes := congrArg Prod.fst letters
    have a := h.counts.add key (bytes ▸ hash)
      (letters ▸ (Table.locate_eq_none_iff h.counts.toLinked).mp none) 1 supply
    generalize p.counts.add key 1 supply = r at a
    obtain ⟨i, t, gone, supply⟩ := r
    dsimp only at a ⊢
    rw [a.binds_iff, letters]
    split
    · rename_i here
      subst here
      simp [unbound]
    · rename_i other
      simp [other]
  · rw [found]
    obtain ⟨⟨key, o'⟩, he, hl, rfl⟩ := Table.contentAt_eq_some_iff.mp c
    dsimp only
    rw [he]
    cases o' with
    | none => exact absurd ⟨i, hi, c⟩ (h.full s.letters)
    | some m =>
      dsimp only
      rw [h.users_eq ⟨i, hi, c⟩, h.counts.toLinked.binds_setValue hi (x := s.letters)
        (by simp [Table.lettersAt_eq, c])]
      simp

theorem Exact.intern (h : p.Exact) (s : Spelling) (supply : Supply) :
    (p.intern s supply).2.1.Exact where
  toSound := (h.toSound.intern s supply).2.2.1
  used x bound := by
    rw [h.toSound.binds_intern] at bound
    split at bound
    · omega
    · exact h.used x bound

theorem Exact.users_intern (h : p.Exact) (s : Spelling) (supply : Supply) (y : Spelling) :
    (p.intern s supply).2.1.users y = p.users y + if y.letters = s.letters then 1 else 0 := by
  have h' := (h.intern s supply).toSound
  split
  · rename_i here
    refine h'.users_eq ?_
    rw [h.toSound.binds_intern, if_pos here, h.toSound.users_congr here]
  · rename_i other
    rcases h.toSound.users_cases y with bound | ⟨zero, unbound⟩
    · exact h'.users_eq ((h.toSound.binds_intern s supply).mpr (by rwa [if_neg other]))
    · rw [zero]
      refine h'.users_eq_zero fun n bound => unbound n ?_
      rwa [h.toSound.binds_intern, if_neg other] at bound

/-! ### Releasing -/

/-- **Releasing** counts one user less of the key, and leaves all others alone. -/
theorem Sound.binds_release (h : p.Sound) (k : Key) :
    (p.release k).2.counts.Binds x (some n) ↔
      if x = k.letters then 0 < n ∧ n = p.users k - 1 else p.counts.Binds x (some n) := by
  unfold Pool.release
  rcases h.counts.toLinked.locate_cases (.ofKey k) with ⟨none, unbound⟩ | ⟨i, o, found, hi, c⟩
  · rw [none, h.users_eq_zero fun n => unbound _]
    dsimp only
    split
    · rename_i here
      subst here
      exact iff_of_false (unbound _) (by omega)
    · rfl
  · rw [found]
    cases o with
    | none => exact absurd ⟨i, hi, c⟩ (h.full _)
    | some m =>
      have value : p.counts.valueAt i = some m := by simp [Table.valueAt_eq, c]
      have users : p.users k = m := h.users_eq ⟨i, hi, c⟩
      dsimp only
      rw [value, users]
      have less (y : Bytes × Bool) (o : Option Nat) :
          (p.counts.setValue i (some (m - 1))).Binds y o ↔
            if y = k.letters then o = some (m - 1) else p.counts.Binds y o :=
        h.counts.toLinked.binds_setValue hi (by simp [Table.lettersAt_eq, c]; rfl)
      dsimp only
      split
      · -- the last user takes the key with it
        have c' : (p.counts.setValue i (some (m - 1))).contentAt i =
            some (k.letters, some (m - 1)) := by simp [Table.contentAt_setValue, c]; rfl
        obtain ⟨-, -, binds⟩ := (h.setCount (m := m - 1) hi c).counts.remove hi c'
        refine (binds x _).trans ?_
        rw [less]
        split
        · rename_i here
          exact iff_of_false (fun b => b.2 here) (by omega)
        · rename_i other
          exact and_iff_left other
      · refine (less x _).trans ?_
        split
        · simp
          omega
        · rfl

theorem Exact.release (h : p.Exact) (k : Key) : (p.release k).2.Exact where
  toSound := (h.toSound.release k).1
  used x bound := by
    rw [h.toSound.binds_release] at bound
    split at bound
    · exact absurd bound.1 (Nat.lt_irrefl 0)
    · exact h.used x bound

theorem Exact.users_release (h : p.Exact) (k : Key) (y : Spelling) :
    (p.release k).2.users y = p.users y - if k.letters = y.letters then 1 else 0 := by
  have h' := (h.release k).toSound
  split
  · rename_i here
    rw [h.toSound.users_congr (s := y) (y := .ofKey k) here.symm]
    rcases Nat.eq_zero_or_pos (p.users k - 1) with zero | pos
    · rw [zero]
      refine h'.users_eq_zero fun n bound => ?_
      rw [h.toSound.binds_release, if_pos here.symm] at bound
      omega
    · refine h'.users_eq ?_
      rw [h.toSound.binds_release, if_pos here.symm]
      exact ⟨pos, rfl⟩
  · rename_i other
    have other : y.letters ≠ k.letters := Ne.symm other
    rcases h.toSound.users_cases y with bound | ⟨zero, unbound⟩
    · exact h'.users_eq (by rwa [h.toSound.binds_release, if_neg other])
    · rw [zero]
      refine h'.users_eq_zero fun n bound => unbound n ?_
      rwa [h.toSound.binds_release, if_neg other] at bound

/-- A key that has a user is found. -/
theorem Sound.finds (h : p.Sound) (pos : 0 < p.users k) : (p.release k).1 = true := by
  unfold Pool.release
  rcases h.counts.toLinked.locate_cases (.ofKey k) with ⟨none, unbound⟩ | ⟨i, o, found, hi, c⟩
  · rw [h.users_eq_zero fun n => unbound _] at pos
    omega
  · rw [found]
    cases o with
    | none => exact absurd ⟨i, hi, c⟩ (h.full _)
    | some m =>
      have value : p.counts.valueAt i = some m := by simp [Table.valueAt_eq, c]
      dsimp only
      rw [value]
      dsimp only
      split <;> rfl

/-- A pool without users is empty. -/
theorem Exact.size_eq_zero (h : p.Exact) (none : ∀ s, p.users s = 0) : p.size = 0 := by
  have empty : p.counts.chained = [] := by
    refine List.eq_nil_iff_forall_not_mem.mpr fun i hi => ?_
    obtain ⟨e, he⟩ := h.counts.entry_eq hi
    have c : p.counts.contentAt i = some (e.key.letters, e.value) := by simp [Table.contentAt, he]
    cases hv : e.value with
    | none => exact h.full _ ⟨i, hi, hv ▸ c⟩
    | some n =>
      have users : p.users e.key = n := h.toSound.users_eq ⟨i, hi, hv ▸ c⟩
      rw [none] at users
      exact h.used _ ⟨i, hi, users ▸ hv ▸ c⟩
  unfold size Table.size
  rw [h.counts.counted, empty]
  exact Nat.zero_sub _

end Pool

namespace Keyring

/-- A keyring whose pools hold no key without a user. -/
def Exact (r : Keyring) : Prop := ∀ p, (r.pool p).Exact

variable {r : Keyring} {p q : Nat} {ks : List Key} {x : Bytes × Bool}

theorem Exact.sound (h : r.Exact) : r.Sound := fun p => (h p).toSound

theorem pool_ofSeeds (seeds : Array Seed) (supply : Supply) (p : Nat) :
    ∃ seed, (ofSeeds seeds supply).pool p = .ofSeed seed := by
  unfold pool ofSeeds
  simp only [Array.getD_eq_getD_getElem?, Array.getElem?_map]
  cases seeds[p]? <;> exact ⟨_, rfl⟩

theorem exact_ofSeeds (seeds : Array Seed) (supply : Supply) : (ofSeeds seeds supply).Exact := by
  intro p
  obtain ⟨seed, e⟩ := pool_ofSeeds seeds supply p
  exact e ▸ Pool.exact_ofSeed seed

theorem users_ofSeeds (seeds : Array Seed) (supply : Supply) (p : Nat) (s : Spelling) :
    ((ofSeeds seeds supply).pool p).users s = 0 := by
  obtain ⟨seed, e⟩ := pool_ofSeeds seeds supply p
  rw [e]
  exact (Pool.sound_ofSeed seed).users_eq_zero fun _ => Table.not_binds_new

/-- One of the pools there are, when a pool is changed. -/
theorem pool_set (hq : q < r.pools.size) (p : Nat) (pool : Pool) (supply : Supply) :
    Keyring.pool ⟨r.pools.setIfInBounds p pool, supply⟩ q = if p = q then pool else r.pool q := by
  unfold Keyring.pool
  simp only [Array.getD_eq_getD_getElem?, Array.getElem?_setIfInBounds]
  split
  · rename_i here
    rw [if_pos (here ▸ hq)]
    rfl
  · rfl

theorem Exact.of_pool (h : r.Exact) {pool : Pool} (exact : pool.Exact) (p : Nat)
    (supply : Supply) : Exact ⟨r.pools.setIfInBounds p pool, supply⟩ := by
  intro q
  rcases pool_setIfInBounds (r := r) p q pool supply with ⟨e, -⟩ | e <;> rw [e]
  · exact exact
  · exact h q

theorem Exact.intern (h : r.Exact) (p : Nat) (s : Spelling) : (r.intern p s).2.Exact :=
  h.of_pool ((h p).intern s r.supply) p _

theorem Exact.release (h : r.Exact) (p : Nat) (k : Key) : (r.release p k).2.Exact :=
  h.of_pool ((h p).release k) p _

theorem size_intern (p : Nat) (s : Spelling) : (r.intern p s).2.pools.size = r.pools.size :=
  Array.size_setIfInBounds

theorem size_release (p : Nat) (k : Key) : (r.release p k).2.pools.size = r.pools.size :=
  Array.size_setIfInBounds

/-- **Interning**, seen from one of the pools there are. -/
theorem Exact.users_intern (h : r.Exact) (hq : q < r.pools.size) (p : Nat) (s y : Spelling) :
    ((r.intern p s).2.pool q).users y =
      (r.pool q).users y + if p = q ∧ s.letters = y.letters then 1 else 0 := by
  show (Keyring.pool ⟨r.pools.setIfInBounds p ((r.pool p).intern s r.supply).2.1, _⟩ q).users y = _
  rw [pool_set hq]
  by_cases here : p = q
  · subst here
    rw [if_pos rfl, (h p).users_intern]
    simp [eq_comm]
  · simp [here]

/-- **Releasing**, seen from one of the pools there are. -/
theorem Exact.users_release (h : r.Exact) (hq : q < r.pools.size) (p : Nat) (k : Key)
    (y : Spelling) :
    ((r.release p k).2.pool q).users y =
      (r.pool q).users y - if p = q ∧ k.letters = y.letters then 1 else 0 := by
  show (Keyring.pool ⟨r.pools.setIfInBounds p ((r.pool p).release k).2, _⟩ q).users y = _
  rw [pool_set hq]
  by_cases here : p = q
  · subst here
    rw [if_pos rfl, (h p).users_release]
    simp
  · simp [here]

/-! ### Many keys -/

/-- Interns spellings in the pool of a table, one after the other; a table without a pool has keys
of its own. -/
def internAll (r : Keyring) (p : Option Nat) (ss : List Spelling) : Keyring :=
  match p with
  | none => r
  | some p => ss.foldl (fun r s => (r.intern p s).2) r

theorem Exact.internAll (h : r.Exact) (p : Option Nat) (ss : List Spelling) :
    (r.internAll p ss).Exact ∧ (r.internAll p ss).pools.size = r.pools.size := by
  cases p with
  | none => exact ⟨h, rfl⟩
  | some p =>
    show Exact (ss.foldl (fun r s => (r.intern p s).2) r) ∧
      (ss.foldl (fun r s => (r.intern p s).2) r).pools.size = r.pools.size
    induction ss generalizing r with
    | nil => exact ⟨h, rfl⟩
    | cons s ss ih =>
      obtain ⟨exact, size⟩ := ih (h.intern p s)
      exact ⟨exact, size.trans (size_intern p s)⟩

theorem Exact.releaseAll (h : r.Exact) (p : Option Nat) (ks : List Key) :
    (r.releaseAll p ks).Exact ∧ (r.releaseAll p ks).pools.size = r.pools.size := by
  cases p with
  | none => exact ⟨h, rfl⟩
  | some p =>
    show Exact (ks.foldl (fun r k => (r.release p k).2) r) ∧
      (ks.foldl (fun r k => (r.release p k).2) r).pools.size = r.pools.size
    induction ks generalizing r with
    | nil => exact ⟨h, rfl⟩
    | cons k ks ih =>
      obtain ⟨exact, size⟩ := ih (h.release p k)
      exact ⟨exact, size.trans (size_release p k)⟩

theorem Sound.internAll (h : r.Sound) (p : Option Nat) (ss : List Spelling) :
    r.Turns (r.internAll p ss) := by
  cases p with
  | none => exact .refl h
  | some p =>
    show r.Turns (ss.foldl (fun r s => (r.intern p s).2) r)
    induction ss generalizing r with
    | nil => exact .refl h
    | cons s ss ih =>
      have first := (h.intern p s).2.2
      exact first.trans (ih first.sound)

/-- **Interning all** of some spellings counts a user more for each. -/
theorem Exact.users_internAll (h : r.Exact) (hq : q < r.pools.size) (p : Option Nat)
    (ss : List Spelling) (y : Spelling) :
    ((r.internAll p ss).pool q).users y = (r.pool q).users y +
      if p = some q then ss.countP (fun s => s.letters = y.letters) else 0 := by
  cases p with
  | none => rfl
  | some p =>
    induction ss generalizing r with
    | nil => simp [Keyring.internAll]
    | cons s ss ih =>
      have rest := ih (h.intern p s) (size_intern (r := r) p s ▸ hq)
      refine rest.trans ?_
      rw [h.users_intern hq, List.countP_cons]
      by_cases here : p = q
      · simp [here]
        omega
      · simp [here]

/-- **Releasing all** of some keys takes from the users of each as many as there are of it. -/
theorem Exact.users_releaseAll (h : r.Exact) (hq : q < r.pools.size) (p : Option Nat)
    (ks : List Key) (y : Spelling) :
    ((r.releaseAll p ks).pool q).users y =
      (r.pool q).users y - if p = some q then Key.tally y.letters ks else 0 := by
  cases p with
  | none => rfl
  | some p =>
    induction ks generalizing r with
    | nil => simp [Keyring.releaseAll]
    | cons k ks ih =>
      have rest := ih (h.release p k) (size_release (r := r) p k ▸ hq)
      refine rest.trans ?_
      rw [h.users_release hq, Key.tally_cons]
      by_cases here : p = q
      · simp [here]
        omega
      · simp [here]

/-- Keys that are released one after the other are all found. -/
def Finds (r : Keyring) (p : Nat) : List Key → Prop
  | [] => True
  | k :: ks => (r.release p k).1 = true ∧ Finds (r.release p k).2 p ks

/-- Keys of which there are as many users are found, one after the other. -/
theorem Exact.finds (h : r.Exact) (hp : p < r.pools.size)
    (enough : ∀ y : Spelling, Key.tally y.letters ks ≤ (r.pool p).users y) : r.Finds p ks := by
  induction ks generalizing r with
  | nil => trivial
  | cons k ks ih =>
    refine ⟨(h p).toSound.finds ?_, ih (h.release p k) (size_release (r := r) p k ▸ hp) fun y => ?_⟩
    · have : Key.tally k.letters (k :: ks) ≤ (r.pool p).users k := enough k
      rw [Key.tally_cons, if_pos rfl] at this
      omega
    · have := enough y
      rw [Key.tally_cons] at this
      rw [h.users_release hp]
      simp only [true_and]
      omega

end Keyring

end ScriptCore
