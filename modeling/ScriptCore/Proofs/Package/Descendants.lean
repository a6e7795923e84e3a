import Mathlib.Data.List.Basic
import Mathlib.Data.List.Flatten
import ScriptCore.Package.Ancestry
import ScriptCore.Proofs.Key.Map

/-!
# Package — who inherits from a package

`descendants` follows an index of children from a package on.  What it finds has the package in it
and is closed under the index (`closed_descendants`), for the steps it is given are never used up:
each step drops a package from those still to be looked at or, once, follows an entry of the index.
It finds nothing else (`forall_mem_descendants`), and no package twice (`apart_descendants`).
-/

namespace ScriptCore.Registry
open Key

/-- The children of a package by an index. -/
def childrenIn (index : KeyMap (List Key)) (package : Key) : List Key :=
  (index.get? package).getD []

/-- How many children there are in the entries not followed yet. -/
def unfollowed (index : KeyMap (List Key)) (found : List Key) : Nat :=
  ((index.filter fun e => !e.1.isIn found).flatMap (·.2)).length

section
variable {index : KeyMap (List Key)} {package k q : Key} {found todo : List Key}

/-- An entry that is followed pays for the children it adds. -/
theorem unfollowed_append (new : k.isIn found = false) :
    unfollowed index (found ++ [k]) + (childrenIn index k).length ≤ unfollowed index found := by
  unfold unfollowed childrenIn KeyMap.get?
  induction index with
  | nil => simp
  | cons e index ih =>
    by_cases here : k.same e.1 = true
    · have rest : ((index.filter fun e => !e.1.isIn (found ++ [k])).flatMap (·.2)).length ≤
          ((index.filter fun e => !e.1.isIn found).flatMap (·.2)).length := by
        refine (List.Sublist.flatMap ?_ _).length_le
        refine List.monotone_filter_right _ fun e h => ?_
        rw [Bool.not_eq_true', ← Bool.not_eq_true, isIn_append, not_or] at h
        simpa using h.1
      have out : e.1.isIn found = false := by rw [← new, isIn_congr here]
      have followed : e.1.isIn (found ++ [k]) = true :=
        isIn_append.mpr (.inr (isIn_cons.mpr (.inl (Key.same_symm here))))
      simp only [List.find?_cons, here, List.filter_cons, out, followed, Bool.not_true,
        Bool.not_false, Bool.false_eq_true, ↓reduceIte, List.flatMap_cons, List.length_append,
        Option.map_some, Option.getD_some]
      omega
    · have unchanged : e.1.isIn (found ++ [k]) = e.1.isIn found := by
        rw [Bool.eq_iff_iff, isIn_append, isIn_cons]
        refine or_iff_left ?_
        rintro (h | h)
        · exact here (Key.same_symm h)
        · cases h
      simp only [List.find?_cons, here, List.filter_cons, unchanged]
      split
      · simp only [List.flatMap_cons, List.length_append]
        omega
      · exact ih

/-- What is found or still to be looked at. -/
def Seen (found todo : List Key) (q : Key) : Prop := q.isIn found = true ∨ q.isIn todo = true

/-- The children of what is found are found or still to be looked at. -/
def Followed (index : KeyMap (List Key)) (found todo : List Key) : Prop :=
  ∀ q, q.isIn found = true → ∀ c ∈ childrenIn index q, Seen found todo c

/-- A package that is found already needs no second look. -/
theorem Seen.skip (known : k.isIn found = true) (h : Seen found (k :: todo) q) :
    Seen found todo q := by
  rcases h with h | h
  · exact .inl h
  · exact (isIn_cons.mp h).imp_left fun same => (isIn_congr same found).trans known

/-- A package that is found now has its children looked at next. -/
theorem Seen.follow (index : KeyMap (List Key)) (h : Seen found (k :: todo) q) :
    Seen (found ++ [k]) ((childrenIn index k).reverse ++ todo) q := by
  unfold Seen
  rw [isIn_append, isIn_append]
  rcases h with h | h
  · exact .inl (.inl h)
  · rcases isIn_cons.mp h with same | h
    · exact .inl (.inr (isIn_cons.mpr (.inl same)))
    · exact .inr (.inr h)

theorem Followed.follow (h : Followed index found (k :: todo)) :
    Followed index (found ++ [k]) ((childrenIn index k).reverse ++ todo) := by
  intro q hq c hc
  rcases isIn_append.mp hq with hq | hq
  · exact (h q hq c hc).follow index
  · -- a child of the package that is followed now
    have same : q.same k = true := (isIn_cons.mp hq).resolve_right Bool.false_ne_true
    have child : c ∈ childrenIn index k := by
      unfold childrenIn
      rwa [← KeyMap.get?_congr index q k same]
    refine .inr (isIn_append.mpr (.inl ?_))
    rw [isIn_reverse]
    exact Key.isIn_of_mem child

/-- Where nothing is left to be looked at, the search is over. -/
theorem Followed.closed (h : Followed index found []) :
    (∀ q, Seen found [] q → q.isIn found = true) ∧
      ∀ q, q.isIn found = true → ∀ c ∈ childrenIn index q, c.isIn found = true :=
  ⟨fun _ hq => hq.resolve_right Bool.false_ne_true,
    fun q hq c hc => (h q hq c hc).resolve_right Bool.false_ne_true⟩

/-- **Reaching.**  Where there are steps enough, all that was found or to be looked at is found
in the end, and so are the children of all that is found. -/
theorem closed_reachWithin {steps : Nat} (enough : todo.length + unfollowed index found ≤ steps)
    (followed : Followed index found todo) :
    (∀ q : Key, Seen found todo q → q.isIn (reachWithin index steps todo found) = true) ∧
      ∀ q, q.isIn (reachWithin index steps todo found) = true → ∀ c ∈ childrenIn index q,
        c.isIn (reachWithin index steps todo found) = true := by
  induction steps generalizing todo found with
  | zero =>
    have : todo = [] := List.length_eq_zero_iff.mp (by omega)
    subst this
    exact followed.closed
  | succ steps ih =>
    cases todo with
    | nil => exact followed.closed
    | cons k todo =>
      rw [List.length_cons] at enough
      unfold reachWithin
      cases new : k.isIn found with
      | true =>
        rw [if_pos rfl]
        obtain ⟨all, closed⟩ := ih (by omega) fun q hq c hc => (followed q hq c hc).skip new
        exact ⟨fun q hq => all q (hq.skip new), closed⟩
      | false =>
        rw [if_neg Bool.false_ne_true]
        -- the step is paid for by the entry of `k`
        have paid : ((childrenIn index k).reverse ++ todo).length +
            unfollowed index (found ++ [k]) ≤ steps := by
          have pays : unfollowed index (found ++ [k]) + (childrenIn index k).length ≤
            unfollowed index found := unfollowed_append new
          rw [List.length_append, List.length_reverse]
          omega
        obtain ⟨all, closed⟩ := ih paid followed.follow
        exact ⟨fun q hq => all q (hq.follow index), closed⟩

/-- **Who inherits.**  The package is found, and the children of all that is found. -/
theorem closed_descendants (index : KeyMap (List Key)) (package : Key) :
    package.isIn (descendants index package) = true ∧
      ∀ q, q.isIn (descendants index package) = true → ∀ c ∈ childrenIn index q,
        c.isIn (descendants index package) = true := by
  have all : unfollowed index [] = (index.flatMap fun e => e.2).length := by
    unfold unfollowed
    rw [List.filter_eq_self.mpr fun _ _ => by simp [Key.isIn]]
  have enough : [package].length + unfollowed index [] ≤
      (index.flatMap fun e => e.2).length + 1 := by
    rw [all, List.length_singleton]
    exact Nat.le_of_eq (Nat.add_comm ..)
  obtain ⟨found, closed⟩ := closed_reachWithin enough fun q hq => absurd hq Bool.false_ne_true
  exact ⟨found package (.inr (Key.isIn_of_mem (by simp))), closed⟩

/-! ### Nothing else, and nothing twice -/

/-- What holds of all that is found or to be looked at, and passes from packages to their
children, holds of all that is found in the end. -/
theorem forall_mem_reachWithin {P : Key → Prop} (pass : ∀ q, P q → ∀ c ∈ childrenIn index q, P c)
    {steps : Nat} (known : ∀ q ∈ found, P q) (ahead : ∀ q ∈ todo, P q) :
    ∀ q ∈ reachWithin index steps todo found, P q := by
  induction steps generalizing todo found with
  | zero => exact known
  | succ steps ih =>
    cases todo with
    | nil => exact known
    | cons k todo =>
      obtain ⟨hk, ahead⟩ := List.forall_mem_cons.mp ahead
      unfold reachWithin
      split
      · exact ih known ahead
      · refine ih (fun q hq => ?_) fun q hq => ?_
        · rcases List.mem_append.mp hq with hq | hq
          · exact known q hq
          · rw [List.mem_singleton] at hq
            exact hq ▸ hk
        · rcases List.mem_append.mp hq with hq | hq
          · exact pass k hk q (List.mem_reverse.mp hq)
          · exact ahead q hq

theorem forall_mem_descendants {P : Key → Prop}
    (pass : ∀ q, P q → ∀ c ∈ childrenIn index q, P c) (hp : P package) :
    ∀ q ∈ descendants index package, P q :=
  forall_mem_reachWithin pass (fun _ => nofun) fun q hq => by
    rw [List.mem_singleton] at hq
    exact hq ▸ hp

theorem apart_reachWithin {steps : Nat} (apart : Apart found) :
    Apart (reachWithin index steps todo found) := by
  induction steps generalizing todo found with
  | zero => exact apart
  | succ steps ih =>
    cases todo with
    | nil => exact apart
    | cons k todo =>
      unfold reachWithin
      split
      · exact ih apart
      · rename_i new
        refine ih (List.pairwise_append.mpr ⟨apart, List.pairwise_singleton _ _, ?_⟩)
        intro a ha b hb
        rw [List.mem_singleton] at hb
        subst hb
        rw [← Bool.not_eq_true]
        intro same
        exact new (isIn_congr (same_symm same) found ▸ isIn_of_mem ha)

/-- **Once each.**  No package is found twice. -/
theorem apart_descendants (index : KeyMap (List Key)) (package : Key) :
    Apart (descendants index package) :=
  apart_reachWithin List.Pairwise.nil

end

end ScriptCore.Registry
