import ScriptCore.Proofs.Package.Inheritance

/-!
# Package — which packages an order has

The two ways to merge differ in the order they give, not in what they put into it: the package
itself, the packages it inherits from, and the universal package at the end.

* `isIn_merge_cases`, `isIn_merge`: what is merged for a package is the package and what its
  parents have.
* `HasOrder.isIn_iff`: so an order from scratch has the packages that the package inherits from, and
  the universal package, whichever way it was merged.
-/

namespace ScriptCore

namespace Key

/-- What stands first among later keys is what is there and was not seen before. -/
theorem isIn_firstsAfter {k : Key} {seen ks : List Key} :
    k.isIn (firstsAfter seen ks) = true ↔ k.isIn ks = true ∧ ¬ k.isIn seen = true := by
  induction ks generalizing seen with
  | nil => simp [firstsAfter, isIn_nil]
  | cons q ks ih =>
    rw [firstsAfter, isIn_cons]
    split
    · rename_i old
      rw [ih]
      refine and_congr_left fun new => (or_iff_right fun same => new ?_).symm
      rwa [isIn_congr same]
    · rename_i unseen
      rw [isIn_cons, ih, isIn_cons, not_or]
      by_cases same : k.same q = true
      · simp [same, isIn_congr same, unseen]
      · simp [same]

theorem isIn_firsts {k : Key} {ks : List Key} : k.isIn (firsts ks) = true ↔ k.isIn ks = true := by
  simp [firsts, isIn_firstsAfter, isIn_nil]

theorem isIn_flatten {k : Key} {ls : List (List Key)} :
    k.isIn ls.flatten = true ↔ ∃ ks ∈ ls, k.isIn ks = true := by
  simp only [isIn, List.any_flatten, List.any_eq_true]

end Key

namespace Lineage
open Key

section
variable {algorithm : Algorithm} {k taken package : Key} {s parents order : List Key}
  {sequences orders : List (List Key)}

/-! ### Merges -/

theorem isIn_dropHead (inside : k.isIn s = true) :
    k.same taken = true ∨ k.isIn (dropHead taken s) = true := by
  cases s with
  | nil => cases inside
  | cons q s =>
    rw [dropHead]
    split
    · rename_i head
      exact (isIn_cons.mp inside).imp_left fun same => same_trans same head
    · exact .inr inside

theorem isIn_of_dropHead (inside : k.isIn (dropHead taken s) = true) : k.isIn s = true := by
  cases s with
  | nil => exact inside
  | cons q s =>
    rw [dropHead] at inside
    split at inside
    · exact isIn_cons.mpr (.inr inside)
    · exact inside

/-- What is taken next stands in a sequence. -/
theorem exists_of_nextHead (next : nextHead sequences = some taken) :
    ∃ s ∈ sequences, taken ∈ s := by
  obtain ⟨s, hs, head⟩ := List.mem_filterMap.mp (List.mem_of_find?_eq_some next)
  exact ⟨s, hs, List.mem_of_mem_head? head⟩

/-- Nothing is left in sequences that are empty. -/
theorem not_isIn_of_done (done : sequences.all (·.isEmpty) = true) :
    ¬ ∃ s ∈ sequences, k.isIn s = true := by
  rintro ⟨s, hs, inside⟩
  have empty : s = [] := by simpa using List.all_eq_true.mp done s hs
  rw [empty] at inside
  cases inside

/-- A merge has what its sequences have. -/
theorem isIn_mergeWithin {steps : Nat} (merged : mergeWithin steps sequences = some order) :
    k.isIn order = true ↔ ∃ s ∈ sequences, k.isIn s = true := by
  induction steps generalizing sequences order with
  | zero =>
    rw [mergeWithin] at merged
    split at merged
    · rename_i done
      cases merged
      exact iff_of_false Bool.false_ne_true (not_isIn_of_done done)
    · cases merged
  | succ steps ih =>
    rw [mergeWithin] at merged
    split at merged
    · rename_i done
      cases merged
      exact iff_of_false Bool.false_ne_true (not_isIn_of_done done)
    · obtain ⟨taken, next, merged⟩ := Option.bind_eq_some_iff.mp merged
      obtain ⟨rest, below, rfl⟩ := Option.map_eq_some_iff.mp merged
      rw [isIn_cons, ih below]
      constructor
      · rintro (same | ⟨s, hs, inside⟩)
        · obtain ⟨s, hs, there⟩ := exists_of_nextHead next
          refine ⟨s, hs, ?_⟩
          rw [isIn_congr same]
          exact isIn_of_mem there
        · obtain ⟨s', hs', rfl⟩ := List.mem_map.mp hs
          exact ⟨s', hs', isIn_of_dropHead inside⟩
      · rintro ⟨s, hs, inside⟩
        exact (isIn_dropHead inside).imp_right fun left => ⟨_, List.mem_map_of_mem hs, left⟩

theorem isIn_mergeC3 (merged : mergeC3 package parents orders = some order) :
    k.isIn order = true ↔ k.same package = true ∨
      (∃ o ∈ orders, k.isIn (inherited o) = true) ∨ k.isIn parents = true := by
  obtain ⟨rest, below, rfl⟩ := Option.map_eq_some_iff.mp merged
  rw [isIn_cons, isIn_mergeWithin below]
  refine or_congr_right ?_
  simp [or_and_right, exists_or]

theorem isIn_mergeDepthFirst : k.isIn (mergeDepthFirst package orders) = true ↔
    k.same package = true ∨ ∃ o ∈ orders, k.isIn (inherited o) = true := by
  rw [mergeDepthFirst, isIn_firsts, isIn_cons, isIn_flatten]
  simp

/-- **What a merge has** besides the package its parents have, or it is one of them. -/
theorem isIn_merge_cases (merged : merge algorithm package parents orders = some order)
    (inside : k.isIn order = true) : k.same package = true ∨ k.isIn parents = true ∨
      ∃ o ∈ orders, k.isIn (inherited o) = true := by
  cases algorithm with
  | depthFirst =>
    rw [← Option.some.inj merged, isIn_mergeDepthFirst] at inside
    exact inside.imp_right .inr
  | c3 => exact ((isIn_mergeC3 merged).mp inside).imp_right Or.symm

/-- A merge has the package and what is inherited by its parents. -/
theorem isIn_merge (merged : merge algorithm package parents orders = some order)
    (h : k.same package = true ∨ ∃ o ∈ orders, k.isIn (inherited o) = true) :
    k.isIn order = true := by
  cases algorithm with
  | depthFirst =>
    rw [← Option.some.inj merged, isIn_mergeDepthFirst]
    exact h
  | c3 => exact (isIn_mergeC3 merged).mpr (h.imp_right .inl)

/-! ### The end of an order -/

theorem isIn_of_inherited (inside : k.isIn (inherited order) = true) : k.isIn order = true := by
  rw [inherited] at inside
  split at inside
  · split at inside
    · obtain ⟨q, hq, same⟩ := List.any_eq_true.mp inside
      exact List.any_eq_true.mpr ⟨q, List.mem_of_mem_dropLast hq, same⟩
    · exact inside
  · cases inside

/-- All but a universal package at the end is inherited. -/
theorem isIn_inherited (inside : k.isIn order = true) :
    k.isIn (inherited order) = true ∨ ∃ u ∈ order, u.isUniversal = true ∧ k.same u = true := by
  rw [inherited]
  split
  · rename_i u last
    split
    · rename_i isUniversal
      rw [← List.dropLast_append_getLast? u last, isIn_append, isIn_cons] at inside
      rcases inside with inside | same | nothing
      · exact .inl inside
      · exact .inr ⟨u, List.mem_of_getLast? last, isUniversal, same⟩
      · cases nothing
    · exact .inl inside
  · rename_i empty
    rw [List.getLast?_eq_none_iff.mp empty] at inside
    cases inside

theorem isIn_closed {last : Key} : k.isIn (closed last order) = true ↔
    k.isIn order = true ∨ order.any isUniversal = false ∧ k.same last = true := by
  rw [closed]
  split
  · rename_i there
    simp [there]
  · rename_i missing
    simp [missing, isIn_append, isIn_cons, isIn_nil]

end

end Lineage

namespace Registry
open Beside Key Lineage

section
variable {lists : Bytes × Bool → List String} {seed : Seed} {algorithm : Algorithm}
  {k q package : Key} {order : List Key}

/-! ### Orders from scratch -/

/-- A key that spells the universal package is the key at the end of every lineage. -/
def IsRegular (seed : Seed) (k : Key) : Prop :=
  k.isUniversal = true → k.same (lastKey seed) = true

theorem IsRegular.of_same (regular : IsRegular seed q) (same : k.same q = true) :
    IsRegular seed k := by
  intro spelt
  refine same_trans same (regular ?_)
  rw [isUniversal, show q.bytes = k.bytes from
    (congrArg Prod.fst (letters_eq_of_same same)).symm]
  exact spelt

/-- The parents of a package are read off as bytes. -/
theorem isRegular_of_mem_graph (hq : q ∈ graph lists seed k) : IsRegular seed q := by
  obtain ⟨s, -, rfl⟩ := List.mem_map.mp hq
  intro spelt
  have bytes : Text.encode s = Text.encode universal := beq_iff_eq.mp spelt
  have letters : (Spelling.ofText universal).letters = (Text.encode universal, false) := by
    decide
  have hashed : (Key.probe (.ofBytes (Text.encode s)) seed).IsHashed seed := rfl
  refine same_iff.mpr (hashed.plain_eq rfl ?_)
  show (Text.encode s, false) = (Spelling.ofText universal).letters
  rw [bytes, letters]

theorem IsRegular.of_inherits (regular : IsRegular seed package)
    (up : Inherits (graph lists seed) k package) : IsRegular seed k := by
  induction up with
  | self same => exact regular.of_same (same_symm same)
  | parent hq _ ih => exact ih (isRegular_of_mem_graph hq)

/-- What an order has is regular when it has what is inherited from and the universal package. -/
theorem IsRegular.of_isIn (regular : IsRegular seed package)
    (inside : k.same (lastKey seed) = true ∨ Inherits (graph lists seed) k package) :
    IsRegular seed k :=
  inside.elim (fun same _ => same) regular.of_inherits

/-- **What an order has.**  They are the packages that the package inherits from, and the universal
package. -/
theorem isIn_orderWithin {levels : Nat} (regular : IsRegular seed package)
    (found : orderWithin (graph lists seed) (lastKey seed) algorithm levels package = some order) :
    k.isIn order = true ↔
      k.same (lastKey seed) = true ∨ Inherits (graph lists seed) k package := by
  induction levels generalizing k package order with
  | zero => cases found
  | succ levels ih =>
    obtain ⟨orders, all, found⟩ := Option.bind_eq_some_iff.mp found
    obtain ⟨merged, his, rfl⟩ := Option.map_eq_some_iff.mp found
    have all := mapM_eq_some_iff.mp all
    -- nothing comes into a merge but from above
    have above {k : Key} (inside : k.isIn merged = true) :
        k.same (lastKey seed) = true ∨ Inherits (graph lists seed) k package := by
      rcases isIn_merge_cases his inside with same | parent | ⟨o, ho, inherits⟩
      · exact .inr (.self (same_symm same))
      · obtain ⟨q, hq, same⟩ := List.any_eq_true.mp parent
        exact .inr (.parent hq (.self (same_symm same)))
      · obtain ⟨q, hq, found⟩ := Heap.exists_mem_of_forall₂ all.flip ho
        rcases (ih (isRegular_of_mem_graph hq) found).mp (isIn_of_inherited inherits) with same | up
        · exact .inl same
        · exact .inr (.parent hq up)
    -- the order ends at the universal package unless it has it
    have ends {k : Key} (same : k.same (lastKey seed) = true) :
        k.isIn (closed (lastKey seed) merged) = true := by
      rw [isIn_closed]
      cases there : merged.any isUniversal with
      | false => exact .inr ⟨rfl, same⟩
      | true =>
        obtain ⟨u, hu, spelt⟩ := List.any_eq_true.mp there
        have last := regular.of_isIn (above (isIn_of_mem hu)) spelt
        refine .inl ?_
        rw [isIn_congr (same_trans same (same_symm last))]
        exact isIn_of_mem hu
    constructor
    · intro inside
      rcases isIn_closed.mp inside with inside | ⟨-, same⟩
      · exact above inside
      · exact .inl same
    · rintro (same | up)
      · exact ends same
      · cases up with
        | self same => exact isIn_closed.mpr (.inl (isIn_merge his (.inl (same_symm same))))
        | parent hq up =>
          obtain ⟨o, ho, found⟩ := Heap.exists_mem_of_forall₂ all hq
          rcases isIn_inherited ((ih (isRegular_of_mem_graph hq) found).mpr (.inr up)) with
            inherits | ⟨u, hu, spelt, same⟩
          · exact isIn_closed.mpr (.inl (isIn_merge his (.inr ⟨o, ho, inherits⟩)))
          · have regular := (isRegular_of_mem_graph hq).of_isIn
              ((ih (isRegular_of_mem_graph hq) found).mp (isIn_of_mem hu))
            exact ends (same_trans same (regular spelt))

/-- The same of an order that is known up to identities of keys. -/
theorem HasOrder.isIn_iff (is : HasOrder lists seed algorithm package order)
    (regular : IsRegular seed package) : k.isIn order = true ↔
      k.same (lastKey seed) = true ∨ Inherits (graph lists seed) k package := by
  obtain ⟨levels, found⟩ := is
  have plain : package.plain.same package = true := same_iff.mpr (plain_plain package)
  have plain' : k.plain.same k = true := same_iff.mpr (plain_plain k)
  rw [← isIn_plain, isIn_orderWithin (regular.of_same plain) found]
  refine or_congr (by rw [same_congr plain']) ⟨fun up => ?_, fun up => ?_⟩
  · exact (up.of_same plain').congr plain
  · exact (up.of_same (same_symm plain')).congr (same_symm plain)

/-- Only the name of the universal package spells it. -/
theorem eq_universal {name : String} (h : (Spelling.ofText name).bytes = Text.encode universal) :
    name = universal := by
  rcases Spelling.letters_ofText name with ⟨b, letters, narrow⟩ | letters
  · have bytes : b = Text.encode universal := (congrArg Prod.fst letters).symm.trans h
    have ascii : Text.latin1? universal.toList = some (Text.encode universal) :=
      Text.latin1?_of_isAscii (by decide)
    rw [← String.toList_inj, Text.eq_of_latin1? narrow, Text.eq_of_latin1? ascii, bytes]
  · exact Text.encode_injective ((congrArg Prod.fst letters).symm.trans h)

/-- A package that is given by name is regular. -/
theorem Shelved.isRegular_keyOf {r : Registry} {h : Heap} (s : Shelved lists seed r h)
    (name : String) : IsRegular seed (r.keyOf name) := by
  intro spelt
  have bytes : (Spelling.ofText name).bytes = (r.keyOf name).bytes :=
    congrArg Prod.fst (s.keyOf name).2.symm
  obtain rfl := eq_universal (bytes.trans (beq_iff_eq.mp spelt))
  exact same_iff.mpr s.plain_universal

end

end Registry

end ScriptCore
