import Mathlib.Algebra.Order.BigOperators.Group.List
import Mathlib.Algebra.Order.Group.Nat
import ScriptCore.Proofs.Package.Lines
import ScriptCore.Proofs.Package.Requests

/-!
# Package — orders that are consistent

A line of packages is *consistent* with sequences when it names none twice and each sequence stands
in it, in its order (`IsConsistent`).  C3 takes the first head that stands in no tail.  Where there
is a consistent line such a head is never missing, because the first of the line that is left in a
sequence is one; and what was taken is a consistent line.

* `mergeC3_isSome_iff`, `mergeC3_sound`: so C3 merges exactly what can be merged.
* `linearizeBy_consistent`: whatever was done with a new registry, where no parent list names the
  universal package, the C3 order of a package has that of every package above it, and so has each
  of them before its parents and these in the order of their list.
-/

namespace ScriptCore.Lineage
open Key

/-- The keys stand in a line, in their order. -/
def Follows (keys line : List Key) : Prop := (keys.map plain).Sublist (line.map plain)

/-- A line without repetitions in which every sequence stands, in its order. -/
structure IsConsistent (sequences : List (List Key)) (line : List Key) : Prop where
  apart : Apart line
  follows : ∀ s ∈ sequences, Follows s line

section
variable {k taken package : Key} {s line order rest parents : List Key}
  {sequences orders : List (List Key)} {steps : Nat}

/-! ### Standing in a line -/

theorem Follows.refl (line : List Key) : Follows line line := List.Sublist.refl _

theorem Follows.trans {a b c : List Key} (h : Follows a b) (h' : Follows b c) : Follows a c :=
  List.Sublist.trans h h'

theorem follows_of_sublist (h : s.Sublist line) : Follows s line := h.map plain

/-- What keys spell decides whether they stand in a line. -/
theorem follows_congr {a b c d : List Key} (keys : a.map plain = b.map plain)
    (lines : c.map plain = d.map plain) : Follows a c ↔ Follows b d := by
  unfold Follows
  rw [keys, lines]

theorem map_plain_map_plain (line : List Key) : (line.map plain).map plain = line.map plain := by
  rw [List.map_map]
  rfl

theorem Follows.isIn (h : Follows s line) (inside : k.isIn s = true) : k.isIn line = true :=
  isIn_iff.mpr (h.subset (isIn_iff.mp inside))

theorem Follows.tail (h : Follows s (k :: rest)) : Follows s.tail rest := by
  have tails := List.Sublist.tail h
  rwa [← List.map_tail, ← List.map_tail] at tails

theorem Follows.cons (same : k.same taken = true) (h : Follows s rest) :
    Follows (k :: s) (taken :: rest) := by
  unfold Follows
  rw [List.map_cons, List.map_cons, same_iff.mp same]
  exact List.Sublist.cons_cons _ h

/-- A sequence that stands in a line stands behind its first key, or begins with it. -/
theorem Follows.cases (h : Follows s (k :: rest)) :
    Follows s rest ∨ ∃ q s', s = q :: s' ∧ q.same k = true := by
  rcases List.sublist_cons_iff.mp h with behind | ⟨ks, begins, -⟩
  · exact .inl behind
  · obtain ⟨q, s', rfl, same, -⟩ := List.map_eq_cons_iff.mp begins
    exact .inr ⟨q, s', rfl, same_iff.mpr same⟩

/-! ### Heads -/

/-- What is taken next is a head and stands in no tail. -/
theorem nextHead_eq_some (next : nextHead sequences = some taken) :
    (∃ s ∈ sequences, s.head? = some taken) ∧ ∀ s ∈ sequences, ¬ taken.isIn s.tail = true := by
  constructor
  · exact List.mem_filterMap.mp (List.mem_of_find?_eq_some next)
  · simpa using List.find?_some next

theorem nextHead_isSome (hs : s ∈ sequences) (head : s.head? = some k)
    (away : ∀ s ∈ sequences, ¬ k.isIn s.tail = true) : (nextHead sequences).isSome = true := by
  refine List.find?_isSome.mpr ⟨k, List.mem_filterMap.mpr ⟨s, hs, head⟩, ?_⟩
  simpa using away

/-- **A head is not missing** where there is a consistent line: the first of the line that is left
in a sequence stands in no tail. -/
theorem IsConsistent.nextHead (c : IsConsistent sequences line)
    (left : ¬ sequences.all (·.isEmpty) = true) : (nextHead sequences).isSome = true := by
  induction line with
  | nil =>
    refine absurd (List.all_eq_true.mpr fun s hs => ?_) left
    simpa [Follows] using c.follows s hs
  | cons k rest ih =>
    obtain ⟨apart, follows⟩ := c
    by_cases begins : ∃ s ∈ sequences, ∃ q s', s = q :: s' ∧ q.same k = true
    · obtain ⟨s, hs, q, s', rfl, same⟩ := begins
      refine nextHead_isSome hs rfl fun s hs inside => ?_
      have behind := (follows s hs).tail.isIn inside
      rw [isIn_of_apart apart (same_symm same)] at behind
      cases behind
    · refine ih ⟨(List.pairwise_cons.mp apart).2, fun s hs => ?_⟩
      exact (follows s hs).cases.resolve_right fun ⟨q, s', h⟩ => begins ⟨s, hs, q, s', h⟩

/-! ### Steps -/

theorem dropHead_sublist (taken : Key) (s : List Key) : (dropHead taken s).Sublist s := by
  cases s with
  | nil => exact .slnil
  | cons k s =>
    rw [dropHead]
    split
    · exact List.sublist_cons_self k s
    · exact .refl _

/-- What is consistent stays so when a head is taken. -/
theorem IsConsistent.dropHead (c : IsConsistent sequences line) (taken : Key) :
    IsConsistent (sequences.map (dropHead taken)) line := by
  refine ⟨c.apart, List.forall_mem_map.mpr fun s hs => ?_⟩
  exact (follows_of_sublist (dropHead_sublist taken s)).trans (c.follows s hs)

/-- A head that is taken shortens a sequence, and no sequence gets longer. -/
theorem length_flatten_dropHead (next : nextHead sequences = some taken) :
    (sequences.map (dropHead taken)).flatten.length < sequences.flatten.length := by
  rw [List.length_flatten, List.length_flatten, List.map_map]
  obtain ⟨⟨s, hs, head⟩, -⟩ := nextHead_eq_some next
  refine List.sum_lt_sum _ _ (fun s _ => (dropHead_sublist taken s).length_le) ⟨s, hs, ?_⟩
  obtain ⟨s', rfl⟩ := List.head?_eq_some_iff.mp head
  simp [Lineage.dropHead, same_refl]

/-- A key that stands in no tail is gone when it was taken. -/
theorem not_isIn_dropHead (away : ¬ taken.isIn s.tail = true) :
    ¬ taken.isIn (dropHead taken s) = true := by
  cases s with
  | nil => exact away
  | cons k s =>
    rw [dropHead]
    split
    · exact away
    · rename_i other
      rw [isIn_cons, not_or]
      exact ⟨fun same => other (same_symm same), away⟩

theorem follows_of_dropHead (h : Follows (dropHead taken s) rest) : Follows s (taken :: rest) := by
  cases s with
  | nil => exact List.nil_sublist _
  | cons k s =>
    rw [dropHead] at h
    split at h
    · exact h.cons (by assumption)
    · exact List.Sublist.cons _ h

/-! ### Merges -/

/-- **Merges succeed** where there is a consistent line, when there are steps enough. -/
theorem IsConsistent.mergeWithin (c : IsConsistent sequences line)
    (enough : sequences.flatten.length ≤ steps) : (mergeWithin steps sequences).isSome = true := by
  induction steps generalizing sequences with
  | zero =>
    have none : sequences.all (·.isEmpty) = true := by
      rw [Nat.le_zero, List.length_eq_zero_iff, List.flatten_eq_nil_iff] at enough
      simpa using enough
    rw [Lineage.mergeWithin, if_pos none]
    rfl
  | succ steps ih =>
    rw [Lineage.mergeWithin]
    split
    · rfl
    · rename_i left
      obtain ⟨taken, next⟩ := Option.isSome_iff_exists.mp (c.nextHead left)
      have shorter := length_flatten_dropHead next
      rw [next, Option.bind_some, Option.isSome_map]
      exact ih (c.dropHead taken) (by omega)

/-- Nothing is left to stand in a line. -/
theorem isConsistent_nil (empty : sequences.all (·.isEmpty) = true) :
    IsConsistent sequences [] := by
  refine ⟨.nil, fun s hs => ?_⟩
  have none : s = [] := by simpa using List.all_eq_true.mp empty s hs
  rw [none]
  exact .refl _

/-- **What is merged** is a consistent line. -/
theorem isConsistent_mergeWithin (merged : Lineage.mergeWithin steps sequences = some order) :
    IsConsistent sequences order := by
  induction steps generalizing sequences order with
  | zero =>
    rw [Lineage.mergeWithin] at merged
    split at merged
    · cases merged
      exact isConsistent_nil (by assumption)
    · cases merged
  | succ steps ih =>
    rw [Lineage.mergeWithin] at merged
    split at merged
    · cases merged
      exact isConsistent_nil (by assumption)
    · obtain ⟨taken, next, merged⟩ := Option.bind_eq_some_iff.mp merged
      obtain ⟨rest, below, rfl⟩ := Option.map_eq_some_iff.mp merged
      obtain ⟨-, away⟩ := nextHead_eq_some next
      obtain ⟨apart, follows⟩ := ih below
      refine ⟨List.pairwise_cons.mpr ⟨fun k hk => ?_, apart⟩, fun s hs => ?_⟩
      · -- what was taken is in none of the sequences that are merged behind it
        rw [Bool.eq_false_iff]
        intro same
        obtain ⟨s', hs', inside⟩ := (isIn_mergeWithin below).mp (isIn_of_mem hk)
        obtain ⟨s, hs, rfl⟩ := List.mem_map.mp hs'
        rw [← isIn_congr same] at inside
        exact not_isIn_dropHead (away s hs) inside
      · exact follows_of_dropHead (follows _ (List.mem_map_of_mem hs))

/-- **C3 succeeds exactly when it can.** -/
theorem mergeC3_isSome_iff : (mergeC3 package parents orders).isSome = true ↔
    ∃ line, IsConsistent (orders.map inherited ++ [parents]) line := by
  rw [mergeC3, Option.isSome_map]
  constructor
  · intro found
    obtain ⟨line, merged⟩ := Option.isSome_iff_exists.mp found
    exact ⟨line, isConsistent_mergeWithin merged⟩
  · rintro ⟨line, c⟩
    exact c.mergeWithin (Nat.le_refl _)

/-- **What C3 gives** is the package and a consistent line of what is merged. -/
theorem mergeC3_sound (merged : mergeC3 package parents orders = some order) :
    ∃ tail, order = package :: tail ∧ IsConsistent (orders.map inherited ++ [parents]) tail ∧
      ∀ k : Key, k.isIn tail = true ↔
        k.isIn parents = true ∨ ∃ o ∈ orders, k.isIn (inherited o) = true := by
  obtain ⟨tail, below, rfl⟩ := Option.map_eq_some_iff.mp merged
  refine ⟨tail, rfl, isConsistent_mergeWithin below, fun k => ?_⟩
  rw [isIn_mergeWithin below]
  simp [or_and_right, exists_or, or_comm]

/-! ### Orders from scratch -/

theorem inherited_sublist (order : List Key) : (inherited order).Sublist order := by
  unfold inherited
  split
  · split
    · exact List.dropLast_sublist order
    · exact .refl _
  · exact List.nil_sublist _

theorem sublist_closed (last : Key) (order : List Key) : order.Sublist (closed last order) := by
  unfold closed
  split
  · exact .refl _
  · exact List.sublist_append_left ..

end

end ScriptCore.Lineage

namespace ScriptCore.Registry
open Beside Key Lineage

section
variable {lists : Bytes × Bool → List String} {seed : Seed} {s : Beside Registry}
  {k q y package : Key} {levels levels' : Nat} {order o : List Key}

/-- How an order was merged: from those of the parents, which stand in it. -/
theorem exists_tail (omits : OmitsUniversal (graph lists seed))
    (found : orderWithin (graph lists seed) (lastKey seed) .c3 levels k.plain = some order) :
    ∃ above orders tail, levels = above + 1 ∧
      List.Forall₂ (fun q o => orderWithin (graph lists seed) (lastKey seed) .c3 above q.plain =
        some o) (graph lists seed k) orders ∧
      IsConsistent (orders.map inherited ++ [graph lists seed k]) tail ∧
      (∀ q ∈ tail, q.isIn (graph lists seed k) = true ∨
        ∃ o ∈ orders, q.isIn (inherited o) = true) ∧
      order = closed (lastKey seed) (k.plain :: tail) ∧
      (k.isUniversal = false → order = k.plain :: tail ++ [lastKey seed] ∧
        inherited order = k.plain :: tail) := by
  cases levels with
  | zero => cases found
  | succ levels =>
    obtain ⟨orders, all, found'⟩ := Option.bind_eq_some_iff.mp found
    obtain ⟨line, merged, rfl⟩ := Option.map_eq_some_iff.mp found'
    obtain ⟨tail, rfl, c, isIn⟩ := mergeC3_sound merged
    refine ⟨levels, orders, tail, rfl, ?_, c, fun q hq => (isIn q).mp (isIn_of_mem hq), rfl,
      fun other => ?_⟩
    · refine ((List.forall₂_and_left ..).mpr ⟨fun q hq => hq, mapM_eq_some_iff.mp all⟩).imp ?_
      rintro q o ⟨hq, found⟩
      rwa [plain_of_mem_graph hq]
    · obtain ⟨above, orders', line, e, all', merged', -, is, inherits⟩ :=
        orderWithin_line (isUniversal_lastKey seed) omits
          (show k.plain.isUniversal = false from other) found
      cases e
      -- the parents have one order each, and these are merged once
      obtain rfl := Option.some.inj (all.symm.trans (mapM_eq_some_iff.mpr all'))
      obtain rfl := Option.some.inj (merged.symm.trans merged')
      exact ⟨is, inherits⟩

/-- What is above a package that is not universal is not either. -/
theorem isUniversal_of_inherits (omits : OmitsUniversal (graph lists seed))
    (other : k.isUniversal = false) (up : Inherits (graph lists seed) y k) :
    y.isUniversal = false := by
  induction up with
  | self same => rw [← isUniversal_congr same, other]
  | parent hq _ ih => exact ih (omits _ _ hq)

/-- **What is inherited** from a package that is above another stands in what is inherited from
that. -/
theorem follows_inherited (omits : OmitsUniversal (graph lists seed))
    (up : Inherits (graph lists seed) y k) (other : k.isUniversal = false)
    (found : orderWithin (graph lists seed) (lastKey seed) .c3 levels k.plain = some order)
    (above : orderWithin (graph lists seed) (lastKey seed) .c3 levels' y.plain = some o) :
    Follows (inherited o) (inherited order) := by
  induction up generalizing levels order with
  | self same =>
    rw [same_iff.mp same] at found
    rw [IsOrder.unique ⟨levels', above⟩ ⟨levels, found⟩]
    exact .refl _
  | parent hq _ ih =>
    obtain ⟨_, orders, tail, rfl, all, c, -, -, line⟩ := exists_tail omits found
    obtain ⟨oq, ho, found'⟩ := Heap.exists_mem_of_forall₂ all hq
    rw [(line other).2]
    refine (ih (omits _ _ hq) found').trans ?_
    refine (c.follows _ (List.mem_append_left _ (List.mem_map_of_mem ho))).trans ?_
    exact follows_of_sublist (List.sublist_cons_self ..)

/-- **A package and its parents** stand in its order. -/
theorem follows_parents (omits : OmitsUniversal (graph lists seed))
    (found : orderWithin (graph lists seed) (lastKey seed) .c3 levels k.plain = some order) :
    Follows (k :: graph lists seed k) order ∧
      (k.isUniversal = false → Follows (k :: graph lists seed k) (inherited order)) := by
  obtain ⟨_, orders, tail, rfl, -, c, -, is, line⟩ := exists_tail omits found
  have stands : Follows (k :: graph lists seed k) (k.plain :: tail) :=
    (c.follows _ (List.mem_append_right _ (List.mem_singleton_self _))).cons (same_refl k)
  refine ⟨?_, fun other => by rwa [(line other).2]⟩
  rw [is]
  exact stands.trans (follows_of_sublist (sublist_closed ..))

/-- **What is inherited** from a package that is above another, and the package with its parents,
stand in the order of that. -/
theorem follows_order (omits : OmitsUniversal (graph lists seed))
    (up : Inherits (graph lists seed) y k)
    (found : orderWithin (graph lists seed) (lastKey seed) .c3 levels k.plain = some order)
    (above : orderWithin (graph lists seed) (lastKey seed) .c3 levels' y.plain = some o) :
    Follows (y :: graph lists seed y) order ∧ Follows (inherited o) order := by
  rcases inherits_iff.mp up with same | ⟨q, hq, up⟩
  · rw [same_iff.mp same] at found
    obtain rfl := IsOrder.unique ⟨levels', above⟩ ⟨levels, found⟩
    exact ⟨(follows_parents omits above).1, follows_of_sublist (inherited_sublist _)⟩
  · obtain ⟨_, orders, tail, rfl, all, c, -, rfl, -⟩ := exists_tail omits found
    obtain ⟨oq, ho, found'⟩ := Heap.exists_mem_of_forall₂ all hq
    have other := isUniversal_of_inherits omits (omits k q hq) up
    have stands : Follows (inherited o) (closed (lastKey seed) (k.plain :: tail)) := by
      refine (follows_inherited omits up (omits k q hq) found' above).trans ?_
      refine (c.follows _ (List.mem_append_left _ (List.mem_map_of_mem ho))).trans ?_
      exact follows_of_sublist ((List.sublist_cons_self ..).trans (sublist_closed ..))
    exact ⟨((follows_parents omits above).2 other).trans stands, stands⟩

/-- No package above another has that in what it hands down. -/
theorem not_isIn_inherited (omits : OmitsUniversal (graph lists seed))
    (found : (orderWithin (graph lists seed) (lastKey seed) .c3 levels k.plain).isSome)
    (hq : q ∈ graph lists seed k)
    (above : orderWithin (graph lists seed) (lastKey seed) .c3 levels' q.plain = some o) :
    ¬ k.isIn (inherited o) = true := by
  intro inside
  rw [plain_of_mem_graph hq] at above
  obtain ⟨_, _, line, -, -, -, none, -, inherits⟩ :=
    orderWithin_line (isUniversal_lastKey seed) omits (omits k q hq) above
  rcases (isIn_orderWithin (isRegular_of_mem_graph hq) above).mp (isIn_of_inherited inside) with
    same | up
  · have spelt := isUniversal_lastKey seed
    rw [← isUniversal_congr same, isUniversal_of_isIn none (inherits ▸ inside)] at spelt
    cases spelt
  · exact not_inherits_of_isSome found hq up

/-- **No package stands twice** in an order. -/
theorem apart_order (omits : OmitsUniversal (graph lists seed))
    (found : orderWithin (graph lists seed) (lastKey seed) .c3 levels k.plain = some order) :
    Apart order := by
  obtain ⟨_, orders, tail, rfl, all, c, isIn, rfl, -⟩ := exists_tail omits found
  have some := Option.isSome_of_eq_some found
  refine apart_closed (List.pairwise_cons.mpr ⟨fun q hq => ?_, c.apart⟩) (isUniversal_lastKey seed)
  rw [Bool.eq_false_iff]
  intro same
  rcases isIn q hq with parent | ⟨o, ho, inherits⟩
  · obtain ⟨p, hp, same'⟩ := List.any_eq_true.mp parent
    exact not_inherits_of_isSome some hp (.self (same_symm (same_trans same same')))
  · obtain ⟨p, hp, above⟩ := Heap.exists_mem_of_forall₂ all.flip ho
    refine not_isIn_inherited omits some hp above ?_
    rwa [← isIn_congr (show k.same q = true from same)] at inherits

/-- **The orders of all packages above** one whose order was given. -/
theorem HasOrder.follows {last : Key} (omits : OmitsUniversal (graph lists seed))
    (is : HasOrder lists seed .c3 k order) (hl : last.plain = lastKey seed)
    (up : Inherits (graph lists seed) y k) : Follows (y :: graph lists seed y) order ∧
      ∃ o, IsOrder (graph lists seed) last .c3 y o ∧ Follows (inherited o) order := by
  obtain ⟨levels, found⟩ := is
  obtain ⟨o, above⟩ := Option.isSome_iff_exists.mp
    (isSome_of_inherits (Option.isSome_of_eq_some found) up)
  obtain ⟨own, inherits⟩ := follows_order omits up found above
  -- the order of the other package, with the keys there are
  rw [← hl, ← orderWithin_plain map_plain_graph] at above
  obtain ⟨o, is, rfl⟩ := Option.map_eq_some_iff.mp above
  rw [← map_plain_inherited] at inherits
  exact ⟨(follows_congr rfl (map_plain_map_plain order)).mp own, o, ⟨levels, is⟩,
    (follows_congr (map_plain_map_plain _) (map_plain_map_plain order)).mp inherits⟩

theorem HasOrder.apart (omits : OmitsUniversal (graph lists seed))
    (is : HasOrder lists seed .c3 k order) : Apart order := by
  obtain ⟨levels, found⟩ := is
  exact apart_map_plain.mp (apart_order omits found)

/-- The order that is given of a package above stands in one that was given before. -/
theorem HasOrder.follows_given {order' : List Key} (omits : OmitsUniversal (graph lists seed))
    (is : HasOrder lists seed .c3 k order) (up : Inherits (graph lists seed) y k)
    (is' : HasOrder lists seed .c3 y order') : Follows (inherited order') order := by
  obtain ⟨levels, found⟩ := is
  obtain ⟨levels', above⟩ := is'
  have inherits := (follows_order omits up found above).2
  rw [← map_plain_inherited] at inherits
  exact (follows_congr (map_plain_map_plain _) (map_plain_map_plain order)).mp inherits

end

/-- **C3 is consistent and fails only when it must.**  It merges exactly when some line without
repetitions has every order that is inherited and the list of parents as subsequences, and gives
such a line, of the packages they name, behind the package.

So whatever was done with a new registry, where no parent list names the universal package: in an
order that is given no package stands twice, every package that is reached stands before its
parents and these stand in the order of their list, and its own order, without the universal
package at the end, stands in it, from scratch or as it is given. -/
theorem linearizeBy_consistent (seeds : Array Seed) (supply : Supply) (pool : Nat)
    (settings : Settings) (ops : List Op) (name : String) :
    (∀ (package : Key) (parents : List Key) (orders : List (List Key)),
      ((mergeC3 package parents orders).isSome = true ↔
        ∃ line, IsConsistent (orders.map inherited ++ [parents]) line) ∧
      ∀ order, mergeC3 package parents orders = some order →
        ∃ tail, order = package :: tail ∧ IsConsistent (orders.map inherited ++ [parents]) tail ∧
          ∀ k : Key, k.isIn tail = true ↔
            k.isIn parents = true ∨ ∃ o ∈ orders, k.isIn (inherited o) = true) ∧
    let s := run ops (start seeds supply pool settings)
    ∃ parents : Key → List Key, (∀ k, s.own.parents k s.heap = .ok (parents k) s.heap) ∧
      (OmitsUniversal parents → Ends (linearizeBy .c3 name) s (fun l t => Apart l.order ∧
        (∀ y, Inherits parents y (s.own.keyOf name) → Follows (y :: parents y) l.order ∧
          ∃ o, IsOrder parents (s.own.keyOf universal) .c3 y o ∧ Follows (inherited o) l.order) ∧
        ∀ other, Inherits parents (s.own.keyOf other) (s.own.keyOf name) →
          Ends (linearizeBy .c3 other) t (fun l' _ => Follows (inherited l'.order) l.order)
            fun _ => True) fun _ => True) := by
  refine ⟨fun package parents orders => ⟨mergeC3_isSome_iff, fun _ => mergeC3_sound⟩, ?_⟩
  intro s
  obtain ⟨lists, fit⟩ := (fit_start seeds supply pool settings).run ops
  refine ⟨graph lists _, fit.1.parents, fun omits => ?_⟩
  refine (Fit.linearizeBy .c3 name fit).imp ?_ fun _ _ => trivial
  rintro l t ⟨fit', is⟩
  refine ⟨is.apart omits, fun y up => is.follows omits fit.1.plain_universal up,
    fun other up => ?_⟩
  refine (Fit.linearizeBy .c3 other fit').imp ?_ fun _ _ => trivial
  rintro l' u ⟨-, is'⟩
  have same : (s.own.keyOf other).same (t.own.keyOf other) = true :=
    same_iff.mpr (fit.1.plain_keyOf fit'.1 other)
  exact is.follows_given omits (up.of_same same) is'

/-- A side of a diamond, in the order of the diamond. -/
theorem linearizeBy_consistent_diamond :
    let ops : List Op := [.setParents "D" ["B", "C"], .setParents "B" ["A"], .setParents "C" ["A"]]
    let s := run ops (start #[] {} 0 {})
    let b := s.own.keyOf "B"
    ∃ l t, linearizeBy .c3 "D" s = .ok l t ∧ Apart l.order ∧
      Follows (b :: parentsNow s b) l.order ∧ ∃ o,
        IsOrder (parentsNow s) (s.own.keyOf universal) .c3 b o ∧ Follows (inherited o) l.order := by
  intro ops s b
  obtain ⟨-, parents, reads, consistent⟩ := linearizeBy_consistent #[] {} 0 {} ops "D"
  obtain rfl : parents = parentsNow s := eq_parentsNow reads
  have omits : OmitsUniversal (parentsNow s) := omitsUniversal_run #[] {} 0 {} (by decide +kernel)
  have up : Inherits (parentsNow s) b (s.own.keyOf "D") := by
    have listed : ∃ q ∈ parentsNow s (s.own.keyOf "D"), q.same b = true := by decide +kernel
    obtain ⟨q, hq, same⟩ := listed
    exact .parent hq (.self same)
  have found : (given? (linearizeBy .c3 "D") s).isSome = true := by decide +kernel
  rcases (consistent omits).yields.cases with ⟨l, t, given, apart, above, -⟩ | ⟨e, t, fails, -⟩
  · exact ⟨l, t, given, apart, above b up⟩
  · rw [given?, fails] at found
    cases found

end ScriptCore.Registry
