import Mathlib.Data.List.Forall2
import ScriptCore.Package.Lineage
import ScriptCore.Proofs.Key.Map

/-!
# Package — the order of a package, from scratch

`orderWithin` is how the order of a package follows from the parents of all packages and nothing
else: there is no memory and no limit on how deep parents may nest but the number of levels given.
`IsOrder` says what it comes to when there are levels enough, which is one order at most
(`IsOrder.unique`), and none for a package that is met again among its ancestors.

* `merge_plain`, `orderWithin_plain`: orders are merged by what keys spell alone.
* `IsOrder.congr`: the order depends on the parents of the package and its ancestors alone.
-/

namespace ScriptCore.Lineage

/-! ### Merging plain keys -/

theorem isUniversal_plain (k : Key) : k.plain.isUniversal = k.isUniversal := rfl

theorem map_plain_inherited (order : List Key) :
    (inherited order).map Key.plain = inherited (order.map Key.plain) := by
  unfold inherited
  rw [List.getLast?_map]
  cases order.getLast? with
  | none => rfl
  | some k =>
    show _ = if k.plain.isUniversal then _ else _
    rw [isUniversal_plain, ← List.map_dropLast]
    dsimp only
    split <;> rfl

theorem nextHead_plain (sequences : List (List Key)) :
    (nextHead sequences).map Key.plain = nextHead (sequences.map (·.map Key.plain)) := by
  unfold nextHead
  have heads : (sequences.map (·.map Key.plain)).filterMap List.head? =
      (sequences.filterMap List.head?).map Key.plain := by
    rw [List.filterMap_map, List.map_filterMap]
    exact List.filterMap_congr fun s _ => by simp
  have tails (k : Key) : (sequences.map (·.map Key.plain)).any (fun s => k.plain.isIn s.tail) =
      sequences.any fun s => k.isIn s.tail := by
    simp only [List.any_map, Function.comp_def, ← List.map_tail, Key.isIn_plain]
  rw [heads, List.find?_map]
  simp only [Function.comp_def, tails]

theorem map_plain_dropHead (taken : Key) (s : List Key) :
    (dropHead taken s).map Key.plain = dropHead taken.plain (s.map Key.plain) := by
  cases s with
  | nil => rfl
  | cons k s =>
    simp only [dropHead, List.map_cons, Key.same_plain]
    exact apply_ite (List.map Key.plain) _ _ _

theorem mergeWithin_plain (steps : Nat) (sequences : List (List Key)) :
    (mergeWithin steps sequences).map (·.map Key.plain) =
      mergeWithin steps (sequences.map (·.map Key.plain)) := by
  have done (ss : List (List Key)) :
      (ss.map (·.map Key.plain)).all (·.isEmpty) = ss.all (·.isEmpty) := by
    simp [List.all_map, Function.comp_def]
  induction steps generalizing sequences with
  | zero =>
    unfold mergeWithin
    rw [done]
    split <;> rfl
  | succ steps ih =>
    unfold mergeWithin
    rw [done, ← nextHead_plain]
    split
    · rfl
    · cases nextHead sequences with
      | none => rfl
      | some k =>
        have rest := ih (sequences.map (dropHead k))
        rw [List.map_map] at rest
        simp only [Option.bind_some, Option.map_some, Option.map_map, List.map_map]
        simp only [Function.comp_def, ← map_plain_dropHead] at rest ⊢
        rw [← rest, Option.map_map]
        rfl

/-- **Merging** does not look at identities. -/
theorem merge_plain (algorithm : Algorithm) (package : Key) (parents : List Key)
    (orders : List (List Key)) :
    (merge algorithm package parents orders).map (·.map Key.plain) =
      merge algorithm package.plain (parents.map Key.plain) (orders.map (·.map Key.plain)) := by
  have inherit : (orders.map inherited).map (·.map Key.plain) =
      (orders.map (·.map Key.plain)).map inherited := by
    simp only [List.map_map, Function.comp_def, map_plain_inherited]
  cases algorithm with
  | depthFirst =>
    simp only [merge, mergeDepthFirst, Key.firsts, Option.map_some, Key.map_plain_firstsAfter,
      List.map_nil, List.map_cons, List.map_flatten, inherit]
  | c3 =>
    have length : (orders.map inherited ++ [parents]).flatten.length =
        ((orders.map inherited ++ [parents]).map (·.map Key.plain)).flatten.length := by
      rw [← List.map_flatten, List.length_map]
    simp only [merge, mergeC3, mergeSequences, Option.map_map]
    rw [← inherit, ← List.map_singleton (f := fun s : List Key => s.map Key.plain),
      ← List.map_append, ← length, ← mergeWithin_plain, Option.map_map]
    rfl

theorem map_plain_closed (last : Key) (order : List Key) :
    (closed last order).map Key.plain = closed last.plain (order.map Key.plain) := by
  have (order : List Key) : (order.map Key.plain).any Key.isUniversal =
      order.any Key.isUniversal := by
    simp [List.any_map, Function.comp_def, isUniversal_plain]
  unfold closed
  rw [this]
  split <;> simp

/-! ### From scratch -/

/-- The order of a package whose ancestors are less than `levels` deep, from the parents of every
package. -/
def orderWithin (parents : Key → List Key) (last : Key) (algorithm : Algorithm) :
    Nat → Key → Option (List Key)
  | 0, _ => none
  | levels + 1, package =>
    ((parents package).mapM (orderWithin parents last algorithm levels)).bind fun orders =>
      (merge algorithm package (parents package) orders).map (closed last)

/-- The order of a package. -/
def IsOrder (parents : Key → List Key) (last : Key) (algorithm : Algorithm) (package : Key)
    (order : List Key) : Prop :=
  ∃ levels, orderWithin parents last algorithm levels package = some order

theorem mapM_eq_some_iff {α β : Type} {f : α → Option β} {l : List α} {bs : List β} :
    l.mapM f = some bs ↔ List.Forall₂ (fun a b => f a = some b) l bs := by
  induction l generalizing bs with
  | nil => cases bs <;> simp
  | cons a l ih =>
    rw [List.mapM_cons]
    constructor
    · intro h
      obtain ⟨b, hb, h⟩ := Option.bind_eq_some_iff.mp h
      obtain ⟨rest, hrest, h⟩ := Option.bind_eq_some_iff.mp h
      cases h
      exact .cons hb (ih.mp hrest)
    · rintro (- | ⟨hb, hrest⟩)
      rw [hb, ih.mpr hrest]
      rfl

section
variable {parents parents' : Key → List Key} {last package : Key} {algorithm : Algorithm}
  {order order' : List Key}

theorem orderWithin_succ {levels : Nat} (h : orderWithin parents last algorithm levels package =
    some order) : orderWithin parents last algorithm (levels + 1) package = some order := by
  induction levels generalizing package order with
  | zero => cases h
  | succ levels ih =>
    obtain ⟨orders, all, merged⟩ := Option.bind_eq_some_iff.mp h
    refine Option.bind_eq_some_iff.mpr ⟨orders, ?_, merged⟩
    rw [mapM_eq_some_iff] at all ⊢
    exact all.imp fun _ _ => ih

theorem orderWithin_mono {levels levels' : Nat} (le : levels ≤ levels')
    (h : orderWithin parents last algorithm levels package = some order) :
    orderWithin parents last algorithm levels' package = some order := by
  induction le with
  | refl => exact h
  | step _ ih => exact orderWithin_succ ih

/-- A package has one order. -/
theorem IsOrder.unique (h : IsOrder parents last algorithm package order)
    (h' : IsOrder parents last algorithm package order') : order = order' := by
  obtain ⟨n, hn⟩ := h
  obtain ⟨m, hm⟩ := h'
  have := orderWithin_mono (Nat.le_max_left n m) hn
  rw [orderWithin_mono (Nat.le_max_right n m) hm] at this
  exact (Option.some.inj this).symm

/-- Several packages have their orders within levels in common. -/
theorem exists_levels {packages : List Key} {orders : List (List Key)}
    (h : List.Forall₂ (IsOrder parents last algorithm) packages orders) :
    ∃ levels, List.Forall₂
      (fun q o => orderWithin parents last algorithm levels q = some o) packages orders := by
  induction h with
  | nil => exact ⟨0, .nil⟩
  | cons first _ ih =>
    obtain ⟨n, hn⟩ := first
    obtain ⟨m, hm⟩ := ih
    exact ⟨max n m, .cons (orderWithin_mono (Nat.le_max_left n m) hn)
      (hm.imp fun _ _ => orderWithin_mono (Nat.le_max_right n m))⟩

/-- What the orders of the parents are merged to. -/
theorem IsOrder.of_merge {orders : List (List Key)}
    (above : List.Forall₂ (IsOrder parents last algorithm) (parents package) orders)
    (merged : merge algorithm package (parents package) orders = some order) :
    IsOrder parents last algorithm package (closed last order) := by
  obtain ⟨levels, all⟩ := exists_levels above
  refine ⟨levels + 1, Option.bind_eq_some_iff.mpr ⟨orders, mapM_eq_some_iff.mpr all, ?_⟩⟩
  rw [merged, Option.map_some]

/-- **Locality.**  Where packages have the same parents and only parents of their own kind, they
have the same orders. -/
theorem IsOrder.congr {S : Key → Prop}
    (agree : ∀ k, S k → parents k = parents' k ∧ ∀ q ∈ parents k, S q) (h : S package)
    (is : IsOrder parents last algorithm package order) :
    IsOrder parents' last algorithm package order := by
  obtain ⟨levels, is⟩ := is
  refine ⟨levels, ?_⟩
  -- the parents are of the kind as well, one level less deep
  induction levels generalizing package order with
  | zero => cases is
  | succ levels ih =>
    obtain ⟨same, within⟩ := agree package h
    obtain ⟨orders, all, merged⟩ := Option.bind_eq_some_iff.mp is
    refine Option.bind_eq_some_iff.mpr ⟨orders, ?_, same ▸ merged⟩
    rw [mapM_eq_some_iff] at all ⊢
    rw [← same]
    exact ((List.forall₂_and_left ..).mpr ⟨within, all⟩).imp fun _ _ hq => ih hq.1 hq.2

/-- The order from scratch does not look at identities. -/
theorem orderWithin_plain (plain : ∀ k, (parents k).map Key.plain = parents k.plain)
    (levels : Nat) :
    (orderWithin parents last algorithm levels package).map (·.map Key.plain) =
      orderWithin parents last.plain algorithm levels package.plain := by
  induction levels generalizing package with
  | zero => rfl
  | succ levels ih =>
    -- the orders of all parents
    have all (qs : List Key) : (qs.mapM (orderWithin parents last algorithm levels)).map
        (·.map (·.map Key.plain)) =
          (qs.map Key.plain).mapM (orderWithin parents last.plain algorithm levels) := by
      induction qs with
      | nil => rfl
      | cons q qs rest =>
        rw [List.map_cons, List.mapM_cons, List.mapM_cons, ← ih, ← rest]
        cases orderWithin parents last algorithm levels q with
        | none => rfl
        | some o =>
          cases qs.mapM (orderWithin parents last algorithm levels) <;> rfl
    unfold orderWithin
    rw [← plain, ← all]
    cases (parents package).mapM (orderWithin parents last algorithm levels) with
    | none => rfl
    | some orders =>
      simp only [Option.bind_some, Option.map_some, ← merge_plain, Option.map_map]
      congr 1
      funext order
      exact map_plain_closed last order

end

end ScriptCore.Lineage
