import ScriptCore.Proofs.Package.Kinship

/-!
# Package — orders where nobody names the universal package

The universal package is taken off the end of every order that is inherited, and put back at the
end of every order that is given.  Where no parent list names it (`OmitsUniversal`), it stands at
the end alone, and what is inherited from a package is all that was merged for it.

* `orderWithin_line`: the order of a package is what was merged for it, and then the universal
  package.
* `omitsUniversal_run`: no parent list names it where none was ever written that does.
-/

namespace ScriptCore

theorem Key.isUniversal_congr {a b : Key} (same : a.same b = true) :
    a.isUniversal = b.isUniversal := by
  have bytes : a.bytes = b.bytes := congrArg Prod.fst (letters_eq_of_same same)
  unfold isUniversal
  rw [bytes]

theorem Key.apart_map_plain {ks : List Key} : Apart (ks.map plain) ↔ Apart ks :=
  List.pairwise_map

namespace Lineage
open Key

/-- No parent list names the universal package. -/
def OmitsUniversal (parents : Key → List Key) : Prop :=
  ∀ k, ∀ q ∈ parents k, q.isUniversal = false

section
variable {parents : Key → List Key} {last package : Key} {algorithm : Algorithm} {levels : Nat}
  {line order : List Key}

/-- Keys that do not spell the universal package are not the same as one that does. -/
theorem isUniversal_of_isIn {k : Key} (other : ∀ q ∈ line, q.isUniversal = false)
    (inside : k.isIn line = true) : k.isUniversal = false := by
  obtain ⟨q, hq, same⟩ := List.any_eq_true.mp inside
  rw [isUniversal_congr same, other q hq]

/-- The end is put to an order that has none. -/
theorem closed_eq (other : ∀ q ∈ line, q.isUniversal = false) :
    closed last line = line ++ [last] := by
  have none : line.any isUniversal = false := by simpa using other
  simp [closed, none]

/-- The end that was put to an order is taken off. -/
theorem inherited_append (spelt : last.isUniversal = true) : inherited (line ++ [last]) = line := by
  simp [inherited, spelt]

/-- The end is put to an order that has none, so that it stands there once. -/
theorem apart_closed (apart : Apart line) (spelt : last.isUniversal = true) :
    Apart (closed last line) := by
  unfold closed
  split
  · exact apart
  · rename_i none
    refine List.pairwise_append.mpr ⟨apart, List.pairwise_singleton .., fun a ha b hb => ?_⟩
    obtain rfl := List.mem_singleton.mp hb
    rw [Bool.eq_false_iff]
    intro same
    exact none (List.any_eq_true.mpr ⟨a, ha, by rw [isUniversal_congr same, spelt]⟩)

/-- **What is merged for a package** is its order up to the universal package, and is what is
inherited from it. -/
theorem orderWithin_line (spelt : last.isUniversal = true) (omits : OmitsUniversal parents)
    (other : package.isUniversal = false)
    (found : orderWithin parents last algorithm levels package = some order) :
    ∃ above orders line, levels = above + 1 ∧
      List.Forall₂ (fun q o => orderWithin parents last algorithm above q = some o)
        (parents package) orders ∧
      merge algorithm package (parents package) orders = some line ∧
      (∀ q ∈ line, q.isUniversal = false) ∧ order = line ++ [last] ∧ inherited order = line := by
  -- so it is for the parents, and they make up what is merged
  induction levels generalizing package order with
  | zero => cases found
  | succ levels ih =>
    obtain ⟨orders, all, found⟩ := Option.bind_eq_some_iff.mp found
    obtain ⟨line, merged, rfl⟩ := Option.map_eq_some_iff.mp found
    have all := mapM_eq_some_iff.mp all
    have none : ∀ q ∈ line, q.isUniversal = false := by
      intro k hk
      rcases isIn_merge_cases merged (isIn_of_mem hk) with same | parent | ⟨o, ho, inherits⟩
      · rw [isUniversal_congr same, other]
      · exact isUniversal_of_isIn (omits package) parent
      · obtain ⟨q, hq, found⟩ := Heap.exists_mem_of_forall₂ all.flip ho
        obtain ⟨_, _, _, -, -, -, none, -, rest⟩ := ih (omits package q hq) found
        exact isUniversal_of_isIn none (rest ▸ inherits)
    rw [closed_eq none]
    exact ⟨levels, orders, line, rfl, all, merged, none, rfl, inherited_append spelt⟩

end

end Lineage

namespace Registry
open Beside Key Lineage

theorem isUniversal_lastKey (seed : Seed) : (lastKey seed).isUniversal = true := by
  show ((Spelling.ofText universal).bytes == Text.encode universal) = true
  decide

/-- Only one name stands for the universal package. -/
theorem Shelved.isUniversal_keyOf {lists : Bytes × Bool → List String} {seed : Seed} {r : Registry}
    {h : Heap} (s : Shelved lists seed r h) (name : String) :
    (r.keyOf name).isUniversal = true ↔ name = universal := by
  rw [← s.same_lastKey_iff]
  refine ⟨s.isRegular_keyOf name, fun same => ?_⟩
  rw [isUniversal_congr same, isUniversal_lastKey]

/-- The names that an operation writes into a parent list. -/
def Op.listed : Op → List String
  | setParents _ list => list
  | _ => []

section
variable {lists : Bytes × Bool → List String} {seed : Seed}

theorem listed_of_listsAfter {op : Op} {name : String} {y : Bytes × Bool}
    (h : name ∈ op.listsAfter lists y) : name ∈ lists y ∨ name ∈ op.listed := by
  cases op with
  | setParents package list =>
    by_cases own : y = (Spelling.ofText package).letters
    · subst own
      rw [Op.listsAfter, Function.update_self] at h
      exact .inr h
    · rw [Op.listsAfter, Function.update_of_ne own] at h
      exact .inl h
  | _ => exact .inl h

/-- The names in parent lists were there before or have been written into them. -/
theorem listed_of_listsAfterAll {ops : List Op} {name : String} {y : Bytes × Bool}
    (h : name ∈ listsAfterAll ops lists y) : name ∈ lists y ∨ ∃ op ∈ ops, name ∈ op.listed := by
  induction ops generalizing lists with
  | nil => exact .inl h
  | cons op ops ih =>
    rcases ih h with before | ⟨o, ho, written⟩
    · exact (listed_of_listsAfter before).imp_right fun written => ⟨op, List.mem_cons_self, written⟩
    · exact .inr ⟨o, List.mem_cons_of_mem _ ho, written⟩

theorem omitsUniversal_graph (omits : ∀ y, universal ∉ lists y) :
    OmitsUniversal (graph lists seed) := by
  intro k q hq
  obtain ⟨name, listed, rfl⟩ := List.mem_map.mp hq
  rw [Bool.eq_false_iff]
  intro spelt
  obtain rfl : name = universal := Text.encode_injective (beq_iff_eq.mp spelt)
  exact omits _ listed

/-- **Nobody names the universal package** in a registry where nobody ever has. -/
theorem omitsUniversal_run (seeds : Array Seed) (supply : Supply) (pool : Nat)
    (settings : Settings) {ops : List Op} (omits : ∀ op ∈ ops, universal ∉ op.listed) :
    OmitsUniversal (parentsNow (run ops (start seeds supply pool settings))) := by
  rw [← eq_parentsNow ((fit_start seeds supply pool settings).run_lists ops).1.parents]
  refine omitsUniversal_graph fun y listed => ?_
  rcases listed_of_listsAfterAll listed with before | ⟨op, ho, written⟩
  · cases before
  · exact omits op ho written

end

end Registry
end ScriptCore
