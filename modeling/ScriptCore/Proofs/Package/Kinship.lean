import ScriptCore.Proofs.Package.Cycles
import ScriptCore.Proofs.Package.Parentage

/-!
# Package — kinship, read off the parent lists

Whether a package is another is read from a set of ancestors that was put together from the orders
that were asked for, by one algorithm or by both.  What the orders were does not show in it.

* `Fit.run_lists`: the parent lists after a run, and not only that there are some.
* `isA_iff_reaches`: whatever was done with a new registry, and whatever lineages were asked for
  since, a package is told to be another when both have one name, when it reaches the other along
  the parent lists, or when the other is the universal package.
-/

namespace ScriptCore.Registry
open Beside Key Lineage

/-- The parent lists after operations. -/
def listsAfterAll (ops : List Op) (lists : Bytes × Bool → List String) :
    Bytes × Bool → List String :=
  ops.foldl (fun lists op => op.listsAfter lists) lists

section
variable {lists lists' : Bytes × Bool → List String} {seed : Seed} {r : Registry} {h : Heap}
  {s t : Beside Registry} {k package : Key}

/-- **A run**, with the parent lists that it comes to. -/
theorem Fit.run_lists (fit : Fit lists seed s) (ops : List Op) :
    Fit (listsAfterAll ops lists) seed (Registry.run ops s) := by
  induction ops generalizing lists s with
  | nil => exact fit
  | cons op ops ih => exact ih (fit.perform op)

/-- Lineages that are asked for, one after the other. -/
def asking (asked : List (Algorithm × String)) : List Op :=
  asked.map fun a => .linearizeBy a.1 a.2

theorem listsAfterAll_asking (asked : List (Algorithm × String)) :
    listsAfterAll (asking asked) lists = lists := by
  induction asked with
  | nil => rfl
  | cons a asked ih => exact ih

/-! ### Names and their packages -/

/-- A name stands for one package, whatever the parent lists are. -/
theorem Shelved.plain_keyOf {r' : Registry} {h' : Heap} (s : Shelved lists seed r h)
    (s' : Shelved lists' seed r' h') (name : String) :
    (r.keyOf name).plain = (r'.keyOf name).plain := by
  obtain ⟨hash, letters⟩ := s.keyOf name
  obtain ⟨hash', letters'⟩ := s'.keyOf name
  exact IsHashed.plain_eq hash hash' (letters.trans letters'.symm)

/-- Two names stand for one package only when they are one. -/
theorem Shelved.same_keyOf_iff_eq (s : Shelved lists seed r h) (a b : String) :
    (r.keyOf a).same (r.keyOf b) = true ↔ a = b := by
  rw [s.same_keyOf_iff (s.keyOf a).1, (s.keyOf a).2]
  exact ⟨Spelling.ofText_letters_inj, fun e => by rw [e]⟩

theorem Shelved.same_lastKey_iff (s : Shelved lists seed r h) (name : String) :
    (r.keyOf name).same (lastKey seed) = true ↔ name = universal := by
  rw [← s.same_keyOf_iff_eq name universal, same_iff, same_iff, s.plain_universal]
  exact Iff.rfl

/-- A package inherits from itself and from what one of its parents inherits from. -/
theorem inherits_iff {parents : Key → List Key} : Inherits parents package k ↔
    k.same package = true ∨ ∃ q ∈ parents k, Inherits parents package q := by
  constructor
  · rintro (same | ⟨hq, up⟩)
    · exact .inl same
    · exact .inr ⟨_, hq, up⟩
  · rintro (same | ⟨q, hq, up⟩)
    · exact .self same
    · exact .parent hq up

/-- **Kinship**, as it was when the packages were looked up or as it is by now. -/
theorem Fit.isA_iff (fit : Fit lists seed s) (fit' : Fit lists seed t) (o : t.own.Orderly)
    (name ancestor : String) :
    Ends (Registry.isA name ancestor) t (fun b _ => b = true ↔ name = ancestor ∨
      (∃ q ∈ graph lists seed (s.own.keyOf name),
        Inherits (graph lists seed) (s.own.keyOf ancestor) q) ∨ ancestor = universal)
      fun _ => True := by
  refine (fit'.ends_isA o name ancestor).imp ?_ fun _ _ => trivial
  intro b _ told
  have name' : (t.own.keyOf name).same (s.own.keyOf name) = true :=
    same_iff.mpr (fit'.1.plain_keyOf fit.1 name)
  have ancestor' : (t.own.keyOf ancestor).same (s.own.keyOf ancestor) = true :=
    same_iff.mpr (fit'.1.plain_keyOf fit.1 ancestor)
  have moved : Inherits (graph lists seed) (t.own.keyOf ancestor) (t.own.keyOf name) ↔
      Inherits (graph lists seed) (s.own.keyOf ancestor) (s.own.keyOf name) :=
    ⟨fun up => (up.of_same ancestor').congr name',
      fun up => (up.of_same (same_symm ancestor')).congr (same_symm name')⟩
  rw [told, fit'.1.same_lastKey_iff, moved, inherits_iff, fit.1.same_keyOf_iff_eq, or_comm,
    or_assoc]

end

/-- **Kinship is reach.**  Whatever was done with a new registry, whether it failed or not, and
whatever lineages were asked for since, by either algorithm: an answer to whether a package is
another is yes exactly when the two names are one, when the other is reached from the package along
the parent lists, or when it is the universal package. -/
theorem isA_iff_reaches (seeds : Array Seed) (supply : Supply) (pool : Nat) (settings : Settings)
    (ops : List Op) (name ancestor : String) :
    let s := run ops (start seeds supply pool settings)
    ∃ parents : Key → List Key, (∀ k, s.own.parents k s.heap = .ok (parents k) s.heap) ∧
      ∀ asked : List (Algorithm × String),
        let t := run (asking asked) s
        (∀ k, t.own.parents k t.heap = .ok (parents k) t.heap) ∧
        Ends (isA name ancestor) t (fun b _ => b = true ↔
          name = ancestor ∨
          (∃ q ∈ parents (s.own.keyOf name), Inherits parents (s.own.keyOf ancestor) q) ∨
          ancestor = universal) fun _ => True := by
  intro s
  obtain ⟨lists, fit⟩ := (fit_start seeds supply pool settings).run ops
  refine ⟨graph lists _, fit.1.parents, fun asked => ?_⟩
  have fit' := fit.run_lists (asking asked)
  rw [listsAfterAll_asking] at fit'
  have runs : run (asking asked) s = run (ops ++ asking asked) (start seeds supply pool settings) :=
    (List.foldl_append ..).symm
  have o := orderly_run seeds supply pool settings (ops ++ asking asked)
  exact ⟨fit'.1.parents, fit.isA_iff fit' (runs ▸ o) name ancestor⟩

/-- What is asked for puts another order into the set that is read. -/
example :
    let s := run [.setParents "C" ["UNIVERSAL", "B"], .setParents "B" ["A"]] (start #[] {} 0 {})
    let t := run (asking [(.c3, "C"), (.depthFirst, "C")]) s
    given? (isA "C" "A") s = some true ∧ given? (isA "C" "A") t = some true ∧
      given? (isA "A" "C") t = some false :=
  ⟨by decide +kernel, by decide +kernel, by decide +kernel⟩

end ScriptCore.Registry
