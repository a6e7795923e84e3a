import ScriptCore.Proofs.Package.Afresh

/-!
# Package — what defining a method changes

A stash has the methods of a package and, under the name of the parent list, its parents.  So a
method of any other name disturbs no lineage:

* `defineMethod_takesEffect`: after a method is defined every package has the parents it had, a
  registry that forgets everything gives the lineages it gave before, and the package answers with
  the new code.
* `defineMethod_parentEntry`: code that is defined under the name of the parent list takes its
  place, and the parents are lost.
-/

namespace ScriptCore

namespace Lineage

/-- A package stands first in what is merged for it. -/
theorem head?_merge {algorithm : Algorithm} {package : Key} {parents order : List Key}
    {orders : List (List Key)} (merged : merge algorithm package parents orders = some order) :
    order.head? = some package := by
  cases algorithm with
  | depthFirst =>
    simp only [merge, mergeDepthFirst, Key.firsts, Key.firstsAfter, Key.isIn_nil] at merged
    simp [← Option.some.inj merged]
  | c3 =>
    obtain ⟨rest, -, rfl⟩ := Option.map_eq_some_iff.mp merged
    rfl

/-- A package stands first in its order. -/
theorem IsOrder.head? {parents : Key → List Key} {last package : Key} {algorithm : Algorithm}
    {order : List Key} (is : IsOrder parents last algorithm package order) :
    order.head? = some package := by
  obtain ⟨levels, is⟩ := is
  cases levels with
  | zero => cases is
  | succ levels =>
    obtain ⟨orders, -, is⟩ := Option.bind_eq_some_iff.mp is
    obtain ⟨merged, his, rfl⟩ := Option.map_eq_some_iff.mp is
    have head := head?_merge his
    unfold closed
    split
    · exact head
    · rw [List.head?_append, head]
      rfl

end Lineage

namespace Registry
open Beside Key Lineage

section
variable {lists : Bytes × Bool → List String} {seed : Seed} {s : Beside Registry}
  {stock : Bytes × Bool → Bytes × Bool → Option CellId} {held : List CellId}
  {algorithm : Algorithm} {package : Key}

/-- What a package itself has for a method is the answer. -/
theorem IsAnswer.own {method : Bytes × Bool} {found : Option Method} {code : CellId}
    (is : IsAnswer lists seed stock algorithm package method found)
    (own : stock package.letters method = some code) :
    ∃ m, found = some m ∧ m.code = code ∧ m.package.letters = package.letters := by
  obtain ⟨order, is, first⟩ := is
  have head := IsOrder.head? is
  cases order with
  | nil => cases head
  | cons k rest =>
    have letters : k.letters = package.letters :=
      letters_eq_of_same (same_iff.mpr (Option.some.inj head))
    rw [List.findSome?_cons, letters, own] at first
    obtain ⟨m, rfl, pair⟩ := Option.map_eq_some_iff.mp first
    exact ⟨m, rfl, congrArg Prod.fst pair, congrArg Prod.snd pair⟩

/-- A name stands for packages with the same letters as long as the seed stays. -/
theorem Fit.plain_keyOf {t : Beside Registry} (fit : Fit lists seed s) (fit' : Fit lists seed t)
    (name : String) : (t.own.keyOf name).plain = (s.own.keyOf name).plain := by
  obtain ⟨hash, letters⟩ := fit.1.keyOf name
  obtain ⟨hash', letters'⟩ := fit'.1.keyOf name
  exact IsHashed.plain_eq hash' hash (letters'.trans letters.symm)

/-- **Lineages stay.**  By the same parents a lineage that was given is given again. -/
theorem Fit.linearize_again {t : Beside Registry} (fit : Fit lists seed s)
    (fit' : Fit lists seed t) (settings : t.own.settings = s.own.settings) (name : String) :
    Ends (linearize name) s (fun l _ =>
      Ends (do Registry.forgetAll; linearize name) t
        (fun l' _ => List.Forall₂ (fun a b => a.same b = true) l.order l'.order)
        fun _ => ¬ Shallow (graph lists seed) s.own.settings.limit (s.own.keyOf name))
      fun _ => True := by
  refine Ends.of_eq (linearize_eq name s) ?_
  refine ((Fit.linearizeKey _ (fit.1.keyOf name).1).ends fit).imp ?_ fun _ _ => trivial
  rintro l - ⟨-, is⟩
  have there : HasOrder lists seed t.own.settings.algorithm (t.own.keyOf name) l.order := by
    unfold HasOrder at is ⊢
    rwa [settings, fit.plain_keyOf fit']
  refine (fit'.linearize_afresh name there).imp (fun l' _ same => ?_) fun _ deep => ?_
  · have both : List.Forall₂ Eq (l.order.map plain) (l'.order.map plain) := by
      rw [same, List.forall₂_eq_eq_eq]
    rw [List.forall₂_map_left_iff, List.forall₂_map_right_iff] at both
    exact both.imp fun _ _ => same_iff.mpr
  · rwa [← shallow_plain, ← fit.plain_keyOf fit', shallow_plain, ← settings]

/-- **The new code** is the answer of its package. -/
theorem Answered.resolve_own {t : Beside Registry} (a : Answered lists seed stock held t)
    (fit : Fit lists seed t) {package method : String} {code : CellId}
    (own : stock (Spelling.ofText package).letters (Spelling.ofText method).letters = some code) :
    Ends (linearize package) t (fun _ _ => Ends (Registry.resolve package method) t
      (fun found _ => ∃ m, found = some m ∧ m.code = code ∧
        m.package.letters = (Spelling.ofText package).letters) fun _ => False) fun _ => True := by
  have letters := (fit.1.keyOf package).2
  have resolved := a.resolve fit package method
  have given : Ends (linearize package) t (fun l u => linearize package t = .ok l u)
      fun _ => True := by
    unfold Ends
    split
    · assumption
    · trivial
  refine given.imp ?_ fun _ => id
  rintro l u ok
  refine resolved.imp ?_ ?_
  · rintro found v ⟨-, -, is⟩
    rw [← letters] at own ⊢
    exact is.own own
  · rintro v ⟨-, e, failed⟩
    rw [← linearize_eq, ok] at failed
    cases failed

end

/-- **Defining a method** of any other name than that of the parent list.  Whatever a host did with
a new registry, every package has the parents it had; a lineage that was given is given again when
everything is forgotten, unless the parents of the package nest too deep for that; and a package
that has a lineage answers with the new code as its own. -/
theorem defineMethod_takesEffect (seeds : Array Seed) (supply : Supply) (pool : Nat)
    (settings : Settings) (ops : List Op) (package method : String)
    (other : method ≠ parentEntry) (code : CellId) :
    let s := ((Host.start seeds supply pool settings).run ops).state
    ∃ parents : Key → List Key, (∀ k, s.own.parents k s.heap = .ok (parents k) s.heap) ∧
      Ends (defineMethod package method code) s (fun _ t =>
        (∀ k, t.own.parents k t.heap = .ok (parents k) t.heap) ∧
        (∀ q, Ends (linearize q) s (fun l _ =>
          Ends (do forgetAll; linearize q) t
            (fun l' _ => List.Forall₂ (fun a b => a.same b = true) l.order l'.order)
            fun _ => ¬ Shallow parents s.own.settings.limit (s.own.keyOf q)) fun _ => True) ∧
        Ends (linearize package) t (fun _ _ => Ends (resolve package method) t
          (fun found _ => ∃ m, found = some m ∧ m.code = code ∧
            m.package.letters = (Spelling.ofText package).letters) fun _ => False) fun _ => True)
        fun _ => True := by
  intro s
  obtain ⟨lists, tracked, stock, a⟩ := (hosted_start seeds supply pool settings).run ops
  have fit : Fit lists _ s := tracked.1
  refine ⟨graph lists _, fit.1.parents, ?_⟩
  have defined := ((Fit.defineMethod package other code).ends fit).and
    (a.1.defineMethod fit.1 package other code)
  refine defined.imp ?_ fun _ _ => trivial
  rintro - t ⟨fit', renewed, own⟩
  have settings : t.own.settings = s.own.settings := by
    obtain ⟨⟨stashes, e⟩, -⟩ := renewed
    rw [e]
  exact ⟨fit'.1.parents, fit.linearize_again fit' settings,
    Answered.resolve_own (renewed.answered a.2) fit' own⟩

/-- What is seen of the end of an operation, if it does not fail. -/
def seen? {α β : Type} (x : OnRegistry α) (s : Beside Registry) (see : Beside Registry → Option β) :
    Option β :=
  match x s with
  | .ok _ t => see t
  | .error .. => none

theorem ends_of_seen {α β : Type} {x : OnRegistry α} {s : Beside Registry}
    {see : Beside Registry → Option β} {b : β} (h : seen? x s see = some b) :
    Ends x s (fun _ t => see t = some b) fun _ => False := by
  unfold seen? at h
  unfold Ends
  cases e : x s <;> rw [e] at h
  · exact h
  · cases h

/-- A method of a package that has a parent. -/
theorem defineMethod_takesEffect_child :
    let s := ((Host.start #[] {} 0 {}).run [.setParents "B" ["A"], .newCode {}]).state
    Ends (defineMethod "B" "run" 3) s (fun _ t =>
      Ends (linearize "B") t (fun _ _ => Ends (resolve "B" "run") t
        (fun found _ => found.map (·.code) = some 3) fun _ => False) fun _ => True)
      fun _ => False := by
  intro s
  have defined : seen? (defineMethod "B" "run" 3) s (fun _ => some ()) = some () := by
    decide +kernel
  obtain ⟨parents, -, effect⟩ := defineMethod_takesEffect #[] {} 0 {}
    [.setParents "B" ["A"], .newCode {}] "B" "run" (by decide) 3
  refine (effect.and (ends_of_seen defined)).imp ?_ fun _ => And.right
  rintro - t ⟨⟨-, -, resolved⟩, -⟩
  refine resolved.imp (fun l u found => found.imp ?_ fun _ => id) fun _ => id
  rintro - v ⟨m, rfl, code, -⟩
  exact congrArg some code

/-- How many parents a package has. -/
def parentCount? (name : String) (s : Beside Registry) : Option Nat :=
  match s.own.parents (s.own.keyOf name) s.heap with
  | .ok list _ => some list.length
  | .error .. => none

/-- **The parent list** is no method: code that is defined under its name takes its place. -/
theorem defineMethod_parentEntry :
    let s := ((Host.start #[] {} 0 {}).run [.setParents "B" ["A"], .newCode {}]).state
    parentCount? "B" s = some 1 ∧ Ends (defineMethod "B" parentEntry 3) s
      (fun _ t => parentCount? "B" t = some 0) fun _ => False :=
  ⟨by decide +kernel, ends_of_seen (by decide +kernel)⟩

end Registry

end ScriptCore
