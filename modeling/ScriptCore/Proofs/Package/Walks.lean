import ScriptCore.Proofs.Package.Lines
import ScriptCore.Proofs.Package.Requests

/-!
# Package — the walk behind depth-first orders

A depth-first order is not walked: it is merged from the orders of the parents, which have lost
their repetitions and the universal package at their ends.  Above a package without a circle there
is one walk (`Walks`) from left to right, each package before those above it, that meets a package
as often as there are ways to it.

* `firstsAfter_firstsAfter`: to drop repetitions twice is to drop them once.
* `exists_walk`: the order of a package is its walk without repetitions, and then the universal
  package.
* `linearizeBy_walks`: so is every lineage that is asked for depth first, whatever was asked for
  before, of each package without a circle above it and within the limit.
-/

namespace ScriptCore

namespace Key

section
variable {k : Key} {seen seen' ks ls : List Key}

/-! ### First occurrences -/

/-- Which keys come first depends on what was seen and not on how often or when. -/
theorem firstsAfter_congr (h : ∀ k : Key, k.isIn seen = k.isIn seen') (ks : List Key) :
    firstsAfter seen ks = firstsAfter seen' ks := by
  induction ks generalizing seen seen' with
  | nil => rfl
  | cons q ks ih =>
    have more : ∀ k : Key, k.isIn (q :: seen) = k.isIn (q :: seen') := by
      intro k
      rw [Bool.eq_iff_iff, isIn_cons, isIn_cons, h]
    rw [firstsAfter, firstsAfter, h, ih h, ih more]

theorem firstsAfter_append (seen ks ls : List Key) :
    firstsAfter seen (ks ++ ls) = firstsAfter seen ks ++ firstsAfter (ks ++ seen) ls := by
  induction ks generalizing seen with
  | nil => rfl
  | cons q ks ih =>
    rw [List.cons_append, firstsAfter, firstsAfter]
    split
    · rename_i old
      have again (k : Key) : k.isIn (ks ++ seen) = k.isIn (q :: ks ++ seen) := by
        rw [Bool.eq_iff_iff, List.cons_append, isIn_cons]
        refine ⟨.inr, fun h => h.elim (fun same => ?_) id⟩
        rw [isIn_congr same, isIn_append]
        exact .inr old
      rw [ih, firstsAfter_congr again]
    · have earlier (k : Key) : k.isIn (ks ++ q :: seen) = k.isIn (q :: ks ++ seen) := by
        rw [Bool.eq_iff_iff]
        simp only [List.cons_append, isIn_append, isIn_cons]
        exact or_left_comm
      rw [ih, List.cons_append, firstsAfter_congr earlier]

/-- **Dropping repetitions once more**, when no more was seen before. -/
theorem firstsAfter_firstsAfter (h : ∀ k : Key, k.isIn seen' = true → k.isIn seen = true)
    (ks : List Key) : firstsAfter seen (firstsAfter seen' ks) = firstsAfter seen ks := by
  induction ks generalizing seen seen' with
  | nil => rfl
  | cons q ks ih =>
    by_cases old : q.isIn seen' = true
    · rw [firstsAfter.eq_2 seen', if_pos old, firstsAfter, if_pos (h q old), ih h]
    rw [firstsAfter.eq_2 seen', if_neg old, firstsAfter, firstsAfter]
    split
    · -- the key is new to the inner list alone
      rename_i old
      refine ih fun k inside => ?_
      rcases isIn_cons.mp inside with same | inside
      · rw [isIn_congr same, old]
      · exact h k inside
    · rw [ih]
      intro k inside
      exact isIn_cons.mpr ((isIn_cons.mp inside).imp_right (h k))

theorem firsts_firsts (ks : List Key) : firsts (firsts ks) = firsts ks :=
  firstsAfter_firstsAfter (fun _ => id) ks

/-- What comes first of two lists depends on what comes first of each. -/
theorem firsts_append {ks' ls' : List Key} (first : firsts ks = firsts ks')
    (second : firsts ls = firsts ls') : firsts (ks ++ ls) = firsts (ks' ++ ls') := by
  have alike (k : Key) : k.isIn (ks ++ []) = k.isIn (ks' ++ []) := by
    rw [Bool.eq_iff_iff, List.append_nil, List.append_nil, ← isIn_firsts, first, isIn_firsts]
  have later (seen ls : List Key) : firstsAfter seen (firsts ls) = firstsAfter seen ls :=
    firstsAfter_firstsAfter (fun k none => by rw [isIn_nil] at none; cases none) ls
  calc firsts (ks ++ ls)
    _ = firsts ks ++ firstsAfter (ks ++ []) ls := firstsAfter_append [] ks ls
    _ = firsts ks' ++ firstsAfter (ks' ++ []) ls' := by
      rw [first, firstsAfter_congr alike, ← later _ ls, second, later]
    _ = firsts (ks' ++ ls') := (firstsAfter_append [] ks' ls').symm

theorem apart_firstsAfter (seen ks : List Key) : Apart (firstsAfter seen ks) := by
  induction ks generalizing seen with
  | nil => exact .nil
  | cons q ks ih =>
    rw [firstsAfter]
    split
    · exact ih seen
    · refine List.pairwise_cons.mpr ⟨fun k hk => ?_, ih (q :: seen)⟩
      have new := (isIn_firstsAfter.mp (isIn_of_mem hk)).2
      rw [isIn_cons, not_or] at new
      exact Bool.not_eq_true _ ▸ fun same => new.1 (same_symm same)

/-- First occurrences are what is left when repetitions are erased. -/
theorem firsts_eq_eraseDupsBy (ks : List Key) : firsts ks = ks.eraseDupsBy Key.same := by
  have loop (seen : List Key) :
      List.eraseDupsBy.loop Key.same ks seen = seen.reverse ++ firstsAfter seen ks := by
    induction ks generalizing seen with
    | nil => simp [List.eraseDupsBy.loop, firstsAfter]
    | cons q ks ih =>
      rw [List.eraseDupsBy.loop, firstsAfter, isIn]
      split <;> rename_i old <;> simp [old, ih]
  exact (loop []).symm

end

end Key

namespace Lineage
open Key

/-- The walk from packages, from left to right and each before those above it. -/
inductive Walks (parents : Key → List Key) : List Key → List Key → Prop
  | done : Walks parents [] []
  | up {k : Key} {ks above beside : List Key} (first : Walks parents (parents k) above)
      (rest : Walks parents ks beside) : Walks parents (k :: ks) (k :: (above ++ beside))

section
variable {parents : Key → List Key} {last package : Key} {levels : Nat}
  {order ks walk walk' : List Key}

/-- There is one walk at most. -/
theorem Walks.unique (h : Walks parents ks walk) (h' : Walks parents ks walk') : walk = walk' := by
  induction h generalizing walk' with
  | done =>
    cases h'
    rfl
  | up _ _ above beside =>
    cases h' with
    | up first rest => rw [above first, beside rest]

/-- Walks from parents one after the other, against what they hand down. -/
theorem exists_walks {orders : List (List Key)}
    (above : List.Forall₂ (fun q o => ∃ walk, Walks parents (parents q) walk ∧
      inherited o = firsts (q :: walk)) ks orders) :
    ∃ walk, Walks parents ks walk ∧
      firsts (orders.map inherited).flatten = firsts walk := by
  induction above with
  | nil => exact ⟨[], .done, rfl⟩
  | @cons q o ks orders first _ ih =>
    obtain ⟨above, first, line⟩ := first
    obtain ⟨beside, rest, same⟩ := ih
    refine ⟨q :: (above ++ beside), .up first rest, ?_⟩
    rw [List.map_cons, List.flatten_cons, ← List.cons_append]
    exact firsts_append (by rw [line, firsts_firsts]) same

/-- **The walk of a package** is what its order comes from. -/
theorem exists_walk (spelt : last.isUniversal = true) (omits : OmitsUniversal parents)
    (other : package.isUniversal = false)
    (found : orderWithin parents last .depthFirst levels package = some order) :
    ∃ above, Walks parents (parents package) above ∧
      inherited order = firsts (package :: above) ∧
      order = firsts (package :: above) ++ [last] ∧ Apart order := by
  induction levels generalizing package order with
  | zero => cases found
  | succ levels ih =>
    obtain ⟨_, orders, line, e, all, merged, none, rfl, inherits⟩ :=
      orderWithin_line spelt omits other found
    cases e
    have lines : List.Forall₂ (fun q o => ∃ walk, Walks parents (parents q) walk ∧
        inherited o = firsts (q :: walk)) (parents package) orders := by
      refine ((List.forall₂_and_left ..).mpr ⟨fun q hq => hq, all⟩).imp ?_
      rintro q o ⟨hq, found⟩
      obtain ⟨walk, walks, inherits, -⟩ := ih (omits package q hq) found
      exact ⟨walk, walks, inherits⟩
    obtain ⟨above, walks, same⟩ := exists_walks lines
    have own : firsts [package] = firsts [package] := rfl
    have merged : line = firsts ([package] ++ above) :=
      (Option.some.inj merged).symm.trans (firsts_append own same)
    subst merged
    refine ⟨above, walks, inherits, rfl, ?_⟩
    rw [← closed_eq none]
    exact apart_closed (apart_firstsAfter ..) spelt

end

end Lineage

namespace Registry
open Beside Key Lineage

section
variable {lists : Bytes × Bool → List String} {seed : Seed} {s : Beside Registry}
  {k package : Key} {steps : Nat} {met : List Key}

/-! ### No circle within the limit -/

/-- Going up without a circle, none of those that were passed is met again. -/
theorem not_isIn_passed {q r : Key} (acyclic : ¬ Circular (graph lists seed) k)
    (away : ∀ r, Inherits (graph lists seed) r k → ¬ r.isIn met = true)
    (hq : q ∈ graph lists seed k) (up : Inherits (graph lists seed) r q) :
    ¬ r.isIn (k :: met) = true := by
  intro inside
  rcases isIn_cons.mp inside with same | inside
  · exact acyclic ⟨k, .self (same_refl k), q, hq, up.of_same same⟩
  · exact away r (.parent hq up) inside

theorem shallow_of_ample (acyclic : ¬ Circular (graph lists seed) k)
    (away : ∀ r, Inherits (graph lists seed) r k → ¬ r.isIn met = true)
    (room : Ample (graph lists seed) (steps + 1) met k) : Shallow (graph lists seed) steps k := by
  have above := room.resolve_left (away k (.self (same_refl k)))
  induction steps generalizing k met with
  | zero =>
    refine List.eq_nil_iff_forall_not_mem.mpr fun q hq => ?_
    exact not_isIn_passed acyclic away hq (.self (same_refl q)) (above q hq)
  | succ steps ih =>
    intro q hq
    have further : ¬ Circular (graph lists seed) q := fun ⟨k, up, circle⟩ =>
      acyclic ⟨k, .parent hq up, circle⟩
    have away' := fun r => not_isIn_passed (r := r) acyclic away hq
    exact ih further away' (above q hq) ((above q hq).resolve_left (away' q (.self (same_refl q))))

/-- **No way up is too long** where there is no circle and no way through different packages is. -/
theorem shallow_of_climbsWithin (acyclic : ¬ Circular (graph lists seed) package)
    (within : ClimbsWithin (graph lists seed) steps package) :
    Shallow (graph lists seed) steps package := by
  have same : package.same package.plain = true := same_refl package
  refine shallow_plain.mp (shallow_of_ample (fun ⟨k, up, circle⟩ => ?_) (fun r _ => ?_)
    (ample_of_climbsWithin within))
  · exact acyclic ⟨k, up.congr (same_symm same), circle⟩
  · rw [isIn_nil]
    exact Bool.false_ne_true

/-- Where no way up is too long there is no circle. -/
theorem not_circular_of_shallow (shallow : Shallow (graph lists seed) steps package) :
    ¬ Circular (graph lists seed) package := fun ⟨_, up, _, hq, round⟩ =>
  not_inherits_of_shallow (shallow_of_inherits shallow up) hq round

/-- **The walk behind a lineage** that was given. -/
theorem HasOrder.exists_walk {order : List Key} (omits : OmitsUniversal (graph lists seed))
    (other : package.isUniversal = false)
    (is : HasOrder lists seed .depthFirst package order) :
    Apart order ∧ ∃ walk, Walks (graph lists seed) [package] walk ∧
      order.map plain = (walk.eraseDupsBy Key.same ++ [lastKey seed]).map plain := by
  obtain ⟨levels, found⟩ := is
  have other' : package.plain.isUniversal = false := other
  obtain ⟨above, walks, -, line, apart⟩ :=
    Lineage.exists_walk (isUniversal_lastKey seed) omits other' found
  refine ⟨apart_map_plain.mp apart, package :: (above ++ []), .up walks .done, ?_⟩
  have plainly := congrArg (List.map plain) line
  rw [List.map_map, Function.comp_def] at plainly
  rw [List.append_nil, ← firsts_eq_eraseDupsBy, List.map_append]
  rw [List.map_append] at plainly
  refine plainly.trans (congrArg (· ++ _) ?_)
  unfold firsts
  rw [map_plain_firstsAfter, map_plain_firstsAfter]
  rfl

end

/-- **Depth-first orders are walks.**  Whatever was done with a new registry, whether it failed or
not: where no parent list names the universal package, each other package without a circle above it,
and with no way up that is longer than the limit, has its lineage depth first.  It is the walk up
from the package, from left to right and each package before those above it, without what was met
before, and then the universal package.  It starts at the package and names none twice. -/
theorem linearizeBy_walks (seeds : Array Seed) (supply : Supply) (pool : Nat) (settings : Settings)
    (ops : List Op) (name : String) :
    let s := run ops (start seeds supply pool settings)
    ∃ parents : Key → List Key, (∀ k, s.own.parents k s.heap = .ok (parents k) s.heap) ∧
      (OmitsUniversal parents → name ≠ universal → ¬ Circular parents (s.own.keyOf name) →
        ClimbsWithin parents settings.limit (s.own.keyOf name) →
        ∃ l t walk, linearizeBy .depthFirst name s = .ok l t ∧
          Walks parents [s.own.keyOf name] walk ∧
          List.Forall₂ (fun a b => a.same b = true) l.order
            (walk.eraseDupsBy Key.same ++ [s.own.keyOf universal]) ∧
          Apart l.order ∧ ∃ k, l.order.head? = some k ∧ k.same (s.own.keyOf name) = true) := by
  intro s
  obtain ⟨lists, fit⟩ := (fit_start seeds supply pool settings).run ops
  refine ⟨graph lists _, fit.1.parents, fun omits other acyclic within => ?_⟩
  have other : (s.own.keyOf name).isUniversal = false :=
    Bool.eq_false_iff.mpr fun spelt => other ((fit.1.isUniversal_keyOf name).mp spelt)
  have limit : s.own.settings.limit = settings.limit :=
    congrArg Settings.limit (settings_run ops (start seeds supply pool settings))
  have shallow := shallow_of_climbsWithin acyclic within
  rw [← limit] at shallow
  have found : Yields (linearizeBy .depthFirst name) s (fun _ _ => True) fun _ _ => False :=
    (fit.linearizeBy_shallow (orderly_run seeds supply pool settings ops) name shallow).imp
      (fun _ _ => id) fun _ _ fails => nomatch fails.1
  rcases (found.and (Fit.linearizeBy .depthFirst name fit).yields).cases with
    ⟨l, t, given, -, -, is⟩ | ⟨e, t, -, impossible, -⟩
  · obtain ⟨apart, walk, walks, same⟩ := is.exists_walk omits other
    have order : List.Forall₂ (fun a b => a.same b = true) l.order
        (walk.eraseDupsBy Key.same ++ [s.own.keyOf universal]) := by
      rw [forall₂_same_iff, same, List.map_append, List.map_append, List.map_singleton,
        List.map_singleton, fit.1.plain_universal]
      rfl
    refine ⟨l, t, walk, given, walks, order, apart, ?_⟩
    cases walks with
    | up _ _ =>
      rw [List.eraseDupsBy_cons, List.cons_append] at order
      obtain ⟨k, rest, first, -, line⟩ := List.forall₂_cons_right_iff.mp order
      exact ⟨k, by rw [line, List.head?_cons], first⟩
  · exact impossible.elim

/-- A diamond, of which one side was asked for before by the other algorithm. -/
theorem linearizeBy_walks_diamond :
    let ops : List Op := [.setParents "D" ["B", "C"], .setParents "B" ["A"], .setParents "C" ["A"],
      .linearizeBy .c3 "B", .linearizeBy .depthFirst "C"]
    let s := run ops (start #[] {} 0 { limit := 2 })
    ∃ l t walk, linearizeBy .depthFirst "D" s = .ok l t ∧
      Walks (parentsNow s) [s.own.keyOf "D"] walk ∧
      List.Forall₂ (fun a b => a.same b = true) l.order
        (walk.eraseDupsBy Key.same ++ [s.own.keyOf universal]) ∧
      Apart l.order ∧ ∃ k, l.order.head? = some k ∧ k.same (s.own.keyOf "D") = true := by
  intro ops s
  obtain ⟨parents, reads, walks⟩ := linearizeBy_walks #[] {} 0 { limit := 2 } ops "D"
  obtain rfl : parents = parentsNow s := eq_parentsNow reads
  have omits : OmitsUniversal (parentsNow s) :=
    omitsUniversal_run #[] {} 0 { limit := 2 } (by decide +kernel)
  have shallow : Shallow (parentsNow s) 2 (s.own.keyOf "D") :=
    show ∀ q ∈ parentsNow s (s.own.keyOf "D"), ∀ r ∈ parentsNow s q, parentsNow s r = [] by
      decide +kernel
  have acyclic : ¬ Circular (parentsNow s) (s.own.keyOf "D") := by
    have now := eq_parentsNow ((fit_start #[] {} 0 { limit := 2 }).run_lists ops).1.parents
    rw [← now] at shallow ⊢
    exact not_circular_of_shallow shallow
  exact walks omits (by decide) acyclic shallow.climbsWithin

end Registry
end ScriptCore
