import Mathlib.Data.List.Chain
import ScriptCore.Proofs.Package.Verdict

/-!
# Package — cycles are found

A package is `Circular` when one that it is or inherits from is met again above itself.  Such a
package has no order by any algorithm.  Where no way up is longer than the limit there is no
circle, and then depth-first orders are always found, and other ones fail for want of consistency
alone.

* `linearizeBy_detects`: both of a registry that has come from any operations, whatever it
  remembers by then.
-/

namespace ScriptCore

namespace Lineage

variable {parents : Key → List Key} {steps : Nat} {k : Key}

theorem Shallow.succ (shallow : Shallow parents steps k) : Shallow parents (steps + 1) k := by
  induction steps generalizing k with
  | zero =>
    intro q hq
    rw [show parents k = [] from shallow] at hq
    cases hq
  | succ steps ih => exact fun q hq => ih (shallow q hq)

theorem Shallow.ample {met : List Key} (shallow : Shallow parents steps k) :
    Ample parents (steps + 1) met k := by
  induction steps generalizing k met with
  | zero =>
    refine .inr fun q hq => ?_
    rw [show parents k = [] from shallow] at hq
    cases hq
  | succ steps ih => exact .inr fun q hq => ih (shallow q hq)

end Lineage

namespace Registry
open Beside Key Lineage

/-- Going up from a package, one comes to a package that is met again above itself. -/
def Circular (parents : Key → List Key) (package : Key) : Prop :=
  ∃ k, Inherits parents k package ∧ ∃ q ∈ parents k, Inherits parents k q

/-- Why an order is not given: a circle, or, where parents keep their order, none that is
consistent. -/
def IsImpediment (algorithm : Algorithm) (e : Fault) : Prop :=
  (∃ q, e = .cycle q) ∨ algorithm = .c3 ∧ ∃ q, e = .inconsistent q

section
variable {lists : Bytes × Bool → List String} {seed : Seed} {s : Beside Registry}
  {k q package : Key} {algorithm : Algorithm} {steps : Nat} {order waiting : List Key}

theorem not_circular (is : HasOrder lists seed algorithm package order) :
    ¬ Circular (graph lists seed) package := by
  rintro ⟨k, up, q, hq, round⟩
  obtain ⟨levels, found⟩ := is
  exact not_inherits_of_isSome (isSome_of_inherits (Option.isSome_of_eq_some found) up) hq round

/-! ### Why an order is not given -/

theorem merge_eq_none {parents : List Key} {orders : List (List Key)}
    (none : merge algorithm package parents orders = none) : algorithm = .c3 := by
  cases algorithm with
  | depthFirst => cases none
  | c3 => rfl

/-- **Faults.**  An order is not given for one of two reasons. -/
theorem Fit.linearizeWithin_impediment (levels : Nat) (hashed : package.IsHashed seed)
    (fit : Fit lists seed s) :
    Yields (Registry.linearizeWithin algorithm levels package) s (fun _ _ => True)
      fun e _ => IsImpediment algorithm e := by
  induction levels generalizing package s with
  | zero => exact .inl ⟨_, rfl⟩
  | succ levels ih =>
    refine yields_linearizeWithin (fun _ _ => trivial) (fun _ => .inl ⟨_, rfl⟩) fun _ _ => ?_
    have above : ∀ q ∈ graph lists seed package, ∀ u, Fit lists seed u →
        Yields (Registry.linearizeWithin algorithm levels q) u
          (fun _ t => Fit lists seed t ∧ True) fun e _ => IsImpediment algorithm e := by
      intro q hq u fit
      have hashed := isHashed_of_mem_graph hq
      have fits := ((Fit.linearizeWithin algorithm levels hashed).ends fit).yields
      exact ((ih hashed fit).and fits).imp (fun _ _ q => ⟨q.2.1, trivial⟩) fun _ _ => And.left
    refine fit.marked.1.yields_mergeParents ?_
    refine (Yields.mapM above fit.marked).imp ?_ fun _ _ => id
    rintro lineages t -
    cases merged : merge algorithm package (graph lists seed package) (lineages.map (·.order)) with
    | some order => trivial
    | none => exact .inr ⟨merge_eq_none merged, _, rfl⟩

/-! ### Ways up that end -/

theorem shallow_of_inherits (shallow : Shallow (graph lists seed) steps k)
    (up : Inherits (graph lists seed) q k) : Shallow (graph lists seed) steps q := by
  induction up generalizing steps with
  | self same => rw [← shallow_plain, ← same_iff.mp same, shallow_plain]; exact shallow
  | parent hp _ ih =>
    cases steps with
    | zero => rw [show graph lists seed _ = [] from shallow] at hp; cases hp
    | succ steps => exact (ih (shallow _ hp)).succ

/-- No package is met again above itself. -/
theorem not_inherits_of_shallow (shallow : Shallow (graph lists seed) steps k)
    (hq : q ∈ graph lists seed k) : ¬ Inherits (graph lists seed) k q := by
  intro up
  -- every way up would be shorter by one, and so have no step at all
  induction steps with
  | zero => rw [show graph lists seed k = [] from shallow] at hq; cases hq
  | succ steps ih => exact ih (shallow_of_inherits (shallow q hq) up)

theorem exists_of_mapM_error {α β ε : Type} {f : α → Except ε β} {l : List α} {e : ε}
    (fails : l.mapM f = .error e) : ∃ a ∈ l, f a = .error e := by
  induction l with
  | nil => cases fails
  | cons a l ih =>
    rw [List.mapM_cons] at fails
    cases first : f a with
    | error e' =>
      rw [first] at fails
      cases fails
      exact ⟨a, List.mem_cons_self, first⟩
    | ok b =>
      cases rest : l.mapM f with
      | error e' =>
        rw [first, rest] at fails
        cases fails
        obtain ⟨a', ha, fails⟩ := ih rest
        exact ⟨a', List.mem_cons_of_mem _ ha, fails⟩
      | ok bs =>
        rw [first, rest] at fails
        cases fails

/-- The verdict fails with a parent, or for want of consistency. -/
theorem verdict_error_cases {levels : Nat} {e : Fault} (away : ¬ package.isIn waiting = true)
    (fails : verdict (graph lists seed) (lastKey seed) algorithm (levels + 1) waiting package =
      .error e) :
    (∃ q ∈ graph lists seed package, verdict (graph lists seed) (lastKey seed) algorithm levels
      (package :: waiting) q = .error e) ∨ algorithm = .c3 ∧ ∃ q, e = .inconsistent q := by
  cases all : (graph lists seed package).mapM (verdict (graph lists seed) (lastKey seed)
    algorithm levels (package :: waiting)) with
  | error e' =>
    rw [verdict_of_failed away all] at fails
    cases fails
    exact .inl (exists_of_mapM_error all)
  | ok orders =>
    rw [verdict_of_orders away all] at fails
    cases merged : merge algorithm package (graph lists seed package) orders with
    | some order =>
      rw [merged] at fails
      cases fails
    | none =>
      rw [merged] at fails
      cases fails
      exact .inr ⟨merge_eq_none merged, _, rfl⟩

/-- **The verdict without circles.**  Only consistency may fail. -/
theorem verdict_of_shallow (shallow : Shallow (graph lists seed) steps package)
    (apart : ∀ w ∈ waiting, ¬ Inherits (graph lists seed) w package) {e : Fault}
    (fails : verdict (graph lists seed) (lastKey seed) algorithm (steps + 1) waiting package =
      .error e) : algorithm = .c3 ∧ ∃ q, e = .inconsistent q := by
  have away {package : Key} {waiting : List Key}
      (apart : ∀ w ∈ waiting, ¬ Inherits (graph lists seed) w package) :
      ¬ package.isIn waiting = true := by
    intro inside
    obtain ⟨w, hw, same⟩ := List.any_eq_true.mp inside
    exact apart w hw (.self same)
  induction steps generalizing package waiting with
  | zero =>
    refine (verdict_error_cases (away apart) fails).resolve_left ?_
    rintro ⟨q, hq, -⟩
    rw [show graph lists seed package = [] from shallow] at hq
    cases hq
  | succ steps ih =>
    rcases verdict_error_cases (away apart) fails with ⟨q, hq, fails⟩ | want
    · refine ih (shallow q hq) (List.forall_mem_cons.mpr ⟨?_, fun w hw up => ?_⟩) fails
      · exact not_inherits_of_shallow shallow hq
      · exact apart w hw (.parent hq up)
    · exact want

/-! ### Any history -/

theorem linearizeBy_eq (algorithm : Algorithm) (name : String) (s : Beside Registry) :
    linearizeBy algorithm name s =
      Registry.linearizeWithin algorithm (s.own.settings.limit + 1) (s.own.keyOf name) s := by
  unfold linearizeBy linearizeKey
  rw [self_bind, self_bind]

/-- Between operations no package waits. -/
theorem Fit.awaiting (fit : Fit lists seed s) (o : s.own.Orderly) : Awaiting lists seed [] s :=
  ⟨fit, fun k => iff_of_false (o k).settled nofun⟩

/-- **Circles fail.** -/
theorem Fit.linearizeBy_circular (fit : Fit lists seed s) (name : String)
    (circular : Circular (graph lists seed) (s.own.keyOf name)) :
    Yields (Registry.linearizeBy algorithm name) s (fun _ _ => False)
      fun e _ => IsImpediment algorithm e := by
  have hashed := (fit.1.keyOf name).1
  unfold Yields
  rw [linearizeBy_eq]
  exact ((fit.linearizeWithin_impediment _ hashed).and
    ((Fit.linearizeWithin algorithm _ hashed).ends fit).yields).imp
      (fun _ _ q => not_circular q.2.2 circular) fun _ _ => And.left

/-- **What is not deep is found.** -/
theorem Fit.linearizeBy_shallow (fit : Fit lists seed s) (o : s.own.Orderly) (name : String)
    (shallow : Shallow (graph lists seed) s.own.settings.limit (s.own.keyOf name)) :
    Yields (Registry.linearizeBy algorithm name) s (fun _ _ => True)
      fun (e : Fault) _ => algorithm = .c3 ∧ ∃ q, e = .inconsistent q := by
  have hashed := (fit.1.keyOf name).1
  have shallow := shallow_plain.mpr shallow
  unfold Yields
  rw [linearizeBy_eq]
  exact (Fit.linearizeWithin_verdict hashed shallow.ample (List.forall_mem_nil _)
    (fit.awaiting o)).imp
    (fun _ _ _ => trivial) fun _ _ q => verdict_of_shallow shallow (List.forall_mem_nil _) q.2

theorem run_eq (ops : List Op) (s : Beside Registry) :
    Move.run (ops.map .op) s = run ops s := List.foldl_map

/-- A registry after any operations. -/
theorem orderly_run (seeds : Array Seed) (supply : Supply) (pool : Nat) (settings : Settings)
    (ops : List Op) : (run ops (start seeds supply pool settings)).own.Orderly :=
  run_eq ops _ ▸ Orderly.run (orderly_start seeds supply pool settings) (ops.map .op)

end

/-- **Cycles are detected, and nothing else is.**  Whatever was done with a new registry, whether it
failed or not, the parents of every package can be read.  A package that is circular by these
parents has no lineage by any algorithm, and depth first it fails for a cycle.  A package above
which no way is longer than the limit, so that there is no circle either, has its lineage depth
first, and by the other algorithm fails at most for want of consistency. -/
theorem linearizeBy_detects (seeds : Array Seed) (supply : Supply) (pool : Nat)
    (settings : Settings) (ops : List Op) (algorithm : Algorithm) (name : String) :
    let s := run ops (start seeds supply pool settings)
    ∃ parents : Key → List Key, (∀ k, s.own.parents k s.heap = .ok (parents k) s.heap) ∧
      (Circular parents (s.own.keyOf name) →
        ∃ e t, linearizeBy algorithm name s = .error e t ∧
          (algorithm = .depthFirst → ∃ q, e = .cycle q)) ∧
      (Shallow parents s.own.settings.limit (s.own.keyOf name) →
        (∃ l t, linearizeBy algorithm name s = .ok l t) ∨
          algorithm = .c3 ∧ ∃ q t, linearizeBy algorithm name s = .error (.inconsistent q) t) := by
  intro s
  obtain ⟨lists, fit⟩ := (fit_start seeds supply pool settings).run ops
  refine ⟨graph lists _, fit.1.parents, fun circular => ?_, fun shallow => ?_⟩
  · rcases (fit.linearizeBy_circular name circular).cases with ⟨l, t, -, given⟩ | ⟨e, t, fails, is⟩
    · exact given.elim
    · refine ⟨e, t, fails, ?_⟩
      rcases is with cycle | ⟨rfl, -⟩
      · exact fun _ => cycle
      · exact nofun
  · have o := orderly_run seeds supply pool settings ops
    rcases (fit.linearizeBy_shallow o name shallow).cases with
      ⟨l, t, given, -⟩ | ⟨e, t, fails, c3, q, rfl⟩
    · exact .inl ⟨l, t, given⟩
    · exact .inr ⟨c3, q, t, fails⟩

/-- The parents that are read of a package. -/
def parentsNow (s : Beside Registry) (k : Key) : List Key :=
  match s.own.parents k s.heap with
  | .ok list _ => list
  | .error .. => []

theorem eq_parentsNow {s : Beside Registry} {parents : Key → List Key}
    (reads : ∀ k, s.own.parents k s.heap = .ok (parents k) s.heap) : parents = parentsNow s := by
  funext k
  unfold parentsNow
  rw [reads]

/-- A cycle that is closed behind a lineage that was given, beside a package of one parent. -/
theorem linearizeBy_detects_closed :
    let s := run [.setParents "B" ["A"], .linearizeBy .depthFirst "B", .setParents "A" ["B"],
      .setParents "D" ["C"]] (start #[] {} 0 { limit := 1 })
    (∃ q t, linearizeBy .depthFirst "B" s = .error (.cycle q) t) ∧
      ∃ l t, linearizeBy .depthFirst "D" s = .ok l t := by
  intro s
  have toA :
      Key.probe (.ofBytes (Text.encode "A")) s.own.seed ∈ parentsNow s (s.own.keyOf "B") := by
    decide +kernel
  have toB : Key.probe (.ofBytes (Text.encode "B")) s.own.seed ∈ parentsNow s
      (.probe (.ofBytes (Text.encode "A")) s.own.seed) := by decide +kernel
  have same :
      (Key.probe (.ofBytes (Text.encode "B")) s.own.seed).same (s.own.keyOf "B") = true := by
    decide +kernel
  have circular : Circular (parentsNow s) (s.own.keyOf "B") :=
    ⟨s.own.keyOf "B", .self (Key.same_refl _), _, toA, .parent toB (.self same)⟩
  have shallow : Shallow (parentsNow s) s.own.settings.limit (s.own.keyOf "D") := by
    have limit : s.own.settings.limit = 1 := by decide +kernel
    have ends : ∀ q ∈ parentsNow s (s.own.keyOf "D"), parentsNow s q = [] := by decide +kernel
    rw [limit]
    exact ends
  have detects := linearizeBy_detects #[] {} 0 { limit := 1 }
    [.setParents "B" ["A"], .linearizeBy .depthFirst "B", .setParents "A" ["B"],
      .setParents "D" ["C"]] .depthFirst
  constructor
  · obtain ⟨parents, reads, closed, -⟩ := detects "B"
    have e : parents = parentsNow s := eq_parentsNow reads
    obtain ⟨e, t, fails, cycle⟩ := closed (e ▸ circular)
    obtain ⟨q, rfl⟩ := cycle rfl
    exact ⟨q, t, fails⟩
  · obtain ⟨parents, reads, -, found⟩ := detects "D"
    have e : parents = parentsNow s := eq_parentsNow reads
    exact (found (e ▸ shallow)).resolve_right nofun

end Registry

end ScriptCore
