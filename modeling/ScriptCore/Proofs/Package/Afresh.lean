import ScriptCore.Proofs.Package.Transparency

/-!
# Package — lineages computed afresh

Where the order of a package can be computed from the parents alone within some levels
(`orderWithin`), a registry that has so many levels gives it, whatever else it remembers, as long
as it is not busy with a package that the order goes through.

* `Fit.linearizeWithin_gives`: what can be computed from scratch is given, and no package is left
  marked as being computed that was not before.
* `Fit.linearize_afresh`: a registry that has forgotten everything gives the lineage that it gave
  before, unless the parents of the package nest too deep.
-/

namespace ScriptCore

namespace Lineage

/-- No way up from a package, through parents, takes more than so many steps. -/
def Shallow (parents : Key → List Key) : Nat → Key → Prop
  | 0, k => parents k = []
  | steps + 1, k => ∀ q ∈ parents k, Shallow parents steps q

/-- The order of a package that is not deep is found within that many levels. -/
theorem IsOrder.orderWithin {parents : Key → List Key} {last package : Key}
    {algorithm : Algorithm} {order : List Key} {steps : Nat}
    (is : IsOrder parents last algorithm package order) (shallow : Shallow parents steps package) :
    orderWithin parents last algorithm (steps + 1) package = some order := by
  obtain ⟨levels, is⟩ := is
  -- the levels that were used are at least one, and the parents need one less
  induction steps generalizing package order levels with
  | zero =>
    cases levels with
    | zero => cases is
    | succ levels =>
      unfold Lineage.orderWithin at is ⊢
      rw [show parents package = [] from shallow] at is ⊢
      exact is
  | succ steps ih =>
    cases levels with
    | zero => cases is
    | succ levels =>
      obtain ⟨orders, all, merged⟩ := Option.bind_eq_some_iff.mp is
      refine Option.bind_eq_some_iff.mpr ⟨orders, ?_, merged⟩
      rw [mapM_eq_some_iff] at all ⊢
      exact ((List.forall₂_and_left ..).mpr ⟨shallow, all⟩).imp fun q o hq => ih hq.1 levels hq.2

end Lineage

namespace Registry
open Beside Key Lineage

/-- The lineage of a package is being computed. -/
def IsBusy (r : Registry) (k : Key) : Prop := (r.profile k).progress = .computing

section
variable {lists : Bytes × Bool → List String} {seed : Seed} {r r' : Registry} {h : Heap}
  {s t : Beside Registry} {k q package : Key} {f : Profile → Profile} {algorithm : Algorithm}
  {levels : Nat} {order : List Key}

theorem plain_of_mem_graph (hq : q ∈ graph lists seed k) : q.plain = q := by
  obtain ⟨s, -, rfl⟩ := List.mem_map.mp hq
  rfl

theorem shallow_plain {steps : Nat} :
    Shallow (graph lists seed) steps k.plain ↔ Shallow (graph lists seed) steps k := by
  cases steps <;> exact Iff.rfl

/-! ### Orders that are found have no cycle -/

/-- The parents of a package whose order is found have theirs one level less deep. -/
theorem isSome_of_mem_graph
    (found : (orderWithin (graph lists seed) (lastKey seed) algorithm (levels + 1) k.plain).isSome)
    (hq : q ∈ graph lists seed k) :
    (orderWithin (graph lists seed) (lastKey seed) algorithm levels q.plain).isSome := by
  obtain ⟨order, is⟩ := Option.isSome_iff_exists.mp found
  obtain ⟨orders, all, -⟩ := Option.bind_eq_some_iff.mp is
  obtain ⟨o, ho⟩ := Heap.exists_of_forall₂ (mapM_eq_some_iff.mp all) hq
  rw [plain_of_mem_graph hq]
  exact Option.isSome_of_eq_some ho

theorem isSome_of_inherits {p : Key}
    (found : (orderWithin (graph lists seed) (lastKey seed) algorithm levels k.plain).isSome)
    (up : Inherits (graph lists seed) p k) :
    (orderWithin (graph lists seed) (lastKey seed) algorithm levels p.plain).isSome := by
  induction up generalizing levels with
  | self same => rwa [← same_iff.mp same]
  | parent hq _ ih =>
    cases levels with
    | zero => cases found
    | succ levels =>
      obtain ⟨o, ho⟩ := Option.isSome_iff_exists.mp (ih (isSome_of_mem_graph found hq))
      rw [orderWithin_succ ho]
      rfl

/-- **No cycle.**  A package whose order is found is not inherited from by its parents. -/
theorem not_inherits_of_isSome
    (found : (orderWithin (graph lists seed) (lastKey seed) algorithm levels k.plain).isSome)
    (hq : q ∈ graph lists seed k) : ¬ Inherits (graph lists seed) k q := by
  intro up
  -- the order would be found with one level less, and so without any
  induction levels with
  | zero => cases found
  | succ levels ih => exact ih (isSome_of_inherits (isSome_of_mem_graph found hq) up)

/-! ### What is being computed -/

theorem isBusy_remembering (r : Registry) (package : Key) (f : Profile → Profile) (k : Key) :
    (r.remembering package f).IsBusy k ↔
      if package.same k then (f (r.profile k)).progress = .computing else r.IsBusy k := by
  unfold IsBusy
  rw [profile_remembering]
  split <;> exact Iff.rfl

theorem progress_keep (p : Profile) (algorithm : Algorithm) (l : Lineage) :
    (p.keep algorithm l).progress = .cached := by
  cases algorithm <;> rfl

theorem keep_ne_computing (algorithm : Algorithm) (l : Lineage) (p : Profile) :
    (p.keep algorithm l).progress ≠ .computing := by
  rw [progress_keep]
  decide

/-- A package that is marked and then settled leaves the others as busy as they were. -/
theorem isBusy_settled (free : ¬ r.IsBusy package)
    (marked : ∀ k, r'.IsBusy k ↔ r.IsBusy k ∨ package.same k = true)
    (settled : ∀ p, (f p).progress ≠ .computing) (k : Key) :
    (r'.remembering package f).IsBusy k ↔ r.IsBusy k := by
  rw [isBusy_remembering]
  split
  · rename_i same
    refine iff_of_false (settled _) fun busy => free ?_
    unfold IsBusy at busy ⊢
    rwa [profile_congr r same]
  · rename_i other
    rw [marked, or_iff_left other]

/-- The orders of the parents merge where the order from scratch is found. -/
theorem exists_merge {lineages : List Lineage}
    (found : orderWithin (graph lists seed) (lastKey seed) algorithm (levels + 1) package.plain =
      some order)
    (above : List.Forall₂ (fun q l => HasOrder lists seed algorithm q l.order)
      (graph lists seed package) lineages) :
    ∃ order, merge algorithm package (graph lists seed package) (lineages.map (·.order)) =
      some order := by
  obtain ⟨orders, all, merged⟩ := Option.bind_eq_some_iff.mp found
  obtain ⟨order, merged, -⟩ := Option.map_eq_some_iff.mp merged
  -- each parent has one order
  have same : (graph lists seed package).mapM
      (orderWithin (graph lists seed) (lastKey seed) algorithm levels) =
        some (lineages.map fun l => l.order.map plain) := by
    rw [mapM_eq_some_iff, List.forall₂_map_right_iff]
    refine ((List.forall₂_and_left ..).mpr ⟨fun q hq => hq, above⟩).imp ?_
    rintro q l ⟨hq, is⟩
    obtain ⟨o, ho⟩ := Option.isSome_iff_exists.mp
      (isSome_of_mem_graph (Option.isSome_of_eq_some found) hq)
    rw [IsOrder.unique is ⟨levels, ho⟩, ← ho, plain_of_mem_graph hq]
  obtain rfl := Option.some.inj (all.symm.trans same)
  have plainly := merge_plain algorithm package (graph lists seed package)
    (lineages.map (·.order))
  rw [map_plain_graph, List.map_map, Function.comp_def, merged] at plainly
  obtain ⟨order, merged, -⟩ := Option.map_eq_some_iff.mp plainly
  exact ⟨order, merged⟩

/-- **What can be computed is given.**  The package is not waited for on any way up, and neither
levels nor merges fail it. -/
theorem Fit.linearizeWithin_gives (hashed : package.IsHashed seed) (fit : Fit lists seed s)
    (found : orderWithin (graph lists seed) (lastKey seed) algorithm levels package.plain =
      some order)
    (idle : ∀ k, Inherits (graph lists seed) k package → ¬ s.own.IsBusy k) :
    Ends (Registry.linearizeWithin algorithm levels package) s
      (fun _ t => ∀ k, t.own.IsBusy k ↔ s.own.IsBusy k) fun _ => False := by
  induction levels generalizing package s order with
  | zero => cases found
  | succ levels ih =>
    have free : ¬ s.own.IsBusy package := idle package (.self (same_refl _))
    refine yields_linearizeWithin (F := fun _ _ => False) (fun _ _ _ => Iff.rfl) free fun _ _ => ?_
    -- while the parents are computed the package is busy too
    have busy (k : Key) :
        (mark package s).own.IsBusy k ↔ s.own.IsBusy k ∨ package.same k = true := by
      unfold mark
      rw [isBusy_remembering]
      split <;> simp_all [Profile.marked]
    -- so are the parents of the parents, one after the other
    have above (q : Key) (hq : q ∈ graph lists seed package) :
        Leads (fun u => Fit lists seed u ∧ ∀ k, u.own.IsBusy k ↔
            s.own.IsBusy k ∨ package.same k = true)
          (Registry.linearizeWithin algorithm levels q)
          (fun l u => (Fit lists seed u ∧ ∀ k, u.own.IsBusy k ↔
            s.own.IsBusy k ∨ package.same k = true) ∧ HasOrder lists seed algorithm q l.order)
          fun _ => False := by
      intro u ⟨fit, busy⟩
      have hashed := isHashed_of_mem_graph hq
      obtain ⟨o, ho⟩ := Option.isSome_iff_exists.mp
        (isSome_of_mem_graph (Option.isSome_of_eq_some found) hq)
      have given := ih hashed fit ho fun k up => ?_
      · refine (given.and ((Fit.linearizeWithin algorithm levels hashed).ends fit)).imp ?_
          fun _ => And.left
        rintro l v ⟨same, fit, is⟩
        exact ⟨⟨fit, fun k => (same k).trans (busy k)⟩, is⟩
      · rw [busy]
        rintro (waiting | same)
        · exact idle k (.parent hq up) waiting
        · exact not_inherits_of_isSome (Option.isSome_of_eq_some found) hq
            (up.of_same (same_symm same))
    refine fit.marked.1.yields_mergeParents ?_
    refine (Yields.mapM above ⟨fit.marked, busy⟩).imp ?_ fun _ _ => id
    rintro lineages t ⟨⟨-, busy⟩, orders⟩
    obtain ⟨order, merged⟩ := exists_merge found orders
    rw [merged]
    exact isBusy_settled free busy (keep_ne_computing algorithm _)

/-! ### Without memory -/

/-- Packages that forget are not waited for. -/
theorem isBusy_forM_forget (packages : List Key) :
    Ends (packages.forM Registry.forget) s (fun _ t => ∀ k, t.own.IsBusy k ↔
      s.own.IsBusy k ∧ k.isIn packages = false) fun _ => False := by
  induction packages generalizing s with
  | nil => exact fun k => (and_iff_left rfl).symm
  | cons q packages ih =>
    refine Ends.step (a := ()) (t := ⟨s.heap.letGo (s.own.profile q).codes, s.own.remembering q
      Profile.forgotten⟩) rfl (ih.imp ?_ fun _ => id)
    intro _ t busy k
    rw [busy, isBusy_remembering, ← Bool.not_eq_true, ← Bool.not_eq_true, isIn_cons, not_or,
      and_assoc.symm]
    by_cases same : q.same k = true
    · simp [same, same_symm same, Profile.forgotten]
    · have other : ¬ k.same q = true := fun h => same (same_symm h)
      simp [same, other]

/-- **Forgetting everything** leaves no package waited for. -/
theorem Fit.idle_forgetAll (fit : Fit lists seed s) :
    Ends Registry.forgetAll s (fun _ t => Fit lists seed t ∧ t.own.settings = s.own.settings ∧
      t.own.stashes = s.own.stashes ∧ ∀ k, ¬ t.own.IsBusy k) fun _ => False := by
  have fits := Fit.forgetAll.ends fit
  have kept : Keeps (fun t : Beside Registry => t.own.settings = s.own.settings ∧
      t.own.stashes = s.own.stashes) Registry.forgetAll :=
    keeps_forgetAll (P := fun u => u.settings = s.own.settings ∧ u.stashes = s.own.stashes)
      (fun _ _ same => same) fun _ same => same
  have idle : Ends Registry.forgetAll s (fun _ t => ∀ k, ¬ t.own.IsBusy k) fun _ => False := by
    refine Ends.of_eq (forgetAll_eq s) ?_
    refine Ends.bind (isBusy_forM_forget _) fun _ t busy => Ends.of_ok rfl fun k => ?_
    intro waiting
    -- a package that nothing is remembered of is not waited for
    obtain ⟨waiting, out⟩ := (busy k).mp waiting
    have unknown : s.own.profiles.get? k = none := by
      simpa [KeyMap.get?, Key.isIn] using out
    simp [IsBusy, Registry.profile, unknown] at waiting
  exact (fits.and (kept.ends ⟨rfl, rfl⟩ |>.and idle)).imp
    (fun _ t q => ⟨q.1, q.2.1.1, q.2.1.2, q.2.2⟩) fun _ q => q.2.2

/-- **Afresh.**  When everything is forgotten a lineage that was given is given again, unless the
parents of the package nest too deep. -/
theorem Fit.linearize_afresh (fit : Fit lists seed s) (name : String)
    (is : HasOrder lists seed s.own.settings.algorithm (s.own.keyOf name) order) :
    Ends (do Registry.forgetAll; Registry.linearize name) s (fun l _ =>
      l.order.map plain = order.map plain)
      fun _ => ¬ Shallow (graph lists seed) s.own.settings.limit (s.own.keyOf name) := by
  refine Ends.bind fit.idle_forgetAll.sure ?_
  rintro - t ⟨fit', settings, stashes, idle⟩
  refine Ends.of_eq (linearize_eq name t) ?_
  rw [← keyOf_congr stashes, ← settings] at is ⊢
  have hashed := (fit'.1.keyOf name).1
  have gives := ((Fit.linearizeKey t.own.settings.algorithm hashed).ends fit').imp
    (fun _ _ q => q.2.unique is) fun _ _ => trivial
  by_cases shallow : Shallow (graph lists seed) t.own.settings.limit (t.own.keyOf name)
  · have found := IsOrder.orderWithin is (shallow_plain.mpr shallow)
    have given : Ends (Registry.linearizeKey t.own.settings.algorithm (t.own.keyOf name)) t
        (fun _ _ => True) fun _ => False :=
      Ends.self ((Fit.linearizeWithin_gives hashed fit' found fun k _ => idle k).imp
        (fun _ _ _ => trivial) fun _ => id)
    exact (gives.and given).imp (fun _ _ => And.left) fun _ q => q.2.elim
  · exact gives.imp (fun _ _ => id) fun _ _ => shallow

end

end Registry

end ScriptCore
