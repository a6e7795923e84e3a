import ScriptCore.Proofs.Package.Orderly

/-!
# Package — the outcome, foreseen

`verdict` is how the computation of an order turns out by the parents of packages alone, its fault
included: packages whose orders are being computed are handed down, and nothing is remembered.

A registry that remembers orders may do better.  It does not go up from a package whose order it
remembers, and so it does not count the levels above.  Where no way up through different packages
runs out of levels (`Ample`) this makes no difference.

* `Fit.linearizeWithin_verdict`: where there is room, what a registry gives, or fails with, is the
  verdict, whatever it remembers.
-/

namespace ScriptCore

namespace Lineage

/-- The order of a package, from the parents of every package, or why it has none: a package met
again while it is `waiting` for the orders of its parents, too few levels, or parents in no
consistent order. -/
def verdict (parents : Key → List Key) (last : Key) (algorithm : Algorithm) :
    Nat → List Key → Key → Except Fault (List Key)
  | 0, _, package => .error (.cycle package.text)
  | levels + 1, waiting, package =>
    if package.isIn waiting then .error (.cycle package.text)
    else
      ((parents package).mapM (verdict parents last algorithm levels (package :: waiting))).bind
        fun orders =>
          match merge algorithm package (parents package) orders with
          | some order => .ok (closed last order)
          | none => .error (.inconsistent package.text)

/-- Every way up from a package comes to one that was `met` before it has taken so many levels, or
ends before. -/
def Ample (parents : Key → List Key) : Nat → List Key → Key → Prop
  | 0, met, package => package.isIn met = true
  | levels + 1, met, package => package.isIn met = true ∨
      ∀ q ∈ parents package, Ample parents levels (package :: met) q

end Lineage

namespace Registry
open Beside Key Lineage

section
variable {lists : Bytes × Bool → List String} {seed : Seed} {s : Beside Registry}
  {k q package : Key} {algorithm : Algorithm} {levels : Nat} {order : List Key}
  {waiting : List Key}

/-- To inherit from one that inherits. -/
theorem Inherits.trans {a b c : Key} (up : Inherits (graph lists seed) a b)
    (up' : Inherits (graph lists seed) b c) : Inherits (graph lists seed) a c := by
  induction up' with
  | self same => exact up.congr (same_symm same)
  | parent hq _ ih => exact .parent hq ih

theorem mapM_ok_of_forall₂ {α β ε : Type} {f : α → Except ε β} {l : List α} {bs : List β}
    (h : List.Forall₂ (fun a b => f a = .ok b) l bs) : l.mapM f = .ok bs := by
  induction h with
  | nil => rfl
  | cons first _ ih =>
    rw [List.mapM_cons, first, ih]
    rfl

/-- The verdict of the first parent that has no order. -/
theorem verdict_of_failed {e : Fault} (away : ¬ package.isIn waiting = true)
    (fails : (graph lists seed package).mapM (verdict (graph lists seed) (lastKey seed) algorithm
      levels (package :: waiting)) = .error e) :
    verdict (graph lists seed) (lastKey seed) algorithm (levels + 1) waiting package =
      .error e := by
  unfold verdict
  rw [if_neg away, fails]
  rfl

/-- The orders of the parents are merged. -/
theorem verdict_of_orders {orders : List (List Key)} (away : ¬ package.isIn waiting = true)
    (all : (graph lists seed package).mapM (verdict (graph lists seed) (lastKey seed) algorithm
      levels (package :: waiting)) = .ok orders) :
    verdict (graph lists seed) (lastKey seed) algorithm (levels + 1) waiting package =
      match merge algorithm package (graph lists seed package) orders with
      | some order => .ok (closed (lastKey seed) order)
      | none => .error (.inconsistent package.text) := by
  unfold verdict
  rw [if_neg away, all]
  rfl

/-- **An order that exists is the verdict**, where there is room and no package that waits is
met. -/
theorem verdict_of_orderWithin {levels' : Nat}
    (found : orderWithin (graph lists seed) (lastKey seed) algorithm levels package.plain =
      some order) (room : Ample (graph lists seed) levels' waiting package.plain)
    (apart : ∀ w ∈ waiting, ¬ Inherits (graph lists seed) w package.plain) :
    verdict (graph lists seed) (lastKey seed) algorithm levels' waiting package.plain =
      .ok order := by
  -- the levels that the order needs get fewer with every step up
  induction levels generalizing levels' waiting package order with
  | zero => cases found
  | succ levels ih =>
    have away : ¬ package.plain.isIn waiting = true := by
      intro inside
      obtain ⟨w, hw, same⟩ := List.any_eq_true.mp inside
      exact apart w hw (.self same)
    cases levels' with
    | zero => exact absurd room away
    | succ levels' =>
      have above := room.resolve_left away
      have circular : ∀ q ∈ graph lists seed package.plain, ¬ Inherits (graph lists seed)
          package.plain q := fun q =>
        not_inherits_of_isSome (k := package.plain) (Option.isSome_of_eq_some found)
      obtain ⟨orders, all, merged⟩ := Option.bind_eq_some_iff.mp found
      obtain ⟨top, tops, rfl⟩ := Option.map_eq_some_iff.mp merged
      have gives : (graph lists seed package.plain).mapM (verdict (graph lists seed) (lastKey seed)
          algorithm levels' (package.plain :: waiting)) = .ok orders := by
        refine mapM_ok_of_forall₂ (((List.forall₂_and_left ..).mpr
          ⟨fun q hq => hq, mapM_eq_some_iff.mp all⟩).imp ?_)
        rintro q o ⟨hq, found⟩
        have plain := plain_of_mem_graph hq
        rw [← plain] at found ⊢
        refine ih found (plain.symm ▸ above q hq) (plain.symm ▸ ?_)
        exact List.forall_mem_cons.mpr ⟨circular q hq, fun w hw up => apart w hw (.parent hq up)⟩
      rw [verdict_of_orders away gives, tops]

/-- What is known of a registry while some packages wait for the orders of their parents. -/
def Awaiting (lists : Bytes × Bool → List String) (seed : Seed) (waiting : List Key)
    (s : Beside Registry) : Prop :=
  Fit lists seed s ∧ ∀ k, s.own.IsBusy k ↔ k.isIn waiting = true

/-- A package that is marked as being computed waits with the others. -/
theorem Awaiting.marked (await : Awaiting lists seed waiting s) (package : Key) :
    Awaiting lists seed (package.plain :: waiting) (mark package s) := by
  obtain ⟨fit, busy⟩ := await
  refine ⟨fit.marked, fun k => ?_⟩
  unfold mark
  rw [isBusy_remembering, isIn_cons]
  split
  · rename_i same
    exact iff_of_true rfl (.inl (same_symm same))
  · rename_i other
    exact (busy k).trans (or_iff_right fun same => other (same_symm same)).symm

/-- A package that is settled waits no longer. -/
theorem Awaiting.settle {t : Beside Registry} {f : Profile → Profile}
    (await : Awaiting lists seed (package.plain :: waiting) t)
    (away : ¬ package.isIn waiting = true) (settled : ∀ p, (f p).progress ≠ .computing) (k : Key) :
    (t.own.remembering package f).IsBusy k ↔ k.isIn waiting = true := by
  rw [isBusy_remembering]
  split
  · rename_i same
    rw [← isIn_congr same]
    exact iff_of_false (settled _) away
  · rename_i other
    rw [await.2, isIn_cons]
    exact or_iff_right fun same => other (same_symm same)

/-- A package whose order is remembered has that as its verdict: none of those that wait is met
above it. -/
theorem Fit.verdict_of_known {l : Lineage} (fit : Fit lists seed s)
    (room : Ample (graph lists seed) levels waiting package.plain)
    (below : ∀ w ∈ waiting, ∃ q ∈ graph lists seed w, Inherits (graph lists seed) package q)
    (known : (s.own.profile package).lineage? algorithm = some l) :
    verdict (graph lists seed) (lastKey seed) algorithm levels waiting package.plain =
      .ok (l.order.map plain) := by
  obtain ⟨-, levels', found⟩ := fit.2.lineage package algorithm l known
  refine verdict_of_orderWithin found room fun w hw up => ?_
  obtain ⟨q, hq, inherits⟩ := below w hw
  have same : package.same package.plain = true := same_refl package
  have some := isSome_of_inherits (k := package.plain) (Option.isSome_of_eq_some found) up
  exact not_inherits_of_isSome some hq (up.trans (inherits.of_same same))

/-- What is merged is the verdict, of whichever keys the parents have. -/
theorem verdict_of_merge {lineages : List Lineage} (away : ¬ package.plain.isIn waiting = true)
    (all : (graph lists seed package).mapM (verdict (graph lists seed) (lastKey seed) algorithm
      levels (package.plain :: waiting)) = .ok (lineages.map fun l => l.order.map plain)) :
    verdict (graph lists seed) (lastKey seed) algorithm (levels + 1) waiting package.plain =
      match merge algorithm package (graph lists seed package) (lineages.map (·.order)) with
      | some order => .ok (closed (lastKey seed) (order.map plain))
      | none => .error (.inconsistent package.text) := by
  have merged := merge_plain algorithm package (graph lists seed package)
    (lineages.map (·.order))
  rw [map_plain_graph, List.map_map, Function.comp_def] at merged
  have is := verdict_of_orders away all
  rw [is, ← merged]
  cases merge algorithm package (graph lists seed package) (lineages.map (·.order)) <;> rfl

/-- **The outcome is the verdict.**  Where there is room, a registry gives the order, or fails with
the fault, that follows from the parents alone.  The packages that wait inherit from the one that
is asked for. -/
theorem Fit.linearizeWithin_verdict (hashed : package.IsHashed seed)
    (room : Ample (graph lists seed) levels waiting package.plain)
    (below : ∀ w ∈ waiting, ∃ q ∈ graph lists seed w, Inherits (graph lists seed) package q)
    (await : Awaiting lists seed waiting s) :
    Yields (Registry.linearizeWithin algorithm levels package) s
      (fun l t => Awaiting lists seed waiting t ∧
        verdict (graph lists seed) (lastKey seed) algorithm levels waiting package.plain =
          .ok (l.order.map plain))
      fun e t => Awaiting lists seed waiting t ∧
        verdict (graph lists seed) (lastKey seed) algorithm levels waiting package.plain =
          .error e := by
  induction levels generalizing package waiting s with
  | zero => exact ⟨await, rfl⟩
  | succ levels ih =>
    -- what is remembered at the end is right in any case
    suffices Yields (Registry.linearizeWithin algorithm (levels + 1) package) s
        (fun l t => (∀ k, t.own.IsBusy k ↔ k.isIn waiting = true) ∧
          verdict (graph lists seed) (lastKey seed) algorithm (levels + 1) waiting package.plain =
            .ok (l.order.map plain))
        fun e t => (∀ k, t.own.IsBusy k ↔ k.isIn waiting = true) ∧
          verdict (graph lists seed) (lastKey seed) algorithm (levels + 1) waiting package.plain =
            .error e from
      (this.and ((Fit.linearizeWithin algorithm (levels + 1) hashed).ends await.1).yields).imp
        (fun _ _ q => ⟨⟨q.2.1, q.1.1⟩, q.1.2⟩) fun _ _ q => ⟨⟨q.2, q.1.1⟩, q.1.2⟩
    have busy := await.2
    refine yields_linearizeWithin
      (fun l known => ⟨busy, await.1.verdict_of_known room below known⟩)
      (fun computing => ⟨busy, ?_⟩) fun _ free => ?_
    · have inside : package.plain.isIn waiting = true := (busy package).mp computing
      unfold verdict
      rw [if_pos inside]
      rfl
    have away : ¬ package.plain.isIn waiting = true := fun inside =>
      free ((busy package).mpr inside)
    have above := room.resolve_left away
    -- the parents wait for no package but those that inherit from them
    have gives : ∀ q ∈ graph lists seed package, ∀ u,
        Awaiting lists seed (package.plain :: waiting) u →
          Yields (Registry.linearizeWithin algorithm levels q) u
            (fun l t => Awaiting lists seed (package.plain :: waiting) t ∧
              verdict (graph lists seed) (lastKey seed) algorithm levels
                (package.plain :: waiting) q = .ok (l.order.map plain))
            fun e t => Awaiting lists seed (package.plain :: waiting) t ∧
              verdict (graph lists seed) (lastKey seed) algorithm levels
                (package.plain :: waiting) q = .error e := by
      intro q hq u await
      have plain := plain_of_mem_graph hq
      have given := ih (isHashed_of_mem_graph hq) (plain.symm ▸ above q hq) ?_ await
      · rwa [plain] at given
      · refine List.forall_mem_cons.mpr ⟨⟨q, hq, .self (same_refl q)⟩, fun w hw => ?_⟩
        obtain ⟨r, hr, up⟩ := below w hw
        exact ⟨r, hr, Inherits.trans (.parent hq (.self (same_refl q))) up⟩
    have marked := await.marked package
    refine marked.1.1.yields_mergeParents ((Yields.mapM_foreseen gives marked).imp ?_ ?_)
    · rintro lineages t ⟨await, all⟩
      have is := verdict_of_merge away all
      split <;> rename_i found <;> rw [found] at is
      · refine ⟨await.settle away (keep_ne_computing algorithm _), is.trans ?_⟩
        rw [lineageOf, map_plain_closed, await.1.1.plain_universal]
      · exact ⟨await.settle away Profile.settled_ne_computing, is⟩
    · rintro e t ⟨await, fails⟩
      exact ⟨await.settle away Profile.settled_ne_computing, verdict_of_failed away fails⟩

end

end Registry

end ScriptCore
