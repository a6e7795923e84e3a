import ScriptCore.Proofs.Package.Cycles
import ScriptCore.Proofs.Package.Parentage

/-!
# Package — what was asked for before

The depth of a package is counted only up to those whose order is remembered.  So what was asked
for before may bring an order within reach that is too deep otherwise, and no more than that.

* `linearizeBy_unswayed`: where no way up through different packages is longer than the limit, two
  registries with the same parents give the same order or fail with the same fault, whatever was
  asked of either.
* `linearizeBy_swayed`: beyond the limit they do not.
-/

namespace ScriptCore

namespace Lineage

/-- No way up from a package, through packages that are all different, takes more than so many
steps. -/
def ClimbsWithin (parents : Key → List Key) (steps : Nat) (package : Key) : Prop :=
  ∀ way : List Key, (package :: way).IsChain (fun k q => q ∈ parents k) →
    Key.Apart (package :: way) → way.length ≤ steps

theorem Shallow.climbsWithin {parents : Key → List Key} {steps : Nat} {k : Key}
    (shallow : Shallow parents steps k) : ClimbsWithin parents steps k := by
  intro way chain apart
  induction steps generalizing k way with
  | zero =>
    cases chain with
    | singleton => exact Nat.le_refl 0
    | cons_cons hq _ =>
      exact absurd hq (by rw [show parents k = [] from shallow]; exact List.not_mem_nil)
  | succ steps ih =>
    cases chain with
    | singleton => exact Nat.zero_le _
    | cons_cons hq chain =>
      exact Nat.succ_le_succ (ih (shallow _ hq) _ chain (List.pairwise_cons.mp apart).2)

/-- Where every way past what was met ends in time, there is room. -/
theorem ample_of_ways {parents : Key → List Key} {levels : Nat} {met : List Key} {k : Key}
    (short : ∀ way : List Key, (k :: way).IsChain (fun k q => q ∈ parents k) →
      Key.Apart (k :: way) → (∀ q ∈ k :: way, ¬ q.isIn met = true) → way.length < levels) :
    Ample parents levels met k := by
  induction levels generalizing k met with
  | zero =>
    by_contra away
    have alone : ∀ q ∈ [k], ¬ q.isIn met = true := List.forall_mem_singleton.mpr away
    exact Nat.not_lt_zero _ (short [] (.singleton k) (List.pairwise_singleton ..) alone)
  | succ levels ih =>
    by_cases inside : k.isIn met = true
    · exact .inl inside
    refine .inr fun q hq => ih fun way chain apart away => ?_
    have other : ∀ x ∈ q :: way, ¬ x.same k = true ∧ ¬ x.isIn met = true := fun x hx => by
      rw [← not_or, ← Key.isIn_cons]
      exact away x hx
    have longer : (q :: way).length < levels + 1 := by
      refine short (q :: way) (.cons_cons hq chain) (List.pairwise_cons.mpr ⟨fun x hx => ?_, apart⟩)
        (List.forall_mem_cons.mpr ⟨inside, fun x hx => (other x hx).2⟩)
      exact Bool.not_eq_true _ ▸ fun same => (other x hx).1 (Key.same_symm same)
    exact Nat.lt_of_succ_lt_succ longer

end Lineage

namespace Registry
open Beside Key Lineage

/-- Two ends of a request for a lineage that cannot be told apart: the same packages in the same
order, or the same fault. -/
def Alike : EStateM.Result Fault (Beside Registry) Lineage →
    EStateM.Result Fault (Beside Registry) Lineage → Prop
  | .ok l _, .ok l' _ => List.Forall₂ (fun a b => a.same b = true) l.order l'.order
  | .error e _, .error e' _ => e = e'
  | _, _ => False

section
variable {lists : Bytes × Bool → List String} {seed : Seed} {s : Beside Registry}
  {k q package : Key} {algorithm : Algorithm} {steps : Nat} {order waiting : List Key}

theorem forall₂_same_iff {order order' : List Key} :
    List.Forall₂ (fun a b => a.same b = true) order order' ↔
      order.map plain = order'.map plain := by
  rw [← List.forall₂_eq_eq_eq, List.forall₂_map_left_iff, List.forall₂_map_right_iff]
  exact ⟨fun h => h.imp fun _ _ => same_iff.mp, fun h => h.imp fun _ _ => same_iff.mpr⟩

theorem ample_of_climbsWithin (within : ClimbsWithin (graph lists seed) steps package) :
    Ample (graph lists seed) (steps + 1) [] package.plain := by
  refine ample_of_ways fun way chain apart _ => Nat.lt_succ_of_le (within way ?_ ?_)
  · cases way with
    | nil => exact .singleton _
    | cons q way =>
      cases chain with
      | cons_cons hq chain => exact .cons_cons hq chain
  · obtain ⟨other, apart⟩ := List.pairwise_cons.mp apart
    exact List.pairwise_cons.mpr ⟨other, apart⟩

/-- **The verdict is given**, from what is remembered or not. -/
theorem Fit.linearizeBy_verdict (fit : Fit lists seed s) (o : s.own.Orderly)
    (algorithm : Algorithm) (name : String)
    (room : Ample (graph lists seed) (s.own.settings.limit + 1) [] (s.own.keyOf name).plain) :
    Yields (Registry.linearizeBy algorithm name) s
      (fun l _ => verdict (graph lists seed) (lastKey seed) algorithm (s.own.settings.limit + 1) []
        (s.own.keyOf name).plain = .ok (l.order.map plain))
      fun e _ => verdict (graph lists seed) (lastKey seed) algorithm (s.own.settings.limit + 1) []
        (s.own.keyOf name).plain = .error e := by
  have hashed := (fit.1.keyOf name).1
  unfold Yields
  rw [linearizeBy_eq]
  exact (Fit.linearizeWithin_verdict hashed room (List.forall_mem_nil _)
    (fit.awaiting o)).imp (fun _ _ => And.right) fun _ _ => And.right

/-- Requests that come to one verdict end alike. -/
theorem alike_of_verdict {x y : OnRegistry Lineage} {s s' : Beside Registry}
    {v : Except Fault (List Key)}
    (h : Yields x s (fun l _ => v = .ok (l.order.map plain)) fun e _ => v = .error e)
    (h' : Yields y s' (fun l _ => v = .ok (l.order.map plain)) fun e _ => v = .error e) :
    Alike (x s) (y s') := by
  rcases h.cases with ⟨l, t, is, rfl⟩ | ⟨e, t, is, rfl⟩
  · rcases h'.cases with ⟨l', t', is', same⟩ | ⟨e', t', is', other⟩
    · rw [is, is']
      exact forall₂_same_iff.mpr (Except.ok.inj same)
    · cases other
  · rcases h'.cases with ⟨l', t', is', other⟩ | ⟨e', t', is', same⟩
    · cases other
    · rw [is, is']
      exact Except.error.inj same

/-! ### Settings -/

/-- What holds however a registry stands with its stashes and with what it remembers. -/
theorem Op.keeps_perform {P : Registry → Prop} (stashes : ∀ r u, P r → P { r with stashes := u })
    (profiles : ∀ r m, P r → P { r with profiles := m })
    (methods : ∀ r, P r → P { r with methodGeneration := r.methodGeneration + 1 }) (op : Op) :
    Keeps (fun s => P s.own) op.perform := by
  have remembering (r : Registry) (k : Key) (f : Profile → Profile) (holds : P r) :
      P (r.remembering k f) := profiles r _ holds
  have lineages (algorithm : Algorithm) (package : Key) :
      Keeps (fun s => P s.own) (Registry.linearizeKey algorithm package) :=
    Keeps.self.bind fun _ => keeps_linearizing remembering algorithm _ package
  have changed (name : String) : Keeps (fun s => P s.own) (Registry.parentsChanged name) :=
    leads_parentsChanged_of (fun r k _ => remembering r k _)
      (fun r k parents holds => profiles r (r.recording k parents).profiles holds)
      (Keeps.forM fun k => keeps_forget k fun r => remembering r k _) name
  cases op with
  | define package => exact (keeps_define stashes package).discard
  | setParents package list =>
    exact ((keeps_writeParents stashes package list).bind fun _ => changed package).discard
  | parentsChanged package => exact (changed package).discard
  | defineMethod package method code => exact leads_defineMethod stashes methods package method code
  | removeMethod package method =>
    exact Keeps.discard (leads_removeMethod (fun _ => id) methods package method)
  | linearizeBy algorithm package => exact (keeps_linearizeBy lineages _ package).discard
  | isA package ancestor => exact (keeps_isA lineages package ancestor).discard
  | resolve package method =>
    exact Keeps.discard (leads_resolve lineages (fun _ => id) (fun r k _ _ => remembering r k _)
      package method)
  | resolveSuper package method => exact (keeps_resolveSuper lineages package method).discard
  | methodsChanged => exact Keeps.changeSelf methods
  | forgetAll => exact keeps_forgetAll (fun r k => remembering r k _) methods
  | newCode routine => exact (Keeps.onHeap _).discard
  | letGo code => exact (Keeps.onHeap _).discard.bind fun _ => Keeps.changeHeap _

theorem settings_run (ops : List Op) (s : Beside Registry) :
    (run ops s).own.settings = s.own.settings := by
  induction ops generalizing s with
  | nil => rfl
  | cons op ops ih => exact (ih _).trans ((op.keeps_perform
    (P := fun r => r.settings = s.own.settings) (fun _ _ same => same) (fun _ _ same => same)
    fun _ same => same).after rfl)

end

/-- **What was asked for makes no difference** as long as no way up is too long.  Two new registries
that have come to the same parents, by whatever operations, give the same lineage of a package or
fail with the same fault. -/
theorem linearizeBy_unswayed (seeds : Array Seed) (supply : Supply) (pool : Nat)
    (settings : Settings) (ops ops' : List Op) (algorithm : Algorithm) (name : String) :
    let s := run ops (start seeds supply pool settings)
    let s' := run ops' (start seeds supply pool settings)
    ∃ parents parents' : Key → List Key, (∀ k, s.own.parents k s.heap = .ok (parents k) s.heap) ∧
      (∀ k, s'.own.parents k s'.heap = .ok (parents' k) s'.heap) ∧
      (parents = parents' → ClimbsWithin parents settings.limit (s.own.keyOf name) →
        Alike (linearizeBy algorithm name s) (linearizeBy algorithm name s')) := by
  intro s s'
  obtain ⟨lists, fit⟩ := (fit_start seeds supply pool settings).run ops
  obtain ⟨lists', fit'⟩ := (fit_start seeds supply pool settings).run ops'
  refine ⟨graph lists _, graph lists' _, fit.1.parents, fit'.1.parents, fun same within => ?_⟩
  have limit : s.own.settings.limit = settings.limit :=
    congrArg Settings.limit (settings_run ops (start seeds supply pool settings))
  have limit' : s'.own.settings.limit = settings.limit :=
    congrArg Settings.limit (settings_run ops' (start seeds supply pool settings))
  -- the name stands for the same package in both
  have plain : (s'.own.keyOf name).plain = (s.own.keyOf name).plain := by
    obtain ⟨hash, letters⟩ := fit.1.keyOf name
    obtain ⟨hash', letters'⟩ := fit'.1.keyOf name
    exact IsHashed.plain_eq hash' hash (letters'.trans letters.symm)
  have room := ample_of_climbsWithin within
  have given := fit.linearizeBy_verdict (orderly_run seeds supply pool settings ops) algorithm name
    (limit.symm ▸ room)
  have given' := fit'.linearizeBy_verdict (orderly_run seeds supply pool settings ops') algorithm
    name (by rw [limit', plain, ← same]; exact room)
  rw [limit] at given
  rw [limit', plain, ← same] at given'
  exact alike_of_verdict given given'

/-- A request changes no parents. -/
theorem parentsNow_linearizeBy (seeds : Array Seed) (supply : Supply) (pool : Nat)
    (settings : Settings) (ops : List Op) (algorithm : Algorithm) (name : String) :
    parentsNow (run (ops ++ [.linearizeBy algorithm name]) (start seeds supply pool settings)) =
      parentsNow (run ops (start seeds supply pool settings)) := by
  obtain ⟨lists, fit⟩ := (fit_start seeds supply pool settings).run ops
  have fit' := fit.perform (.linearizeBy algorithm name)
  unfold run
  rw [List.foldl_append]
  exact (eq_parentsNow fit'.1.parents).symm.trans (eq_parentsNow fit.1.parents)

/-- A parent that was asked for before. -/
theorem linearizeBy_unswayed_parent :
    let ops : List Op := [.setParents "B" ["A"], .setParents "C" ["B"]]
    let s := run ops (start #[] {} 0 { limit := 2 })
    let s' := run (ops ++ [.linearizeBy .depthFirst "B"]) (start #[] {} 0 { limit := 2 })
    Alike (linearizeBy .depthFirst "C" s) (linearizeBy .depthFirst "C" s') := by
  intro ops s s'
  have shallow : Shallow (parentsNow s) 2 (s.own.keyOf "C") :=
    show ∀ q ∈ parentsNow s (s.own.keyOf "C"), ∀ r ∈ parentsNow s q, parentsNow s r = [] by
      decide +kernel
  obtain ⟨parents, parents', reads, reads', alike⟩ := linearizeBy_unswayed #[] {} 0 { limit := 2 }
    ops (ops ++ [.linearizeBy .depthFirst "B"]) .depthFirst "C"
  have now : parents = parentsNow s := eq_parentsNow reads
  have now' : parents' = parentsNow s :=
    (eq_parentsNow reads').trans
      (parentsNow_linearizeBy #[] {} 0 { limit := 2 } ops .depthFirst "B")
  exact alike (now.trans now'.symm) (now ▸ shallow.climbsWithin)

/-- **Beyond the limit** it does make a difference: a package whose parent has a parent is taken for
a circle, and has a lineage once its parent was asked for. -/
theorem linearizeBy_swayed :
    let ops : List Op := [.setParents "B" ["A"], .setParents "C" ["B"]]
    let s := run ops (start #[] {} 0 { limit := 1 })
    let s' := run (ops ++ [.linearizeBy .depthFirst "B"]) (start #[] {} 0 { limit := 1 })
    parentsNow s' = parentsNow s ∧
      failed? (linearizeBy .depthFirst "C") s (fun e _ => e) = some (.cycle "A") ∧
      (given? (linearizeBy .depthFirst "C") s').map (·.names) = some ["C", "B", "A", "UNIVERSAL"] :=
  ⟨parentsNow_linearizeBy .., by decide +kernel, by decide +kernel⟩

end Registry

end ScriptCore
