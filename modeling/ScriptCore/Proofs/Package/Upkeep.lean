import ScriptCore.Proofs.Package.Reparenting

/-!
# Package — what an operation does to the registry itself

Much of what holds of a registry does not depend on the heap beside it.  Such a property is kept by
an operation when the few changes that it makes to the registry keep it: another table of stashes,
methods that have changed, an answer that is remembered, lineages that are computed.

Operations are followed up to their last change, which may lead to another property `Q`; where they
fail before it, `P` is kept.
-/

namespace ScriptCore.Registry
open Beside

variable {P Q : Registry → Prop}

theorem keeps_remember {package : Key} {f : Profile → Profile}
    (remembering : ∀ r, P r → P (r.remembering package f)) :
    Keeps (fun s => P s.own) (Registry.remember package f) := Keeps.changeSelf remembering

/-! ### Stashes -/

section
variable (stashes : ∀ r u, P r → P { r with stashes := u })
include stashes

theorem keeps_define (name : String) : Keeps (fun s => P s.own) (Registry.define name) := by
  unfold Registry.define
  refine Keeps.self.bind fun r => ?_
  split
  · exact Keeps.pure _
  · refine Keeps.readHeap.bind fun h => (Keeps.outcome _).bind fun e => ?_
    refine (Keeps.changeSelf fun r => stashes r _).bind fun _ => ?_
    exact (Keeps.changeHeap _).bind fun _ => Keeps.onHeap _

theorem keeps_writeParents (name : String) (list : List String) :
    Keeps (fun s => P s.own) (Registry.writeParents name list) := by
  unfold Registry.writeParents
  refine (keeps_define stashes name).bind fun stash => (Keeps.onHeap _).bind fun isa => ?_
  refine (Keeps.mapM (fun _ => Keeps.onHeap _) list).bind fun names => ?_
  refine (Keeps.attempt (Keeps.onHeap _)).bind fun written => ?_
  exact (Keeps.changeHeap _).bind fun _ => Keeps.outcome written

variable (methods : ∀ r, P r → Q { r with methodGeneration := r.methodGeneration + 1 })
include methods

theorem leads_defineMethod (package method : String) (code : CellId) :
    Leads (fun s => P s.own) (Registry.defineMethod package method code) (fun _ s => Q s.own)
      fun s => P s.own := by
  have changed : Leads (fun s => P s.own) Registry.methodsChanged (fun _ s => Q s.own)
      fun s => P s.own := fun s => methods s.own
  unfold Registry.defineMethod
  have defined := keeps_define stashes package
  refine Leads.bind defined.discard fun _ => Leads.bind Keeps.self fun r => ?_
  refine Leads.bind (Keeps.onHeap _) fun _ => Leads.bind defined fun i => ?_
  refine Leads.bind (Keeps.onHeap _) fun old => ?_
  cases old with
  | none => exact changed
  | some i =>
    refine Leads.bind Keeps.readHeap fun h => ?_
    split
    · exact Leads.bind (Keeps.onHeap _) fun _ => Leads.bind (Keeps.changeHeap _) fun _ => changed
    · exact Leads.bind (Keeps.changeHeap _) fun _ => changed

end

theorem leads_removeMethod (same : ∀ r, P r → Q r)
    (methods : ∀ r, P r → Q { r with methodGeneration := r.methodGeneration + 1 })
    (package method : String) :
    Leads (fun s => P s.own) (Registry.removeMethod package method) (fun _ s => Q s.own)
      fun s => P s.own := by
  have changed : Leads (fun s => P s.own) Registry.methodsChanged (fun _ s => Q s.own)
      fun s => P s.own := fun s => methods s.own
  have given {α : Type} (a : α) : Leads (fun s => P s.own) (pure a : OnRegistry α)
      (fun _ s => Q s.own) fun s => P s.own := fun s => same s.own
  unfold Registry.removeMethod
  refine Leads.bind Keeps.self fun r => Leads.bind (Keeps.onHeap _) fun own => ?_
  dsimp only
  split
  · refine Leads.bind (Keeps.onHeap _) fun removed => ?_
    split
    · exact Leads.bind changed fun _ _ => id
    · exact given removed
  · exact given none

/-! ### Lineages -/

/-- What is kept by each change to what is remembered is kept while lineages are computed. -/
theorem keeps_lineages {P : Beside Registry → Prop} (marks : ∀ s k, P s → P (mark k s))
    (unmarks : ∀ s k, P s → P (unmark k s))
    (records : ∀ s algorithm k order, P s → P (record algorithm k order s))
    (parents : ∀ (r : Registry) k, Keeps P (r.parents k : OnRegistry (List Key)))
    (algorithm : Lineage.Algorithm) (levels : Nat) (package : Key) :
    Keeps P (Registry.linearizeWithin algorithm levels package) := by
  induction levels generalizing package with
  | zero => exact Keeps.throw _
  | succ levels ih =>
    intro s hs
    refine yields_linearizeWithin (F := fun _ => P) (fun _ _ => hs) (fun _ => hs) fun _ _ => ?_
    have merges := keeps_mergeParents (fun r => parents r package) ih
    exact (merges.ends (marks s package hs)).yields.imp
      (fun order t => records t algorithm package order) fun _ t => unmarks t package

/-- What holds however packages are remembered is kept while lineages are computed. -/
theorem keeps_linearizing (remembering : ∀ r k f, P r → P (r.remembering k f))
    (algorithm : Lineage.Algorithm) (levels : Nat) (package : Key) :
    Keeps (fun s => P s.own) (Registry.linearizeWithin algorithm levels package) :=
  keeps_lineages (fun s k => remembering s.own k _) (fun s k => remembering s.own k _)
    (fun s _ k _ => remembering s.own k _) (fun r k => Keeps.onHeap (r.parents k)) algorithm levels
    package

section
variable (lineages : ∀ algorithm k, Keeps (fun s => P s.own) (Registry.linearizeKey algorithm k))
include lineages

theorem keeps_linearizeBy (algorithm : Lineage.Algorithm) (name : String) :
    Keeps (fun s => P s.own) (Registry.linearizeBy algorithm name) :=
  Keeps.self.bind fun _ => lineages algorithm _

theorem keeps_isA (name ancestor : String) :
    Keeps (fun s => P s.own) (Registry.isA name ancestor) := by
  unfold Registry.isA
  refine Keeps.self.bind fun r => ?_
  dsimp only
  split
  · exact Keeps.pure _
  · split
    · exact (lineages _ _).discard.bind fun _ => Keeps.self.bind fun _ => Keeps.pure _
    · exact Keeps.self.bind fun _ => Keeps.pure _

theorem keeps_resolveSuper (package method : String) :
    Keeps (fun s => P s.own) (Registry.resolveSuper package method) := by
  unfold Registry.resolveSuper
  refine Keeps.self.bind fun r => (lineages _ _).bind fun lineage => ?_
  exact Keeps.self.bind fun r => Keeps.onHeap _

theorem leads_resolve (same : ∀ r, P r → Q r)
    (answers : ∀ r k m a, P r →
      Q (r.remembering k fun p => { p with methods := p.methods.put m a }))
    (package method : String) :
    Leads (fun s => P s.own) (Registry.resolve package method) (fun _ s => Q s.own)
      fun s => P s.own := by
  unfold Registry.resolve
  refine Leads.bind Keeps.self fun r => ?_
  dsimp only
  split
  · exact fun s => same s.own
  · refine Leads.bind (lineages _ _) fun lineage => Leads.bind Keeps.self fun r => ?_
    refine Leads.bind (Keeps.onHeap _) fun found => Leads.bind ?_ fun _ _ => id
    -- only an answer is remembered
    unfold Registry.rememberAnswer
    refine Leads.bind Keeps.self fun r => Leads.bind (Keeps.changeHeap _) fun _ => ?_
    exact fun s => answers s.own _ _ _

end

/-! ### Forgetting -/

/-- What holds beside the heap however much a package forgets. -/
theorem keeps_forget (package : Key)
    (forgotten : ∀ r, P r → P (r.remembering package Profile.forgotten)) :
    Keeps (fun s => P s.own) (Registry.forget package) :=
  Keeps.self.bind fun _ => (keeps_remember forgotten).bind fun _ => Keeps.changeHeap _

/-- Parents that are noted, and then packages that forget. -/
theorem leads_parentsChanged_of
    (noted : ∀ r k parents, P r → P (r.remembering k fun p => { p with parents }))
    (recorded : ∀ r k parents, P r → P (r.recording k parents))
    (forgets : ∀ packages : List Key, Leads (fun s => P s.own) (packages.forM Registry.forget)
      (fun _ s => Q s.own) fun s => P s.own) (name : String) :
    Leads (fun s => P s.own) (Registry.parentsChanged name) (fun _ s => Q s.own)
      fun s => P s.own := by
  have records (package : Key) (parents : List Key) : Keeps (fun s => P s.own)
      (recordParents package parents) :=
    Keeps.of_ends fun s holds =>
      Ends.of_ok (recordParents_eq package parents) (recorded _ _ _ holds)
  have forgetting (package : Key) (index : KeyMap (List Key)) : Leads (fun s => P s.own) (do
      let affected := descendants index package
      affected.forM Registry.forget
      return affected.length : OnRegistry Nat) (fun _ s => Q s.own) fun s => P s.own :=
    Leads.bind (forgets _) fun _ _ => id
  unfold Registry.parentsChanged
  refine Leads.bind Keeps.self fun r => Leads.bind (Keeps.onHeap _) fun parents => ?_
  -- where children are recorded this comes first, and the rest is one
  extract_lets follow rest
  have finish (u : Unit) : Leads (fun s => P s.own) (rest u) (fun _ s => Q s.own)
      fun s => P s.own := by
    refine Leads.bind (keeps_remember fun r => noted r _ _) fun _ => ?_
    refine Leads.bind Keeps.self fun r' => ?_
    split
    · exact Leads.bind (Keeps.pure _) fun index => forgetting _ index
    · exact Leads.bind (Keeps.onHeap _) fun index => forgetting _ index
  split
  · exact Leads.bind (records _ _) finish
  · exact finish ()

/-- All packages forget one after the other. -/
theorem forgetAll_eq (s : Beside Registry) : Registry.forgetAll s =
    ((s.own.profiles.map Prod.fst).forM Registry.forget >>= fun _ => methodsChanged) s := by
  have each : (s.own.profiles.forM fun entry => Registry.forget entry.1) =
      (s.own.profiles.map Prod.fst).forM Registry.forget := by
    simp
  rw [← each]
  rfl

theorem keeps_forgetAll (forgotten : ∀ r k, P r → P (r.remembering k Profile.forgotten))
    (methods : ∀ r, P r → P { r with methodGeneration := r.methodGeneration + 1 }) :
    Keeps (fun s => P s.own) Registry.forgetAll := by
  refine Keeps.of_ends fun s holds => Ends.of_eq (forgetAll_eq s) ?_
  have each := Keeps.forM (fun k => keeps_forget k fun r => forgotten r k)
    (s.own.profiles.map Prod.fst)
  exact (each.ends holds).bind fun _ t => methods t.own

end ScriptCore.Registry
