import ScriptCore.Proofs.Package.Reparenting

/-!
# Package — operations keep what is remembered right

Every operation on packages, whether it succeeds or not, leaves a registry that is `Fit`: what it
remembers is the order from scratch.  Looking for methods computes lineages and holds code cells,
changes to methods touch stashes but no parent list, and replacing a parent list changes the lists
of one package and makes stale lineages go.
-/

namespace ScriptCore.Registry
open Beside Key Lineage

variable {lists : Bytes × Bool → List String} {seed : Seed} {r r' : Registry} {h h' : Heap}

/-- What is remembered is not looked at by a change to stashes. -/
theorem Coherent.of_remembers (c : Coherent lists seed r) (rem : Remembers r r') :
    Coherent lists seed r' where
  lineage k algorithm l hl := c.lineage k algorithm l (rem.profile k ▸ hl)
  children policy k hk q hq := by
    rw [rem.profile]
    exact c.children (rem.2 ▸ policy) k hk q hq

theorem Fit.of_remembers (fit : Fit lists seed ⟨h, r⟩) (s : Shelved lists seed r' h')
    (rem : Remembers r r') : Fit lists seed ⟨h', r'⟩ := ⟨s, fit.2.of_remembers rem⟩

/-! ### Lineages -/

theorem Fit.linearizeKey (algorithm : Algorithm) {package : Key} (hashed : package.IsHashed seed) :
    Leads (Fit lists seed) (Registry.linearizeKey algorithm package)
      (fun l s => Fit lists seed s ∧ HasOrder lists seed algorithm package l.order)
      (Fit lists seed) :=
  Leads.of_ends fun _ fit =>
    Ends.self ((Fit.linearizeWithin algorithm _ hashed).ends fit)

/-- **Asking for a lineage** by name. -/
theorem Fit.linearizeBy (algorithm : Algorithm) (name : String) {s : Beside Registry}
    (fit : Fit lists seed s) :
    Ends (Registry.linearizeBy algorithm name) s (fun l t => Fit lists seed t ∧
      HasOrder lists seed algorithm (s.own.keyOf name) l.order) (Fit lists seed) :=
  Ends.self ((Fit.linearizeKey algorithm (fit.1.keyOf name).1).ends fit)

theorem Fit.isA (name ancestor : String) :
    Keeps (Fit lists seed) (Registry.isA name ancestor) := by
  refine Keeps.of_ends fun s fit => ?_
  unfold Registry.isA
  refine Ends.self ?_
  dsimp only
  split
  · exact fit
  split
  · have computed : Keeps (Fit lists seed)
        (Registry.linearizeKey s.own.settings.algorithm (s.own.keyOf name)) :=
      (Fit.linearizeKey _ (fit.1.keyOf name).1).imp (fun _ => id) (fun _ _ q => q.1) fun _ => id
    exact Ends.bind (Q := fun _ => Fit lists seed) (computed.discard.ends fit) fun _ _ fit => fit
  · exact fit

/-! ### Looking for methods -/

/-- **Remembering an answer** takes hold of its code before it lets go of older code. -/
theorem Fit.rememberAnswer (fit : Fit lists seed ⟨h, r⟩) (package method : Key)
    {found : Option Method} (code : ∀ f ∈ found, h.IsCode f.code) :
    Ends (Registry.rememberAnswer package method found) ⟨h, r⟩ (fun _ => Fit lists seed)
      fun _ => False := by
  unfold Registry.rememberAnswer
  refine Ends.self ?_
  dsimp only
  have retained := Heap.steady_retainAll h (found.map (·.code)).toList
  refine Ends.step (t := ⟨h.retainAll (found.map (·.code)).toList, r⟩) rfl ?_
  generalize h.retainAll (found.map (·.code)).toList = g at retained
  have s := fit.1.onHeap retained fun _ => False.elim
  refine Ends.step (remember_eq package _ ⟨g, r⟩) ?_
  have old : ∀ i ∈ (((r.profile package).methods.get? method).bind (·.found)).map (·.code),
      g.IsCode i := by
    intro i hi
    obtain ⟨f, hf, rfl⟩ := Option.map_eq_some_iff.mp hi
    obtain ⟨a, ha, hf⟩ := Option.bind_eq_some_iff.mp hf
    obtain ⟨e, he, rfl⟩ := Option.map_eq_some_iff.mp ha
    refine s.codes package _ (List.mem_filterMap.mpr ⟨e, List.mem_of_find?_eq_some he, ?_⟩)
    rw [hf]
    rfl
  -- code that is remembered now is the new one, or was remembered before
  refine Ends.of_ok rfl ⟨?_, ?_⟩
  · refine (s.remembering fun i hi => ?_).letGo fun i hi => old i (Option.mem_toList.mp hi)
    obtain ⟨e, he, hi⟩ := List.mem_filterMap.mp hi
    rcases KeyMap.mem_put _ _ he with new | he
    · rw [new] at hi
      obtain ⟨f, hf, rfl⟩ := Option.map_eq_some_iff.mp hi
      exact retained.code _ (code f hf)
    · exact s.codes package i (List.mem_filterMap.mpr ⟨e, he, hi⟩)
  · exact fit.2.remembering (fun a _ hl => .inl (by cases a <;> exact hl)) fun _ => id

theorem Fit.resolve (package method : String) :
    Keeps (Fit lists seed) (Registry.resolve package method) := by
  refine Keeps.of_ends fun s fit => ?_
  unfold Registry.resolve
  refine Ends.self ?_
  dsimp only
  split
  · exact fit
  · refine Ends.bind ((Fit.linearizeKey _ (fit.1.keyOf package).1).ends fit) ?_
    rintro lineage ⟨h, r⟩ ⟨fit, -⟩
    refine Ends.self ?_
    refine Ends.bind (fit.1.search _ method _).liftSure ?_
    rintro found ⟨h, r⟩ ⟨rfl, s, code⟩
    exact (Fit.rememberAnswer (fit.of_remembers s ⟨rfl, rfl⟩) _ _ code).sure.bind
      fun _ _ fit => fit

theorem Fit.resolveSuper (package method : String) :
    Keeps (Fit lists seed) (Registry.resolveSuper package method) := by
  refine Keeps.of_ends fun s fit => ?_
  unfold Registry.resolveSuper
  refine Ends.self ?_
  refine Ends.bind ((Fit.linearizeKey _ (fit.1.keyOf package).1).ends fit) ?_
  rintro lineage ⟨h, r⟩ ⟨fit, -⟩
  refine Ends.self ?_
  refine (fit.1.search _ method _).liftSure.imp ?_ fun _ => id
  rintro found ⟨h, r⟩ ⟨rfl, s, -⟩
  exact fit.of_remembers s ⟨rfl, rfl⟩

/-! ### Changes -/

theorem Fit.define (name : String) : Keeps (Fit lists seed) (Registry.define name) := by
  refine Keeps.of_ends fun s fit => ?_
  exact (fit.1.define name).imp (fun _ _ q => fit.of_remembers q.1 q.2.1) fun _ => False.elim

theorem Fit.defineMethod (package : String) {method : String} (other : method ≠ parentEntry)
    (code : CellId) : Keeps (Fit lists seed) (Registry.defineMethod package method code) := by
  refine Keeps.of_ends fun s fit => ?_
  exact (fit.1.defineMethod package other code).imp (fun _ _ q => fit.of_remembers q.1 q.2)
    fun _ q => fit.of_remembers q.1 q.2

theorem Fit.removeMethod (package : String) {method : String} (other : method ≠ parentEntry) :
    Keeps (Fit lists seed) (Registry.removeMethod package method) := by
  refine Keeps.of_ends fun s fit => ?_
  exact (fit.1.removeMethod package other).imp (fun _ _ q => fit.of_remembers q.1 q.2)
    fun _ => False.elim

theorem Fit.methodsChanged : Keeps (Fit lists seed) Registry.methodsChanged :=
  fun _ fit => fit.of_remembers (fit.1.onSelf rfl fit.1.codes) ⟨rfl, rfl⟩

theorem Fit.forget (package : Key) : Keeps (Fit lists seed) (Registry.forget package) := by
  refine Keeps.of_ends fun s fit => ?_
  refine (fit.1.forget package).imp ?_ fun _ => False.elim
  rintro - t ⟨s, forgets⟩
  refine ⟨s, fun k algorithm l hl => ?_, fun policy k hk q hq => ?_⟩
  · exact fit.2.lineage k algorithm l (forgets.lineage k algorithm l hl).1
  · rw [forgets.children]
    exact fit.2.children (forgets.settings ▸ policy) k hk q hq

theorem Fit.forgetAll : Keeps (Fit lists seed) Registry.forgetAll := by
  unfold Registry.forgetAll
  refine Keeps.self.bind fun r => Keeps.bind (Keeps.forM ?_ _) fun _ => Fit.methodsChanged
  rintro ⟨k, p⟩
  exact Fit.forget k

theorem Fit.parentsChanged (name : String) :
    Keeps (Fit lists seed) (Registry.parentsChanged name) := by
  refine Keeps.of_ends fun s fit => ?_
  have changed := fit.1.parentsChanged fit.2 name fun _ _ => rfl
  exact changed.sure

/-- **Replacing a parent list** gives the package the list. -/
theorem Fit.setParents (name : String) (list : List String) :
    Leads (Fit lists seed) (Registry.setParents name list)
      (fun _ => Fit (Function.update lists (Spelling.ofText name).letters list) seed)
      fun _ => False := by
  refine Leads.of_ends fun s fit => ?_
  refine Ends.bind (fit.1.writeParents name list) ?_
  rintro - t ⟨s, rem⟩
  exact s.parentsChanged (fit.2.of_remembers rem) name fun y hy => Function.update_of_ne hy ..

end ScriptCore.Registry
