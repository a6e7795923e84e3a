import ScriptCore.Proofs.Package.Inheritance
import ScriptCore.Proofs.Package.Session
import ScriptCore.Proofs.Package.Upkeep

/-!
# Package — who forgets when a parent list changes

A changed parent list makes the package and all that inherit from it forget, each of them once,
and nobody else (`Invalidates`).

* `setParents_invalidates`: so it is after any operations on a new registry, whether children are
  recorded or read off every parent list.
-/

namespace ScriptCore

/-- All that is remembered of a package stays, but for who its parents and children are. -/
structure Profile.Kept (p p' : Profile) : Prop where
  progress : p'.progress = p.progress
  depthFirst : p'.depthFirst = p.depthFirst
  c3 : p'.c3 = p.c3
  ancestors : p'.ancestors = p.ancestors
  methods : p'.methods = p.methods
  generation : p'.generation = p.generation

/-- All that is remembered of a package is gone, and its generation has gone up by one. -/
structure Profile.Dropped (p p' : Profile) : Prop where
  progress : p'.progress = .uncached
  depthFirst : p'.depthFirst = none
  c3 : p'.c3 = none
  ancestors : p'.ancestors = none
  methods : p'.methods = []
  generation : p'.generation = p.generation + 1

theorem Profile.Kept.trans {p p' p'' : Profile} (a : p.Kept p') (b : p'.Kept p'') : p.Kept p'' where
  progress := b.progress.trans a.progress
  depthFirst := b.depthFirst.trans a.depthFirst
  c3 := b.c3.trans a.c3
  ancestors := b.ancestors.trans a.ancestors
  methods := b.methods.trans a.methods
  generation := b.generation.trans a.generation

theorem Profile.Kept.dropped {p p' : Profile} (a : p.Kept p') : p.Dropped p'.forgotten :=
  ⟨rfl, rfl, rfl, rfl, rfl, congrArg (· + 1) a.generation⟩

namespace Registry
open Beside Key Lineage

section
variable {lists lists' : Bytes × Bool → List String} {seed : Seed} {r r' : Registry} {h : Heap}

/-! ### Forgetting -/

/-- Packages that are apart forget once each. -/
theorem ends_forM_forget {packages : List Key} (apart : Apart packages) :
    Ends (packages.forM Registry.forget) ⟨h, r⟩ (fun _ t => t.own.stashes = r.stashes ∧
      t.own.settings = r.settings ∧ ∀ k, t.own.profile k =
        if k.isIn packages then (r.profile k).forgotten else r.profile k) fun _ => False := by
  induction packages generalizing r h with
  | nil => exact ⟨rfl, rfl, fun _ => rfl⟩
  | cons q packages ih =>
    refine Ends.step (a := ()) (t := ⟨h.letGo (r.profile q).codes, r.remembering q
      Profile.forgotten⟩) rfl ((ih (List.pairwise_cons.mp apart).2).imp ?_ fun _ => id)
    rintro - t ⟨stashes, settings, profiles⟩
    refine ⟨stashes, settings, fun k => ?_⟩
    rw [profiles, profile_remembering]
    by_cases same : q.same k = true
    · rw [isIn_of_apart apart same, if_pos same, if_pos (isIn_cons.mpr (.inl (same_symm same)))]
      rfl
    · have skip : k.isIn (q :: packages) = k.isIn packages := by
        rw [Bool.eq_iff_iff, isIn_cons]
        exact or_iff_right fun h => same (same_symm h)
      rw [if_neg same, skip]

/-! ### Changed parents -/

/-- What a changed parent list makes packages forget: those that inherit, each of them once. -/
structure Invalidates (parents : Key → List Key) (package : Key) (seed : Seed) (r r' : Registry)
    (affected : List Key) : Prop where
  once : affected.Pairwise fun a b => a.same b = false
  hashed : ∀ k ∈ affected, k.IsHashed seed
  heirs : ∀ k, k.IsHashed seed → (k.isIn affected = true ↔ Inherits parents package k)
  dropped : ∀ k, k.isIn affected = true → (r.profile k).Dropped (r'.profile k)
  kept : ∀ k, k.isIn affected = false → (r.profile k).Kept (r'.profile k)

theorem kept_recording (r : Registry) (package : Key) (parents : List Key) (k : Key) :
    (r.profile k).Kept ((r.recording package parents).profile k) := by
  rw [profile_recording]
  dsimp only
  split <;> split <;> exact ⟨rfl, rfl, rfl, rfl, rfl, rfl⟩

theorem kept_noting (r : Registry) (package : Key) (parents : List Key) (k : Key) :
    (r.profile k).Kept ((r.noting package parents).profile k) := by
  have before : (r.profile k).Kept ((if r.settings.policy = .incremental
      then r.recording package parents else r).profile k) := by
    split
    · exact kept_recording r package parents k
    · exact ⟨rfl, rfl, rfl, rfl, rfl, rfl⟩
  unfold Registry.noting
  rw [profile_remembering]
  split
  · exact before.trans ⟨rfl, rfl, rfl, rfl, rfl, rfl⟩
  · exact before

/-- What is recorded is not looked at where nothing but other memories change. -/
theorem Recorded.of_same (rec : Recorded lists seed r) (settings : r'.settings = r.settings)
    (same : ∀ k, (r'.profile k).parents = (r.profile k).parents ∧
      (r'.profile k).children = (r.profile k).children) : Recorded lists seed r' where
  parents k hk := (same k).1.trans (rec.parents k hk)
  children policy q c hc := rec.children (settings ▸ policy) q c ((same q).2 ▸ hc)

theorem keyOf_congr (same : r'.stashes = r.stashes) (name : String) :
    r'.keyOf name = r.keyOf name := by
  unfold Registry.keyOf key? Registry.seed
  rw [same]

/-- What is remembered is right, and so is what is recorded. -/
def Tracked (lists : Bytes × Bool → List String) (seed : Seed) (s : Beside Registry) : Prop :=
  Fit lists seed s ∧ Recorded lists seed s.own

/-- **A changed parent list** makes those forget that inherit from the package. -/
theorem Shelved.invalidates (s : Shelved lists' seed r h) (c : Coherent lists seed r)
    (rec : Recorded lists seed r) (name : String)
    (off : ∀ y, y ≠ (Spelling.ofText name).letters → lists' y = lists y) :
    Ends (Registry.parentsChanged name) ⟨h, r⟩ (fun n t => Tracked lists' seed t ∧
      ∃ affected, n = affected.length ∧
        Invalidates (graph lists' seed) (t.own.keyOf name) seed r t.own affected)
      fun _ => False := by
  obtain ⟨hp, letters⟩ := s.keyOf name
  have off' := letters ▸ off
  have noted := s.noting (r.keyOf name) (graph lists' seed (r.keyOf name))
  have indexed := c.indexed hp off'
  have rec' := rec.noting hp off'
  have records := records_noting r (r.keyOf name) (graph lists' seed (r.keyOf name))
  have kept := kept_noting r (r.keyOf name) (graph lists' seed (r.keyOf name))
  have counted : Ends (Registry.parentsChanged name) ⟨h, r⟩ (fun n t =>
      Recorded lists' seed t.own ∧ ∃ affected, n = affected.length ∧
        Invalidates (graph lists' seed) (t.own.keyOf name) seed r t.own affected)
      fun _ => False := by
    refine Ends.of_eq (s.parentsChanged_eq name) ?_
    generalize r.noting (r.keyOf name) (graph lists' seed (r.keyOf name)) = r' at *
    refine (ends_forM_forget (apart_descendants _ _)).bind ?_
    rintro - t ⟨stashes, settings, profiles⟩
    refine Ends.of_ok rfl ⟨rec'.of_same settings fun k => ?_, _, rfl, ?_⟩
    · rw [profiles]
      split <;> exact ⟨rfl, rfl⟩
    · rw [keyOf_congr (stashes.trans records.stashes)]
      refine ⟨apart_descendants _ _, isHashed_of_mem_descendants (noted.faithful_indexNow rec') hp,
        fun k => noted.isIn_affected_iff indexed rec', fun k inside => ?_, fun k out => ?_⟩
      · rw [profiles]
        exact if_pos inside ▸ (kept k).dropped
      · rw [profiles]
        exact if_neg (Bool.eq_false_iff.mp out) ▸ kept k
  exact ((s.parentsChanged c name off).and counted).imp
    (fun _ _ q => ⟨⟨q.1, q.2.1⟩, q.2.2⟩) fun _ => And.left

theorem Tracked.parentsChanged (name : String) :
    Keeps (Tracked lists seed) (Registry.parentsChanged name) :=
  Keeps.of_ends fun _ tracked =>
    (tracked.1.1.invalidates tracked.1.2 tracked.2 name fun _ _ => rfl).sure.imp
      (fun _ _ => And.left) fun _ => id

/-- **Replacing a parent list** makes those forget that inherit from the package by the new list. -/
theorem Tracked.setParents (name : String) (list : List String) {s : Beside Registry}
    (tracked : Tracked lists seed s) :
    let lists' := Function.update lists (Spelling.ofText name).letters list
    Ends (Registry.setParents name list) s (fun n t => Tracked lists' seed t ∧
      ∃ affected, n = affected.length ∧
        Invalidates (graph lists' seed) (t.own.keyOf name) seed s.own t.own affected)
      fun _ => False := by
  intro lists'
  obtain ⟨⟨shelved, coherent⟩, rec⟩ := tracked
  refine Ends.bind (shelved.writeParents name list) ?_
  rintro - t ⟨shelved, rem⟩
  -- nothing is forgotten while the list is written
  refine (shelved.invalidates (coherent.of_remembers rem) (rec.of_same rem.2 fun k => ?_) name
    fun y hy => Function.update_of_ne hy ..).imp ?_ fun _ => id
  · rw [rem.profile]
    exact ⟨rfl, rfl⟩
  · rintro n t' ⟨tracked, affected, count, i⟩
    refine ⟨tracked, affected, count, i.once, i.hashed, i.heirs, fun k hk => ?_, fun k hk => ?_⟩
    · exact rem.profile k ▸ i.dropped k hk
    · exact rem.profile k ▸ i.kept k hk

/-! ### What leaves the records alone -/

/-- Remembering other things of a package. -/
theorem Recorded.remembering (rec : Recorded lists seed r) (package : Key) {f : Profile → Profile}
    (same : ∀ p, (f p).parents = p.parents ∧ (f p).children = p.children) :
    Recorded lists seed (r.remembering package f) := by
  refine rec.of_same rfl fun k => ?_
  rw [profile_remembering]
  split
  · exact same _
  · exact ⟨rfl, rfl⟩

theorem Recorded.define (name : String) :
    Keeps (fun s => Recorded lists seed s.own) (Registry.define name) :=
  keeps_define (fun _ _ rec => rec.of_same rfl fun _ => ⟨rfl, rfl⟩) name

theorem Recorded.methodsChanged :
    Keeps (fun s => Recorded lists seed s.own) Registry.methodsChanged :=
  Keeps.changeSelf fun _ rec => rec.of_same rfl fun _ => ⟨rfl, rfl⟩

theorem parents_children_keep (p : Profile) (algorithm : Algorithm) (l : Lineage) :
    (p.keep algorithm l).parents = p.parents ∧ (p.keep algorithm l).children = p.children := by
  cases algorithm <;> exact ⟨rfl, rfl⟩

theorem Recorded.linearizeWithin (algorithm : Algorithm) (levels : Nat) (package : Key) :
    Keeps (fun s => Recorded lists seed s.own)
      (Registry.linearizeWithin algorithm levels package) :=
  keeps_lineages (fun _ k rec => rec.remembering k fun _ => ⟨rfl, rfl⟩)
    (fun _ k rec => rec.remembering k fun _ => ⟨rfl, rfl⟩)
    (fun _ _ k _ rec => rec.remembering k fun p => parents_children_keep p ..)
    (fun r k => Keeps.onHeap (r.parents k)) algorithm levels package

theorem Recorded.linearizeKey (algorithm : Algorithm) (package : Key) :
    Keeps (fun s => Recorded lists seed s.own) (Registry.linearizeKey algorithm package) :=
  Keeps.self.bind fun _ => Recorded.linearizeWithin algorithm _ package

theorem Recorded.isA (name ancestor : String) :
    Keeps (fun s => Recorded lists seed s.own) (Registry.isA name ancestor) :=
  keeps_isA Recorded.linearizeKey name ancestor

theorem Recorded.resolve (package method : String) :
    Keeps (fun s => Recorded lists seed s.own) (Registry.resolve package method) :=
  leads_resolve Recorded.linearizeKey (fun _ => id)
    (fun _ _ _ _ rec => rec.remembering _ fun _ => ⟨rfl, rfl⟩) package method

theorem Recorded.resolveSuper (package method : String) :
    Keeps (fun s => Recorded lists seed s.own) (Registry.resolveSuper package method) :=
  keeps_resolveSuper Recorded.linearizeKey package method

theorem Recorded.defineMethod (package method : String) (code : CellId) :
    Keeps (fun s => Recorded lists seed s.own) (Registry.defineMethod package method code) :=
  leads_defineMethod (fun _ _ rec => rec.of_same rfl fun _ => ⟨rfl, rfl⟩)
    (fun _ rec => rec.of_same rfl fun _ => ⟨rfl, rfl⟩) package method code

theorem Recorded.removeMethod (package method : String) :
    Keeps (fun s => Recorded lists seed s.own) (Registry.removeMethod package method) :=
  leads_removeMethod (fun _ => id) (fun _ rec => rec.of_same rfl fun _ => ⟨rfl, rfl⟩) package method

theorem Recorded.forgetAll :
    Keeps (fun s => Recorded lists seed s.own) Registry.forgetAll :=
  keeps_forgetAll (fun _ k rec => rec.remembering k fun _ => ⟨rfl, rfl⟩)
    fun _ rec => rec.of_same rfl fun _ => ⟨rfl, rfl⟩

/-! ### Steps and runs -/

/-- **A step.**  What is recorded stays right, of the lists after the step. -/
theorem Tracked.perform {s : Beside Registry} (tracked : Tracked lists seed s) (op : Op) :
    Tracked (op.listsAfter lists) seed (after op.perform s) := by
  refine ⟨tracked.1.perform op, ?_⟩
  cases op with
  | define package => exact (Recorded.define package).discard.after tracked.2
  | setParents package list =>
    have set : Leads (Tracked lists seed) (Op.setParents package list).perform
        (fun _ => Tracked (Function.update lists (Spelling.ofText package).letters list) seed)
        fun _ => False := Leads.of_ends fun _ tracked =>
      (tracked.setParents package list).bind fun _ _ q => q.1
    have tracked' : Tracked _ seed (after (Op.setParents package list).perform s) :=
      set.after tracked (fun _ => id) False.elim
    exact tracked'.2
  | parentsChanged package =>
    exact ((Tracked.parentsChanged package).discard.after tracked).2
  | defineMethod package method code => exact (Recorded.defineMethod _ _ code).after tracked.2
  | removeMethod package method => exact (Recorded.removeMethod _ _).discard.after tracked.2
  | linearizeBy algorithm package =>
    exact (keeps_linearizeBy Recorded.linearizeKey algorithm package).discard.after tracked.2
  | isA package ancestor => exact (Recorded.isA _ _).discard.after tracked.2
  | resolve package method => exact (Recorded.resolve _ _).discard.after tracked.2
  | resolveSuper package method => exact (Recorded.resolveSuper _ _).discard.after tracked.2
  | methodsChanged => exact Recorded.methodsChanged.after tracked.2
  | forgetAll => exact Recorded.forgetAll.after tracked.2
  | newCode routine => exact (Keeps.onHeap _).discard.after tracked.2
  | letGo code =>
    exact ((Keeps.onHeap _).discard.bind fun _ => Keeps.changeHeap _).after tracked.2

/-- **A run.** -/
theorem Tracked.run {s : Beside Registry} (tracked : Tracked lists seed s) (ops : List Op) :
    ∃ lists', Tracked lists' seed (run ops s) := by
  induction ops generalizing lists s with
  | nil => exact ⟨lists, tracked⟩
  | cons op ops ih => exact ih (tracked.perform op)

theorem tracked_start (seeds : Array Seed) (supply : Supply) (pool : Nat) (settings : Settings) :
    Tracked (fun _ => []) ((Keyring.ofSeeds seeds supply).pool pool).seed
      (start seeds supply pool settings) :=
  ⟨fit_start seeds supply pool settings, fun _ _ => rfl, fun _ _ _ => nofun⟩

end

/-- **Invalidation is exact.**  After any operations on a new registry, whether they failed or not,
a parent list can be replaced.  The packages that inherit from the package by the parents that are
then read forget all they know, and go up by one generation; there are as many as are counted.  All
other packages keep what they know. -/
theorem setParents_invalidates (seeds : Array Seed) (supply : Supply) (pool : Nat)
    (settings : Settings) (ops : List Op) (name : String) (list : List String) :
    let s := run ops (start seeds supply pool settings)
    Ends (setParents name list) s (fun n t =>
      ∃ (parents : Key → List Key) (affected : List Key),
        (∀ k, t.own.parents k t.heap = .ok (parents k) t.heap) ∧
        Invalidates parents (t.own.keyOf name) t.own.seed s.own t.own affected ∧
        n = affected.length) fun _ => False := by
  intro s
  obtain ⟨lists, tracked⟩ := (tracked_start seeds supply pool settings).run ops
  refine (tracked.setParents name list).imp ?_ fun _ => id
  rintro n t ⟨tracked, affected, count, i⟩
  refine ⟨graph _ _, affected, tracked.1.1.parents, ?_, count⟩
  rw [tracked.1.1.seed]
  exact i

end Registry

end ScriptCore
