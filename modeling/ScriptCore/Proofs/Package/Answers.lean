import ScriptCore.Proofs.Package.Handover
import ScriptCore.Proofs.Package.Invalidation

/-!
# Package — answers that still hold

An answer is right (`IsAnswer`) when it is the first code that the packages of the order have for
the method.  `Fresh` says so of every answer that was given in the present generation of methods:
a change to methods ends the generation, and a changed parent list takes their answers from the
packages whose order may be another.

* `Stocked.search`: looking along the order finds the right answer.
* `Answered.resolve`: an answer that is given is right, whether it was remembered or not.
-/

namespace ScriptCore.Registry
open Beside Key Lineage

/-- The later state has the same cells, stashes and answers. -/
structure Quiet (s t : Beside Registry) : Prop where
  cells : t.heap.cells = s.heap.cells
  stashes : t.own.stashes = s.own.stashes
  settings : t.own.settings = s.own.settings
  generation : t.own.methodGeneration = s.own.methodGeneration
  codes : codesIn t.own.profiles = codesIn s.own.profiles
  distinct : KeyMap.Distinct s.own.profiles → KeyMap.Distinct t.own.profiles
  methods : ∀ k, (t.own.profile k).methods = (s.own.profile k).methods

/-- The answer for a method is the first code that the order of the package leads to. -/
def IsAnswer (lists : Bytes × Bool → List String) (seed : Seed)
    (stock : Bytes × Bool → Bytes × Bool → Option CellId) (algorithm : Algorithm) (package : Key)
    (method : Bytes × Bool) (found : Option Method) : Prop :=
  ∃ order, HasOrder lists seed algorithm package order ∧
    found.map (fun m => (m.code, m.package.letters)) =
      order.findSome? fun q => (stock q.letters method).map (·, q.letters)

/-- No answer is ahead of the methods, and those of their present generation are right. -/
def Fresh (lists : Bytes × Bool → List String) (seed : Seed)
    (stock : Bytes × Bool → Bytes × Bool → Option CellId) (r : Registry) : Prop :=
  ∀ (k method : Key) a, (r.profile k).methods.get? method = some a →
    a.methodGeneration ≤ r.methodGeneration ∧ (a.methodGeneration = r.methodGeneration →
      k.IsHashed seed ∧ IsAnswer lists seed stock r.settings.algorithm k method.letters a.found)

/-- All that is held has its owners, and answers still hold. -/
def Answered (lists : Bytes × Bool → List String) (seed : Seed)
    (stock : Bytes × Bool → Bytes × Bool → Option CellId) (out : List CellId)
    (s : Beside Registry) : Prop :=
  Stocked stock out s ∧ Fresh lists seed stock s.own

section
variable {lists lists' : Bytes × Bool → List String} {seed : Seed} {r r' : Registry}
  {h h' : Heap} {s t u : Beside Registry}
  {stock stock' : Bytes × Bool → Bytes × Bool → Option CellId} {out : List CellId}
  {k package : Key} {f : Profile → Profile} {algorithm : Algorithm}

/-! ### What leaves answers alone -/

theorem Quiet.refl (s : Beside Registry) : Quiet s s :=
  ⟨rfl, rfl, rfl, rfl, rfl, id, fun _ => rfl⟩

theorem Quiet.trans (a : Quiet s t) (b : Quiet t u) : Quiet s u where
  cells := b.cells.trans a.cells
  stashes := b.stashes.trans a.stashes
  settings := b.settings.trans a.settings
  generation := b.generation.trans a.generation
  codes := b.codes.trans a.codes
  distinct d := b.distinct (a.distinct d)
  methods k := (b.methods k).trans (a.methods k)

/-- The heap has changed, but not its cells. -/
theorem Quiet.onHeap (same : h'.cells = h.cells) : Quiet ⟨h, r⟩ ⟨h', r⟩ :=
  ⟨same, rfl, rfl, rfl, rfl, id, fun _ => rfl⟩

theorem codesIn_adjust (m : KeyMap Profile) (k : Key) (same : ∀ p, (f p).codes = p.codes) :
    codesIn (m.adjust k f) = codesIn m := by
  unfold codesIn KeyMap.adjust
  rw [List.map_map, List.flatMap_map, List.flatMap_map]
  refine List.flatMap_congr fun e _ => ?_
  dsimp only [Function.comp]
  split
  · exact same e.2
  · rfl

theorem codesIn_update (m : KeyMap Profile) (k : Key) (same : ∀ p, (f p).codes = p.codes) :
    codesIn (m.update k {} f) = codesIn m := by
  unfold KeyMap.update
  split
  · exact codesIn_adjust m k same
  · unfold codesIn
    rw [List.map_append, List.flatMap_append]
    have blank : (f {}).codes = [] := same {}
    simp [blank]

/-- Something else is remembered of a package than its answers. -/
theorem Quiet.remembering (package : Key) (same : ∀ p, (f p).methods = p.methods) :
    Quiet ⟨h, r⟩ ⟨h, r.remembering package f⟩ where
  cells := rfl
  stashes := rfl
  settings := rfl
  generation := rfl
  codes := codesIn_update r.profiles package fun p => by
    unfold Profile.codes
    rw [same]
  distinct d := KeyMap.distinct_update d package {} f
  methods k := by
    rw [profile_remembering]
    split
    · exact same _
    · rfl

/-- The same of a package that something is remembered of. -/
theorem Quiet.adjusting (package : Key) (same : ∀ p, (f p).methods = p.methods) :
    Quiet ⟨h, r⟩ ⟨h, { r with profiles := r.profiles.adjust package f }⟩ where
  cells := rfl
  stashes := rfl
  settings := rfl
  generation := rfl
  codes := codesIn_adjust r.profiles package fun p => by
    unfold Profile.codes
    rw [same]
  distinct d := KeyMap.distinct_adjust d package f
  methods k := by
    unfold Registry.profile
    dsimp only
    rw [KeyMap.get?_adjust]
    cases KeyMap.get? r.profiles k <;> split
    · rfl
    · rfl
    · exact same _
    · rfl

/-- The same of several packages. -/
theorem Quiet.foldl {step : KeyMap Profile → Key → KeyMap Profile}
    (one : ∀ (r : Registry) (k : Key), Quiet ⟨h, r⟩ ⟨h, { r with profiles := step r.profiles k }⟩)
    (r : Registry) (packages : List Key) :
    Quiet ⟨h, r⟩ ⟨h, { r with profiles := packages.foldl step r.profiles }⟩ := by
  induction packages generalizing r with
  | nil => exact Quiet.refl _
  | cons k packages ih => exact (one r k).trans (ih { r with profiles := step r.profiles k })

/-- **Noting parents**, and recording them where children are. -/
theorem Quiet.noting (r : Registry) (package : Key) (parents : List Key) :
    Quiet ⟨h, r⟩ ⟨h, r.noting package parents⟩ := by
  have lost : Quiet ⟨h, r⟩ ⟨h, r.losing package parents⟩ :=
    Quiet.foldl (fun _ k => Quiet.adjusting (f := withoutChild package) k fun _ => rfl) r
      (r.lostParents package parents)
  have recorded : Quiet ⟨h, r⟩ ⟨h, r.recording package parents⟩ :=
    lost.trans (Quiet.foldl (fun _ k => Quiet.remembering (f := withChild package) k fun _ => rfl)
      (r.losing package parents) parents)
  have before : Quiet ⟨h, r⟩ ⟨h, if r.settings.policy = .incremental then
      r.recording package parents else r⟩ := by
    split
    · exact recorded
    · exact Quiet.refl _
  exact before.trans (Quiet.remembering package fun _ => rfl)

theorem Quiet.same_stock (q : Quiet s t) : t.own.stock t.heap = s.own.stock s.heap :=
  stock_congr q.stashes fun i _ => table?_of_cells q.cells i

/-- The code of an answer that is remembered is alive. -/
theorem Stocked.alive_of_answer (b : Stocked stock out s) (k method : Key) {a : Method.Answer}
    (ha : (s.own.profile k).methods.get? method = some a) :
    ∀ f ∈ a.found, ∃ c, s.heap.cell? f.code = some c := by
  intro f hf
  refine b.owned.alive (List.mem_append_right _ (List.mem_append_right _ ?_))
  obtain ⟨e, he, rfl⟩ := Option.map_eq_some_iff.mp ha
  unfold Registry.profile at he
  cases found : KeyMap.get? s.own.profiles k with
  | none =>
    rw [found] at he
    cases he
  | some p =>
    rw [found] at he
    obtain ⟨d, hd, rfl⟩ := Option.map_eq_some_iff.mp found
    refine List.mem_flatMap.mpr ⟨d.2, List.mem_map_of_mem (List.mem_of_find?_eq_some hd), ?_⟩
    exact List.mem_filterMap.mpr ⟨e, List.mem_of_find?_eq_some he, Option.map_eq_some_iff.mpr
      ⟨f, hf, rfl⟩⟩

theorem Stocked.quiet (b : Stocked stock out s) (q : Quiet s t) : Stocked stock out t where
  distinct := ⟨q.distinct b.distinct.profiles, fun k => q.methods k ▸ b.distinct.methods k⟩
  owned := by
    have same : t.own.handles = s.own.handles := by
      unfold handles
      rw [q.stashes, q.codes]
    rw [same]
    exact b.owned.of_cells q.cells
  formed := b.formed.of_cells q.cells
  stock := q.same_stock.trans b.stock

theorem Fresh.quiet (fresh : Fresh lists seed stock s.own) (q : Quiet s t) :
    Fresh lists seed stock t.own := by
  intro k method a ha
  rw [q.methods] at ha
  rw [q.generation, q.settings]
  exact fresh k method a ha

theorem Answered.quiet (a : Answered lists seed stock out s) (q : Quiet s t) :
    Answered lists seed stock out t := ⟨a.1.quiet q, a.2.quiet q⟩

/-- Where the methods have a new generation, no answer is of it. -/
theorem Fresh.renew (fresh : Fresh lists seed stock r)
    (profiles : r'.profiles = r.profiles) (newer : r.methodGeneration < r'.methodGeneration) :
    Fresh lists' seed stock' r' := by
  intro k method a ha
  have same : r'.profile k = r.profile k := by
    unfold Registry.profile
    rw [profiles]
  obtain ⟨older, -⟩ := fresh k method a (same ▸ ha)
  have := Nat.lt_of_le_of_lt older newer
  exact ⟨Nat.le_of_lt this, fun e => absurd e (Nat.ne_of_lt this)⟩

/-! ### Computing lineages -/

theorem methods_keep (p : Profile) (algorithm : Algorithm) (l : Lineage) :
    (p.keep algorithm l).methods = p.methods := by
  cases algorithm <;> rfl

/-- **Computing a lineage** leaves answers alone. -/
theorem Fit.quiet_linearizeWithin (algorithm : Algorithm) (levels : Nat)
    (hashed : package.IsHashed seed) (fit : Fit lists seed s) :
    Ends (Registry.linearizeWithin algorithm levels package) s (fun _ => Quiet s) (Quiet s) := by
  induction levels generalizing package s with
  | zero => exact Quiet.refl s
  | succ levels ih =>
    refine yields_linearizeWithin (F := fun _ => Quiet s) (fun _ _ => Quiet.refl s)
      (fun _ => Quiet.refl s) fun _ _ => ?_
    have quiet : Quiet s (mark package s) := Quiet.remembering package fun _ => rfl
    have unmark {t : Beside Registry} (quiet : Quiet s t) : Quiet s (unmark package t) :=
      quiet.trans (Quiet.remembering package fun _ => rfl)
    -- the parents are quiet one after the other
    have above (q : Key) (hq : q ∈ graph lists seed package) :
        Leads (fun u => Fit lists seed u ∧ Quiet s u) (Registry.linearizeWithin algorithm levels q)
          (fun _ u => (Fit lists seed u ∧ Quiet s u) ∧ True)
          fun u => Fit lists seed u ∧ Quiet s u := by
      intro u ⟨fit, quiet⟩
      have hashed := isHashed_of_mem_graph hq
      have both := ((Fit.linearizeWithin algorithm levels hashed).ends fit).and (ih hashed fit)
      exact both.imp (fun _ _ q => ⟨⟨q.1.1, quiet.trans q.2⟩, trivial⟩)
        fun _ q => ⟨q.1, quiet.trans q.2⟩
    refine fit.marked.1.yields_mergeParents ?_
    refine (Yields.mapM above ⟨fit.marked, quiet⟩).imp ?_ fun _ _ q => unmark q.2
    rintro lineages u ⟨⟨-, quiet⟩, -⟩
    split
    · have drawn : Quiet s (draw u) := quiet.trans (Quiet.onHeap rfl)
      exact drawn.trans (Quiet.remembering package fun p => methods_keep p algorithm _)
    · exact unmark quiet

theorem Fit.quiet_linearizeKey (algorithm : Algorithm) (hashed : package.IsHashed seed)
    (fit : Fit lists seed s) :
    Ends (Registry.linearizeKey algorithm package) s (fun _ => Quiet s) (Quiet s) :=
  Ends.self (Fit.quiet_linearizeWithin algorithm _ hashed fit)

theorem Fit.quiet_isA (name ancestor : String) (fit : Fit lists seed s) :
    Ends (Registry.isA name ancestor) s (fun _ => Quiet s) (Quiet s) := by
  unfold Registry.isA
  refine Ends.self ?_
  dsimp only
  split
  · exact Quiet.refl s
  split
  · exact Ends.bind (Ends.bind (Fit.quiet_linearizeKey _ (fit.1.keyOf name).1 fit)
      fun _ _ quiet => Ends.of_ok rfl quiet) fun _ _ quiet => quiet
  · exact Quiet.refl s

/-! ### Looking for a method -/

/-- The name a package is interned under is spelt like it. -/
theorem Shelved.letters_key? (s : Shelved lists seed r h) {name : Spelling} {k : Key}
    (hk : r.key? name = some k) : k.letters = name.letters := by
  obtain ⟨i, found, hk⟩ := Option.bind_eq_some_iff.mp hk
  obtain ⟨-, letters⟩ := (Table.locate_eq_some_iff s.housed.sound.toLinked).mp found
  obtain ⟨e, he, letters⟩ := Table.lettersAt_eq_some_iff.mp letters
  rw [he] at hk
  exact Option.some.inj hk ▸ letters

/-- A package that is not defined has no stash. -/
theorem Shelved.stash?_undefined (s : Shelved lists seed r h) {name : Spelling}
    (undefined : ¬ r.isDefined name = true) : r.stash? name = none := by
  obtain ⟨home, stashes, shows, -⟩ := s.shelf
  rw [s.stash?_eq shows]
  refine Finmap.lookup_eq_none.mpr fun there => undefined ?_
  exact (shows.contains s.housed.sound.toLinked name).mpr there

/-- **Looking for a method** finds the first code there is. -/
theorem Stocked.search (b : Stocked stock out ⟨h, r⟩) (s : Shelved lists seed r h) (origin : Key)
    (method : String) (packages : List (Key × Nat)) :
    Ends (r.search origin method packages) h (fun found h' => h'.cells = h.cells ∧
      found.map (fun m => (m.code, m.package.letters)) = packages.findSome? (fun e =>
        (stock e.1.letters (Spelling.ofText method).letters).map (·, e.1.letters)) ∧
      ∀ f ∈ found, ∃ c, h'.cell? f.code = some c) fun _ => False := by
  induction packages generalizing h with
  | nil => exact ⟨rfl, rfl, nofun⟩
  | cons e packages ih =>
    obtain ⟨package, place⟩ := e
    obtain ⟨own, alive⟩ := b.ownMethod s package method
    unfold Registry.search
    rw [List.findSome?_cons]
    dsimp only
    split
    · refine Ends.step own ?_
      cases found : stock package.letters (Spelling.ofText method).letters with
      | none => exact ih b s
      | some code =>
        have letters : ((r.key? package).getD package).letters = package.letters := by
          cases hk : r.key? package with
          | none => rfl
          | some k => exact s.letters_key? hk
        refine ⟨rfl, ?_, fun f hf => ?_⟩
        · rw [Option.map_some, Option.map_some]
          dsimp only
          rw [letters]
        · cases hf
          exact alive code (by rw [found]; rfl)
    · -- a package that is not defined is passed over, with an advisory or without
      rename_i undefined
      have absent : stock package.letters (Spelling.ofText method).letters = none := by
        rw [← b.stock]
        exact stock_absent (s.stash?_undefined undefined) _
      rw [absent]
      split
      · have reported : Heap.report (.site none) (.missingPackage package.text origin.text) h =
            .ok () { h with reports := h.reports.push (Advisory.atSite _ none) } := rfl
        exact Ends.step reported (ih (b.of_cells rfl) ((s.report _).result reported).1)
      · exact ih b s

/-! ### Giving an answer -/

/-- Keys that are the same have the same answers. -/
theorem IsAnswer.congr {x : Bytes × Bool} {found : Option Method} (same : package.same k = true)
    (right : IsAnswer lists seed stock algorithm package x found) :
    IsAnswer lists seed stock algorithm k x found := by
  obtain ⟨order, is, first⟩ := right
  refine ⟨order, ?_, first⟩
  unfold HasOrder at is ⊢
  rwa [← same_iff.mp same]

/-- A right answer is remembered. -/
theorem Fresh.rememberAnswer (fresh : Fresh lists seed stock r) {method : Key}
    {found : Option Method} (hashed : package.IsHashed seed)
    (right : IsAnswer lists seed stock r.settings.algorithm package method.letters found)
    (generation : Nat) :
    Fresh lists seed stock (r.remembering package fun p =>
      { p with methods := p.methods.put method ⟨generation, r.methodGeneration, found⟩ }) := by
  intro k name a ha
  rw [profile_remembering] at ha
  split at ha
  · rename_i same
    dsimp only at ha
    rw [KeyMap.get?_put] at ha
    split at ha
    · rename_i named
      cases ha
      refine ⟨Nat.le_refl _, fun _ => ⟨hashed.of_same same, ?_⟩⟩
      rw [← letters_eq_of_same named]
      exact right.congr same
    · exact fresh k name a ha
  · exact fresh k name a ha

/-- An answer that is remembered and still holds is right. -/
theorem Fresh.answer? (fresh : Fresh lists seed stock r) {method : Key} {found : Option Method}
    (remembered : r.answer? package method = some found) :
    IsAnswer lists seed stock r.settings.algorithm package method.letters found ∧
      ∃ a, (r.profile package).methods.get? method = some a ∧ a.found = found := by
  obtain ⟨a, ha, holds⟩ := Option.bind_eq_some_iff.mp remembered
  split at holds
  · rename_i current
    cases holds
    exact ⟨((fresh package method a ha).2 current.2).2, a, ha, rfl⟩
  · cases holds

/-- What is computed before a method is looked for. -/
theorem Answered.linearizeKey (a : Answered lists seed stock out s) (fit : Fit lists seed s)
    (algorithm : Algorithm) (hashed : package.IsHashed seed) :
    Ends (Registry.linearizeKey algorithm package) s (fun l t => Fit lists seed t ∧ Quiet s t ∧
      HasOrder lists seed algorithm package l.order) fun t => Answered lists seed stock out t ∧
        ∃ e, Registry.linearizeKey algorithm package s = .error e t := by
  have computed := ((Fit.linearizeKey algorithm hashed).ends fit).and
    ((Fit.quiet_linearizeKey algorithm hashed fit).and Ends.error)
  exact computed.imp (fun _ _ q => ⟨q.1.1, q.2.1, q.1.2⟩) fun _ q => ⟨a.quiet q.2.1, q.2.2⟩

/-- **Giving an answer**, remembered or not.  It fails only where the lineage cannot be given. -/
theorem Answered.resolve (a : Answered lists seed stock out s) (fit : Fit lists seed s)
    (package method : String) :
    Ends (Registry.resolve package method) s (fun found t => Answered lists seed stock out t ∧
      (∀ f ∈ found, ∃ c, t.heap.cell? f.code = some c) ∧
      IsAnswer lists seed stock s.own.settings.algorithm (s.own.keyOf package)
        (Spelling.ofText method).letters found) fun t => Answered lists seed stock out t ∧
          ∃ e, Registry.linearizeKey s.own.settings.algorithm (s.own.keyOf package) s =
            .error e t := by
  have hashed := (fit.1.keyOf package).1
  unfold Registry.resolve
  refine Ends.self ?_
  dsimp only
  split
  · rename_i found remembered
    obtain ⟨right, answer, ha, rfl⟩ := a.2.answer? remembered
    exact ⟨a, a.1.alive_of_answer _ _ ha, right⟩
  · refine Ends.bind (a.linearizeKey fit s.own.settings.algorithm hashed) ?_
    rintro lineage ⟨h, r⟩ ⟨fit, quiet, is⟩
    refine Ends.self ?_
    refine Ends.bind (((a.1.quiet quiet).search fit.1 _ method _).liftSure) ?_
    rintro found ⟨h', r⟩ ⟨rfl, same, first, alive⟩
    dsimp only at same alive
    have quiet' : Quiet s ⟨h', r⟩ := quiet.trans (Quiet.onHeap same)
    have right : IsAnswer lists seed stock s.own.settings.algorithm (s.own.keyOf package)
        (Spelling.ofText method).letters found := by
      refine ⟨lineage.order, is, first.trans ?_⟩
      conv_rhs => rw [← List.zipIdx_map_fst 0 lineage.order, List.findSome?_map]
      rfl
    refine Ends.bind ((a.1.quiet quiet').rememberAnswer _ _ alive).sure ?_
    rintro - ⟨h'', r'⟩ ⟨b, generation, rfl⟩
    refine ⟨⟨b, (a.2.quiet quiet').rememberAnswer hashed ?_ generation⟩, ?_, right⟩
    · rw [quiet'.settings]
      exact right
    · -- the answer is remembered now
      refine b.alive_of_answer (s.own.keyOf package) (.probe (.ofText method) s.own.seed)
        (a := ⟨generation, r.methodGeneration, found⟩) ?_
      rw [profile_remembering, if_pos (same_refl _)]
      exact (KeyMap.get?_put ..).trans (if_pos (same_refl _))

theorem Answered.resolveSuper (a : Answered lists seed stock out s) (fit : Fit lists seed s)
    (package method : String) :
    Ends (Registry.resolveSuper package method) s (fun found t =>
      Answered lists seed stock out t ∧ ∀ f ∈ found, ∃ c, t.heap.cell? f.code = some c)
      (Answered lists seed stock out) := by
  unfold Registry.resolveSuper
  refine Ends.self ?_
  have computed := a.linearizeKey fit s.own.settings.algorithm (fit.1.keyOf package).1
  refine Ends.bind (computed.imp (fun _ _ => id) fun _ => And.left) ?_
  rintro lineage ⟨h, r⟩ ⟨fit, quiet, -⟩
  refine Ends.self ?_
  refine ((a.1.quiet quiet).search fit.1 _ method _).liftSure.imp ?_ fun _ => id
  rintro found ⟨h', r⟩ ⟨rfl, same, -, alive⟩
  exact ⟨a.quiet (quiet.trans (Quiet.onHeap same)), alive⟩

/-! ### Forgetting -/

theorem Fresh.forget (package : Key) :
    Keeps (fun s => Fresh lists seed stock s.own) (Registry.forget package) := by
  refine keeps_forget package fun r fresh k method a ha => ?_
  rw [profile_remembering] at ha
  split at ha
  · cases ha
  · exact fresh k method a ha

theorem Answered.forget (package : Key) :
    Keeps (Answered lists seed stock out) (Registry.forget package) :=
  Keeps.of_ends fun _ a => ((Stocked.forget package).ends a.1).and ((Fresh.forget package).ends a.2)

/-- **Forgetting everything** is a new generation of methods. -/
theorem Answered.forgetAll :
    Keeps (Answered lists seed stock out) Registry.forgetAll := by
  unfold Registry.forgetAll
  refine Keeps.self.bind fun r => Keeps.bind (Keeps.forM ?_ _) fun _ => ?_
  · rintro ⟨k, p⟩
    exact Answered.forget k
  · exact fun s a => ⟨a.1.onSelf rfl rfl, a.2.renew rfl (Nat.lt_succ_self _)⟩

/-! ### Changed parents -/

/-- A package that does not inherit from the changed one has the order it had. -/
theorem HasOrder.of_not_inherits {order : List Key} (hp : package.IsHashed seed)
    (off : ∀ y, y ≠ package.letters → lists' y = lists y) (hk : k.IsHashed seed)
    (out : ¬ Inherits (graph lists' seed) package k)
    (is : HasOrder lists seed algorithm k order) : HasOrder lists' seed algorithm k order := by
  have plain : ¬ Inherits (graph lists' seed) package k.plain := fun up =>
    out (up.congr (same_iff.mpr (plain_plain k)))
  refine IsOrder.congr (S := fun p => p.IsHashed seed ∧
    ¬ Inherits (graph lists' seed) package p) ?_ ⟨hk, plain⟩ is
  rintro p ⟨hashed, out⟩
  have other : p.letters ≠ package.letters := fun letters =>
    out (.self (same_iff.mpr (hashed.plain_eq hp letters)))
  have same : graph lists' seed p = graph lists seed p := by
    unfold graph
    rw [off _ other]
  exact ⟨same.symm, fun q hq => ⟨isHashed_of_mem_graph hq, fun up => out (.parent (same ▸ hq) up)⟩⟩

/-- **A changed parent list** leaves answers to the packages whose order is what it was. -/
theorem Fresh.invalidates {affected : List Key} (fresh : Fresh lists seed stock r)
    (hp : package.IsHashed seed) (off : ∀ y, y ≠ package.letters → lists' y = lists y)
    (i : Invalidates (graph lists' seed) package seed r r' affected)
    (settings : r'.settings = r.settings) (generation : r'.methodGeneration = r.methodGeneration) :
    Fresh lists' seed stock r' := by
  intro k method a ha
  rw [settings, generation]
  cases inside : k.isIn affected with
  | true =>
    rw [(i.dropped k inside).methods] at ha
    cases ha
  | false =>
    rw [(i.kept k inside).methods] at ha
    obtain ⟨older, right⟩ := fresh k method a ha
    refine ⟨older, fun current => ?_⟩
    obtain ⟨hashed, order, is, first⟩ := right current
    have out : ¬ Inherits (graph lists' seed) package k := fun up => by
      rw [(i.heirs k hashed).mpr up] at inside
      cases inside
    exact ⟨hashed, order, is.of_not_inherits hp off hashed out, first⟩

/-- **A changed parent list** makes packages forget, and changes nothing else that is held. -/
theorem Stocked.parentsChanged (b : Stocked stock out ⟨h, r⟩) (s : Shelved lists seed r h)
    (name : String) :
    Ends (Registry.parentsChanged name) ⟨h, r⟩ (fun _ t => Stocked stock out t ∧
      t.own.settings = r.settings ∧ t.own.methodGeneration = r.methodGeneration) fun _ => True := by
  refine Ends.of_eq (s.parentsChanged_eq name) ?_
  have quiet : Quiet ⟨h, r⟩ ⟨h, r.noting (r.keyOf name) (graph lists seed (r.keyOf name))⟩ :=
    Quiet.noting ..
  have kept : Keeps (fun s => Stocked stock out s ∧ s.own.settings = r.settings ∧
      s.own.methodGeneration = r.methodGeneration) ((affected lists seed
        (r.noting (r.keyOf name) (graph lists seed (r.keyOf name))) (r.keyOf name)).forM
          Registry.forget) := by
    refine Keeps.forM (fun k => Keeps.of_ends fun s q => ?_) _
    have same : Keeps (fun s : Beside Registry => s.own.settings = r.settings ∧
        s.own.methodGeneration = r.methodGeneration) (Registry.forget k) :=
      keeps_forget (P := fun u => u.settings = r.settings ∧
        u.methodGeneration = r.methodGeneration) k fun _ => id
    exact (((Stocked.forget k).ends q.1).and (same.ends q.2)).imp (fun _ _ => id) fun _ => id
  exact ((kept.ends ⟨b.quiet quiet, quiet.settings, quiet.generation⟩).imp (fun _ _ => id)
    fun _ _ => trivial).bind fun _ _ q => Ends.of_ok rfl q

/-- **A changed parent list** leaves right answers. -/
theorem Answered.parentsChanged (name : String) {s : Beside Registry}
    (tracked : Tracked lists seed s) (a : Answered lists seed stock out s) :
    Ends (Registry.parentsChanged name) s (fun _ t => Answered lists seed stock out t)
      fun _ => False := by
  obtain ⟨⟨shelved, coherent⟩, rec⟩ := tracked
  have changed := (shelved.invalidates coherent rec name fun _ _ => rfl).and
    (a.1.parentsChanged shelved name)
  refine changed.imp ?_ fun _ => And.left
  rintro n t ⟨⟨⟨⟨shelved', -⟩, -⟩, affected, -, i⟩, b, settings, generation⟩
  exact ⟨b, a.2.invalidates (shelved'.keyOf name).1 (fun _ _ => rfl) i settings generation⟩

/-- **Replacing a parent list** leaves right answers, of the lists there are then. -/
theorem Answered.setParents (name : String) (list : List String) {s : Beside Registry}
    (tracked : Tracked lists seed s) (a : Answered lists seed stock out s) :
    Ends (Registry.setParents name list) s (fun _ t => Answered
      (Function.update lists (Spelling.ofText name).letters list) seed stock out t)
      fun _ => False := by
  have held : Ends (Registry.setParents name list) s (fun _ t => Stocked stock out t ∧
      t.own.settings = s.own.settings ∧ t.own.methodGeneration = s.own.methodGeneration)
      fun _ => True := by
    have written := (tracked.1.1.writeParents name list).and
      (a.1.writeParents tracked.1.1 name list)
    refine Ends.bind (written.imp (fun _ _ => id) fun _ q => q.1.elim) ?_
    rintro - ⟨h, r⟩ ⟨⟨shelved, -⟩, ⟨stashes, rfl⟩, b⟩
    exact b.parentsChanged shelved name
  refine ((tracked.setParents name list).and held).imp ?_ fun _ => And.left
  rintro n t ⟨⟨⟨⟨shelved', -⟩, -⟩, affected, -, i⟩, b, settings, generation⟩
  obtain ⟨hashed, letters⟩ := shelved'.keyOf name
  refine ⟨b, a.2.invalidates hashed (fun y hy => ?_) i settings generation⟩
  exact Function.update_of_ne (letters ▸ hy) ..

end

end ScriptCore.Registry
