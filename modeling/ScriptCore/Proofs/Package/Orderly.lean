import ScriptCore.Proofs.Package.Defining
import ScriptCore.Proofs.Package.Members

/-!
# Package — what is remembered stays in order

While a lineage is computed the packages it goes through are marked, and what was computed on the
way stays when the computation fails.  A profile is *orderly* when no mark is left, it is cached
exactly when it has a lineage, and the ancestors it names are those of its lineages.

* `keeps_linearizeWithin`: computing a lineage only adds to profiles (`Profile.Grows`), whatever
  there is on the heap, and also when it fails; marks are taken back.
* `run_orderly`: so all profiles are orderly after any operations, and one that fails has only
  added to them.  As long as nothing but lists of names was put in the place of parent lists, it
  has not even added to the ancestors of a package that had some.
* `failed_adds_ancestor`: code in the place of a parent list makes lineages that are remembered
  wrong, and then a computation that fails adds an ancestor.
-/

namespace ScriptCore

namespace Profile
open Key Lineage

/-- The ancestors that are named are those of the lineages.  A profile that is not being computed
is cached exactly when it has a lineage. -/
structure Sane (p : Profile) : Prop where
  isSome : p.ancestors.isSome = p.hasLineage
  isIn_iff : ∀ as ∈ p.ancestors, ∀ k : Key, k.isIn as = true ↔
    ∃ algorithm l, p.lineage? algorithm = some l ∧ k.isIn l.order = true
  cached : p.progress ≠ .computing → (p.progress = .cached ↔ p.hasLineage = true)

/-- No lineage is being computed; the profile is cached exactly when it has one, and then it names
exactly the packages of its lineages. -/
structure Orderly (p : Profile) : Prop extends Sane p where
  settled : p.progress ≠ .computing

/-- A later profile that has what the earlier had, and perhaps more lineages and ancestors.  It is
marked as being computed if the earlier was, and then it has no more lineages. -/
structure Grows (p q : Profile) : Prop where
  lineage : ∀ algorithm l, p.lineage? algorithm = some l → q.lineage? algorithm = some l
  ancestors : ∀ as ∈ p.ancestors, ∃ more, q.ancestors = some (as ++ more) ∧
    ∀ k ∈ more, ¬ k.isIn as = true
  methods : q.methods = p.methods
  generation : q.generation = p.generation
  marked : p.progress = .computing →
    q.progress = .computing ∧ ∀ algorithm, q.lineage? algorithm = p.lineage? algorithm
  settled : q.progress = .computing → p.progress = .computing

section
variable {p q p' : Profile} {algorithm : Algorithm} {l : Lineage}

theorem Grows.of_same (lineage : ∀ algorithm, q.lineage? algorithm = p.lineage? algorithm)
    (ancestors : q.ancestors = p.ancestors) (methods : q.methods = p.methods)
    (generation : q.generation = p.generation) (progress : q.progress = p.progress) :
    p.Grows q where
  lineage a l hl := (lineage a).trans hl
  ancestors as has := ⟨[], by rw [ancestors, List.append_nil]; exact has, nofun⟩
  methods := methods
  generation := generation
  marked busy := ⟨progress.trans busy, lineage⟩
  settled busy := progress.symm.trans busy

theorem Grows.refl (p : Profile) : p.Grows p := .of_same (fun _ => rfl) rfl rfl rfl rfl

theorem Grows.trans (a : p.Grows q) (b : q.Grows p') : p.Grows p' where
  lineage algorithm l hl := b.lineage algorithm l (a.lineage algorithm l hl)
  ancestors as has := by
    obtain ⟨more, first, new⟩ := a.ancestors as has
    obtain ⟨rest, second, new'⟩ := b.ancestors _ first
    refine ⟨more ++ rest, by rw [second, List.append_assoc], fun k hk => ?_⟩
    rcases List.mem_append.mp hk with hk | hk
    · exact new k hk
    · exact fun inside => new' k hk (isIn_append.mpr (.inl inside))
  methods := b.methods.trans a.methods
  generation := b.generation.trans a.generation
  marked busy := by
    obtain ⟨busy', same⟩ := a.marked busy
    obtain ⟨busy'', same'⟩ := b.marked busy'
    exact ⟨busy'', fun algorithm => (same' algorithm).trans (same algorithm)⟩
  settled busy := a.settled (b.settled busy)

theorem Grows.of_kept (kept : p.Kept q) : p.Grows q := by
  refine .of_same (fun algorithm => ?_) kept.ancestors kept.methods kept.generation kept.progress
  cases algorithm with
  | depthFirst => exact kept.depthFirst
  | c3 => exact kept.c3

theorem hasLineage_iff : p.hasLineage = true ↔ ∃ algorithm l, p.lineage? algorithm = some l := by
  rw [hasLineage, Bool.or_eq_true, Option.isSome_iff_exists, Option.isSome_iff_exists]
  constructor
  · rintro (⟨l, hl⟩ | ⟨l, hl⟩)
    · exact ⟨.depthFirst, l, hl⟩
    · exact ⟨.c3, l, hl⟩
  · rintro ⟨algorithm, l, hl⟩
    cases algorithm with
    | depthFirst => exact .inl ⟨l, hl⟩
    | c3 => exact .inr ⟨l, hl⟩

/-- Sanity is told from lineages, ancestors and progress. -/
theorem Sane.of_kept (sane : p.Sane) (kept : p.Kept q) : q.Sane := by
  have lineage : q.lineage? = p.lineage? := by
    funext algorithm
    cases algorithm with
    | depthFirst => exact kept.depthFirst
    | c3 => exact kept.c3
  have has : q.hasLineage = p.hasLineage := by rw [hasLineage, kept.depthFirst, kept.c3]; rfl
  refine ⟨?_, ?_, ?_⟩
  · rw [kept.ancestors, has]
    exact sane.isSome
  · rw [kept.ancestors, lineage]
    exact sane.isIn_iff
  · rw [kept.progress, has]
    exact sane.cached

/-! ### Marks -/

theorem Sane.marked (sane : p.Sane) : p.marked.Sane :=
  ⟨sane.isSome, sane.isIn_iff, fun free => absurd rfl free⟩

/-- The mark is taken back. -/
theorem Sane.settled (sane : p.Sane) : p.settled.Sane := by
  refine ⟨sane.isSome, sane.isIn_iff, fun _ => ?_⟩
  show (if p.hasLineage then Progress.cached else .uncached) = .cached ↔ p.hasLineage = true
  split <;> simp_all

theorem settled_ne_computing (p : Profile) : p.settled.progress ≠ .computing := by
  show (if p.hasLineage then Progress.cached else .uncached) ≠ .computing
  split <;> exact nofun

/-! ### Keeping a lineage -/

theorem lineage?_keep_eq (p : Profile) (algorithm algorithm' : Algorithm) (l : Lineage) :
    (p.keep algorithm l).lineage? algorithm' =
      if algorithm' = algorithm then some l else p.lineage? algorithm' := by
  cases algorithm <;> cases algorithm' <;> rfl

theorem ancestors_keep (p : Profile) (algorithm : Algorithm) (l : Lineage) :
    (p.keep algorithm l).ancestors =
      some (p.ancestors.getD [] ++ firstsAfter (p.ancestors.getD []) l.order) := by
  cases algorithm <;> rfl

theorem hasLineage_keep (p : Profile) (algorithm : Algorithm) (l : Lineage) :
    (p.keep algorithm l).hasLineage = true :=
  hasLineage_iff.mpr ⟨algorithm, l, by rw [lineage?_keep_eq, if_pos rfl]⟩

/-- The ancestors that are named, or none. -/
theorem Sane.isIn_known (sane : p.Sane) (k : Key) : k.isIn (p.ancestors.getD []) = true ↔
    ∃ algorithm l, p.lineage? algorithm = some l ∧ k.isIn l.order = true := by
  cases known : p.ancestors with
  | some as => exact sane.isIn_iff as known k
  | none =>
    refine iff_of_false (by simp [isIn_nil]) ?_
    rintro ⟨algorithm, l, hl, -⟩
    have has := hasLineage_iff.mpr ⟨algorithm, l, hl⟩
    rw [← sane.isSome, known] at has
    cases has

/-- **A lineage that is kept** adds its packages to the ancestors. -/
theorem Sane.keep (sane : p.Sane) (new : p.lineage? algorithm = none) :
    (p.keep algorithm l).Sane := by
  refine ⟨?_, ?_, ?_⟩
  · rw [ancestors_keep, hasLineage_keep]
    rfl
  · rintro as has k
    rw [ancestors_keep, Option.mem_some_iff] at has
    rw [← has, isIn_append, isIn_firstsAfter, sane.isIn_known]
    constructor
    · rintro (⟨algorithm', l', hl, inside⟩ | ⟨inside, -⟩)
      · refine ⟨algorithm', l', ?_, inside⟩
        rwa [lineage?_keep_eq, if_neg]
        rintro rfl
        rw [new] at hl
        cases hl
      · exact ⟨algorithm, l, by rw [lineage?_keep_eq, if_pos rfl], inside⟩
    · rintro ⟨algorithm', l', hl, inside⟩
      rw [lineage?_keep_eq] at hl
      split at hl
      · obtain rfl := Option.some.inj hl
        exact or_iff_not_imp_left.mpr fun missing => ⟨inside, missing⟩
      · exact .inl ⟨algorithm', l', hl, inside⟩
  · rw [Registry.progress_keep, hasLineage_keep]
    exact fun _ => iff_of_true rfl rfl

/-- A profile that was marked, and then keeps a lineage it had not, has grown. -/
theorem Grows.keep (grows : p.marked.Grows q) (free : p.progress ≠ .computing)
    (new : p.lineage? algorithm = none) : p.Grows (q.keep algorithm l) := by
  have cached : (q.keep algorithm l).progress = .cached := Registry.progress_keep ..
  refine ⟨fun algorithm' l' hl => ?_, fun as has => ?_, ?_, ?_, fun busy => absurd busy free, ?_⟩
  · rw [lineage?_keep_eq, if_neg]
    · exact grows.lineage algorithm' l' hl
    · rintro rfl
      rw [new] at hl
      cases hl
  · obtain ⟨more, known, apart⟩ := grows.ancestors as has
    refine ⟨more ++ firstsAfter (as ++ more) l.order, ?_, fun k hk => ?_⟩
    · rw [ancestors_keep, known, Option.getD_some, List.append_assoc]
    · rcases List.mem_append.mp hk with hk | hk
      · exact apart k hk
      · intro inside
        exact (isIn_firstsAfter.mp (isIn_of_mem hk)).2 (isIn_append.mpr (.inl inside))
  · rw [← show p.marked.methods = p.methods from rfl, ← grows.methods]
    cases algorithm <;> rfl
  · rw [← show p.marked.generation = p.generation from rfl, ← grows.generation]
    cases algorithm <;> rfl
  · rw [cached]
    exact nofun

/-- A profile that was marked and is settled has grown. -/
theorem Grows.settle (grows : p.marked.Grows q) (free : p.progress ≠ .computing) :
    p.Grows q.settled := by
  refine ⟨grows.lineage, grows.ancestors, grows.methods, grows.generation, ?_, ?_⟩
  · exact fun busy => absurd busy free
  · exact fun busy => absurd busy (settled_ne_computing q)

/-- A profile that has forgotten is orderly. -/
theorem orderly_forgotten (p : Profile) : p.forgotten.Orderly where
  isSome := rfl
  isIn_iff := nofun
  cached _ := by simp [Profile.forgotten, hasLineage]
  settled := nofun

end

end Profile

namespace Registry
open Beside Key Lineage

/-- Every profile is orderly. -/
def Orderly (r : Registry) : Prop := ∀ k, (r.profile k).Orderly

/-- A later registry whose profiles have grown, while no method has changed. -/
structure Grown (r r' : Registry) : Prop where
  profile : ∀ k, (r.profile k).Grows (r'.profile k)
  methods : r'.methodGeneration = r.methodGeneration

/-- A registry that has grown, with sane profiles. -/
structure Advances (r r' : Registry) : Prop extends Grown r r' where
  sane : ∀ k, (r'.profile k).Sane

section
variable {r r' r'' r₀ : Registry} {s : Beside Registry} {package : Key} {f : Profile → Profile}

/-! ### Growing -/

theorem Grown.refl (r : Registry) : r.Grown r := ⟨fun _ => .refl _, rfl⟩

theorem Grown.trans (a : r.Grown r') (b : r'.Grown r'') : r.Grown r'' :=
  ⟨fun k => (a.profile k).trans (b.profile k), b.methods.trans a.methods⟩

theorem Advances.refl (sane : ∀ k, (r.profile k).Sane) : r.Advances r := ⟨.refl r, sane⟩

theorem Advances.trans (a : r.Advances r') (b : r'.Advances r'') : r.Advances r'' :=
  ⟨a.toGrown.trans b.toGrown, b.sane⟩

/-- What has grown from an orderly registry is orderly. -/
theorem Advances.orderly (a : r.Advances r') (o : r.Orderly) : r'.Orderly := fun k =>
  ⟨a.sane k, fun busy => (o k).settled ((a.profile k).settled busy)⟩

/-- What is true of each profile is true of those that are remembered anew. -/
theorem forall_profile_remembering {R : Profile → Prop} (sane : ∀ k, R (r.profile k))
    (new : R (f (r.profile package))) (k : Key) : R ((r.remembering package f).profile k) := by
  rw [profile_remembering]
  split
  · rename_i same
    rw [← profile_congr r same]
    exact new
  · exact sane k

/-- While a package is marked the others grow, and then it has grown itself. -/
theorem Advances.unmark (a : (r.remembering package Profile.marked).Advances r')
    (sane : (f (r'.profile package)).Sane)
    (grows : (r.profile package).Grows (f (r'.profile package))) :
    r.Advances (r'.remembering package f) := by
  refine ⟨⟨fun k => ?_, a.methods⟩, forall_profile_remembering a.sane sane⟩
  have meanwhile := a.profile k
  rw [profile_remembering] at meanwhile ⊢
  split
  · rename_i same
    rwa [← profile_congr r same, ← profile_congr r' same]
  · rename_i other
    rwa [if_neg other] at meanwhile

/-! ### Computing lineages -/

/-- **Computing a lineage** only adds to what is remembered, whatever there is on the heap. -/
theorem keeps_linearizeWithin (algorithm : Algorithm) (levels : Nat) (package : Key) :
    Keeps (fun s => r₀.Advances s.own) (Registry.linearizeWithin algorithm levels package) := by
  -- one level less for the parents, from the registry in which the package is marked
  induction levels generalizing package r₀ with
  | zero => exact Keeps.throw _
  | succ levels ih =>
    intro s advances
    refine yields_linearizeWithin (F := fun _ t => r₀.Advances t.own) (fun _ _ => advances)
      (fun _ => advances) fun new free => ?_
    have sane := advances.sane package
    have marked : (mark package s).own.Advances (mark package s).own :=
      .refl (forall_profile_remembering advances.sane sane.marked)
    have merges := keeps_mergeParents (P := fun t => (mark package s).own.Advances t.own)
      (fun r => Keeps.onHeap (r.parents package)) (ih ·)
    have grown {t : Beside Registry} (a : (mark package s).own.Advances t.own) :
        (s.own.profile package).marked.Grows (t.own.profile package) := by
      have here := a.profile package
      rwa [mark, profile_remembering, if_pos (same_refl package)] at here
    refine (merges.ends marked).yields.imp (fun order t a => ?_) fun _ t a => ?_
    · -- the mark was still there, so that no other lineage came in between
      have still := ((grown a).marked rfl).2 algorithm
      have none : (t.own.profile package).lineage? algorithm = none := still.trans new
      exact advances.trans (a.unmark ((a.sane package).keep none) ((grown a).keep free new))
    · exact advances.trans (a.unmark (a.sane package).settled ((grown a).settle free))

theorem keeps_linearizeKey (algorithm : Algorithm) (package : Key) :
    Keeps (fun s => r₀.Advances s.own) (Registry.linearizeKey algorithm package) :=
  Keeps.self.bind fun _ => keeps_linearizeWithin algorithm _ package

/-! ### Other operations -/

/-- Another table of stashes is not looked at. -/
theorem Advances.restash (a : r₀.Advances r) (u : Table CellId) :
    r₀.Advances { r with stashes := u } := ⟨⟨a.profile, a.methods⟩, a.sane⟩

/-- Who the parents and the children of packages are is not looked at. -/
theorem Advances.of_kept (a : r₀.Advances r) (kept : ∀ k, (r.profile k).Kept (r'.profile k))
    (methods : r'.methodGeneration = r.methodGeneration) : r₀.Advances r' :=
  a.trans ⟨⟨fun k => .of_kept (kept k), methods⟩, fun k => (a.sane k).of_kept (kept k)⟩

theorem Orderly.forM_forget (o : r.Orderly) (packages : List Key) {h : Heap} :
    Ends (packages.forM Registry.forget) ⟨h, r⟩ (fun _ t => t.own.Orderly) fun _ => False := by
  induction packages generalizing r h with
  | nil => exact o
  | cons q packages ih =>
    refine Ends.step (a := ()) (t := ⟨h.letGo (r.profile q).codes, r.remembering q
      Profile.forgotten⟩) rfl (ih ?_)
    exact forall_profile_remembering o (Profile.orderly_forgotten _)

theorem leads_forgetAll (o : r₀.Orderly) : Leads (fun s => r₀.Advances s.own)
    Registry.forgetAll (fun _ s => s.own.Orderly) fun s => r₀.Advances s.own := by
  refine Leads.of_ends fun s a => Ends.of_eq (forgetAll_eq s) ?_
  exact ((a.orderly o).forM_forget _).sure.bind fun _ _ orderly => orderly

theorem leads_parentsChanged (o : r₀.Orderly) (name : String) : Leads
    (fun s => r₀.Advances s.own) (Registry.parentsChanged name) (fun _ s => s.own.Orderly)
    fun s => r₀.Advances s.own := by
  have noted (r : Registry) (package : Key) (parents : List Key) (a : r₀.Advances r) :
      r₀.Advances (r.remembering package fun p => { p with parents }) := by
    refine a.of_kept (fun k => ?_) rfl
    rw [profile_remembering]
    split <;> exact ⟨rfl, rfl, rfl, rfl, rfl, rfl⟩
  exact leads_parentsChanged_of (P := r₀.Advances) noted
    (fun r k parents a => a.of_kept (kept_recording r k parents) rfl)
    (fun packages => Leads.of_ends fun s a => ((a.orderly o).forM_forget packages).sure) name

/-- **An operation** leads to orderly profiles, and when it fails it has only added to them. -/
theorem Op.leads_perform (o : r₀.Orderly) (op : Op) : Leads (fun s => r₀.Advances s.own)
    op.perform (fun _ s => s.own.Orderly) fun s => r₀.Advances s.own := by
  have kept {α : Type} {x : OnRegistry α} (keeps : Keeps (fun s => r₀.Advances s.own) x) :
      Leads (fun s => r₀.Advances s.own) (discard x) (fun _ s => s.own.Orderly)
        fun s => r₀.Advances s.own :=
    keeps.discard.imp (fun _ => id) (fun _ _ a => a.orderly o) fun _ => id
  have led {α : Type} {x : OnRegistry α} (leads : Leads (fun s => r₀.Advances s.own) x
      (fun _ s => s.own.Orderly) fun s => r₀.Advances s.own) :
      Leads (fun s => r₀.Advances s.own) (discard x) (fun _ s => s.own.Orderly)
        fun s => r₀.Advances s.own := Leads.bind leads fun _ _ => id
  have stashes (r : Registry) (u : Table CellId) (a : r₀.Advances r) := a.restash u
  have methods (r : Registry) (a : r₀.Advances r) :
      Orderly { r with methodGeneration := r.methodGeneration + 1 } := a.orderly o
  cases op with
  | define package => exact kept (keeps_define stashes package)
  | setParents package list =>
    exact led (Leads.bind (keeps_writeParents stashes package list) fun _ =>
      leads_parentsChanged o package)
  | parentsChanged package => exact led (leads_parentsChanged o package)
  | defineMethod package method code => exact leads_defineMethod stashes methods package method code
  | removeMethod package method =>
    exact led (leads_removeMethod (fun _ a => a.orderly o) methods package method)
  | linearizeBy algorithm package => exact kept (keeps_linearizeBy keeps_linearizeKey _ package)
  | isA package ancestor => exact kept (keeps_isA keeps_linearizeKey package ancestor)
  | resolve package method =>
    refine led (leads_resolve keeps_linearizeKey (fun _ a => a.orderly o) ?_ package method)
    intro r k m answer a
    have before := a.orderly o
    exact forall_profile_remembering before
      ⟨⟨(before k).isSome, (before k).isIn_iff, (before k).cached⟩, (before k).settled⟩
  | resolveSuper package method => exact kept (keeps_resolveSuper keeps_linearizeKey package method)
  | methodsChanged => exact fun s => methods s.own
  | forgetAll => exact leads_forgetAll o
  | newCode routine => exact kept (Keeps.onHeap _)
  | letGo code =>
    exact Leads.imp (Keeps.bind (Keeps.onHeap _).discard fun _ => Keeps.changeHeap _)
      (fun _ => id) (fun _ _ a => a.orderly o) fun _ => id

end

/-! ### Runs -/

/-- An operation, or what is done to a registry besides: code is put in the place of a parent list
or asked to be removed from it, and the heap is made another. -/
inductive Move
  | op (op : Op)
  | defineParentEntry (package : String) (code : CellId)
  | removeParentEntry (package : String)
  | rewrite (f : Heap → Heap)

namespace Move

/-- Carries out a move. -/
def perform : Move → OnRegistry Unit
  | .op act => act.perform
  | defineParentEntry package code => defineMethod package parentEntry code
  | removeParentEntry package => discard (removeMethod package parentEntry)
  | rewrite f => changeHeap f

/-- Parent lists stay what they are for: lists of names. -/
def Respects : Move → Prop
  | .op _ => True
  | removeParentEntry _ => True
  | defineParentEntry .. => False
  | rewrite _ => False

/-- Carries out moves one after the other, whether they fail or not. -/
def run (moves : List Move) (s : Beside Registry) : Beside Registry :=
  moves.foldl (fun s move => after move.perform s) s

end Move

section
variable {lists : Bytes × Bool → List String} {seed : Seed} {s t : Beside Registry} {k : Key}

/-- **A step.** -/
theorem Move.ends_perform (o : s.own.Orderly) (move : Move) :
    Ends move.perform s (fun _ t => t.own.Orderly) fun t => s.own.Advances t.own := by
  have start : s.own.Advances s.own := .refl fun k => (o k).toSane
  cases move with
  | op op => exact (Op.leads_perform o op).ends start
  | defineParentEntry package code =>
    have methods (r : Registry) (a : s.own.Advances r) :
        Orderly { r with methodGeneration := r.methodGeneration + 1 } := a.orderly o
    exact (leads_defineMethod (fun _ u a => a.restash u) methods package _ code).ends start
  | removeParentEntry package =>
    have methods (r : Registry) (a : s.own.Advances r) :
        Orderly { r with methodGeneration := r.methodGeneration + 1 } := a.orderly o
    exact ((leads_removeMethod (fun _ a => a.orderly o) methods package _).ends start).discard
  | rewrite f => exact o

/-- **A run.** -/
theorem Orderly.run (o : s.own.Orderly) (moves : List Move) : (Move.run moves s).own.Orderly := by
  induction moves generalizing s with
  | nil => exact o
  | cons move moves ih =>
    have step : Ends move.perform s (fun _ t => t.own.Orderly) fun t => t.own.Orderly :=
      (move.ends_perform o).imp (fun _ _ => id) fun _ a => a.orderly o
    exact ih step.after

theorem orderly_start (seeds : Array Seed) (supply : Supply) (pool : Nat) (settings : Settings) :
    (start seeds supply pool settings).own.Orderly := fun _ =>
  ⟨⟨rfl, nofun, fun _ => iff_of_false nofun nofun⟩, nofun⟩

/-! ### Lists of names -/

/-- An operation that fails has changed no parent list. -/
theorem Fit.ends_perform (fit : Fit lists seed s) (op : Op) :
    Ends op.perform s (fun _ _ => True) (Fit lists seed) := by
  cases op with
  | setParents package list =>
    have set : Ends (Registry.setParents package list) s (fun _ _ => True) fun _ => False :=
      ((Fit.setParents package list).ends fit).imp (fun _ _ _ => trivial) fun _ => id
    exact set.discard.sure
  | _ => exact (Ends.of_after (fit.perform _)).imp (fun _ _ _ => trivial) fun _ => id

/-- No method is found under the name of the parent list, so that none is removed. -/
theorem removeMethod_parentEntry (package : String) (s : Beside Registry) :
    removeMethod package parentEntry s = .ok none s := by
  have own (key : Key) : s.own.ownMethod key parentEntry s.heap = .ok none s.heap := by
    unfold ownMethod
    cases s.own.stash? key <;> rfl
  unfold removeMethod
  rw [self_bind]
  exact bind_ok (liftM_ok (own _))

theorem Move.ends_fit (fit : Fit lists seed s) {move : Move} (respects : move.Respects) :
    Ends move.perform s (fun _ t => ∃ lists', Fit lists' seed t) (Fit lists seed) := by
  cases move with
  | op op =>
    exact ((fit.ends_perform op).and (Ends.of_after (fit.perform op))).imp
      (fun _ _ q => ⟨_, q.2⟩) fun _ => And.left
  | removeParentEntry package =>
    refine Ends.discard (P := fun t => ∃ lists', Fit lists' seed t) ?_
    exact Ends.of_ok (removeMethod_parentEntry package s) ⟨lists, fit⟩
  | defineParentEntry | rewrite => exact respects.elim

theorem Fit.run_moves (fit : Fit lists seed s) {moves : List Move}
    (respect : ∀ move ∈ moves, move.Respects) : ∃ lists', Fit lists' seed (Move.run moves s) := by
  induction moves generalizing lists s with
  | nil => exact ⟨lists, fit⟩
  | cons move moves ih =>
    obtain ⟨first, rest⟩ := List.forall_mem_cons.mp respect
    have step : Ends move.perform s (fun _ t => ∃ lists', Fit lists' seed t)
        fun t => ∃ lists', Fit lists' seed t :=
      (Move.ends_fit fit first).imp (fun _ _ => id) fun _ fit => ⟨lists, fit⟩
    obtain ⟨lists', fit'⟩ := step.after
    exact ih fit' rest

/-- **The ancestors** that a package names are those it inherits from and the universal package,
whichever lineages they come from. -/
theorem Fit.isIn_ancestors (fit : Fit lists seed s) (sane : (s.own.profile k).Sane)
    (regular : IsRegular seed k) {q : Key} {as : List Key}
    (has : as ∈ (s.own.profile k).ancestors) : q.isIn as = true ↔
      q.same (lastKey seed) = true ∨ Inherits (graph lists seed) q k := by
  have inLineage {algorithm : Algorithm} {l : Lineage}
      (hl : (s.own.profile k).lineage? algorithm = some l) :=
    (fit.2.lineage k algorithm l hl).2.isIn_iff (k := q) regular
  rw [sane.isIn_iff as has]
  constructor
  · rintro ⟨algorithm, l, hl, inside⟩
    exact (inLineage hl).mp inside
  · intro inherits
    have cached : (s.own.profile k).hasLineage = true := by
      rw [← sane.isSome, show (s.own.profile k).ancestors = some as from has]
      rfl
    obtain ⟨algorithm, l, hl⟩ := Profile.hasLineage_iff.mp cached
    exact ⟨algorithm, l, hl, (inLineage hl).mpr inherits⟩

/-- **Ancestors stay.**  By the same parents another lineage has no other packages. -/
theorem Fit.ancestors_eq (fit : Fit lists seed s) (fit' : Fit lists seed t)
    (a : s.own.Advances t.own) (sane : (s.own.profile k).Sane) (regular : IsRegular seed k)
    {as : List Key} (has : as ∈ (s.own.profile k).ancestors) :
    (t.own.profile k).ancestors = some as := by
  obtain ⟨more, known, apart⟩ := (a.profile k).ancestors as has
  suffices more = [] by rw [known, this, List.append_nil]
  refine List.eq_nil_iff_forall_not_mem.mpr fun m hm => apart m hm ?_
  have named : m.isIn (as ++ more) = true := isIn_append.mpr (.inr (isIn_of_mem hm))
  exact (fit.isIn_ancestors sane regular has).mpr
    ((fit'.isIn_ancestors (a.sane k) regular known).mp named)

end

/-- **What is remembered is in order.**  Whatever was done with a new registry, and whatever became
of the heap: no package is left marked as being computed, those with a lineage are cached, and
these name exactly the packages of their lineages as ancestors.  An operation that fails has
removed and altered no lineage and no answer, and at most added to ancestors.  As long as parent
lists are lists of names, it has not altered the ancestors that a package had. -/
theorem run_orderly (seeds : Array Seed) (supply : Supply) (pool : Nat) (settings : Settings)
    (moves : List Move) (move : Move) :
    let s := Move.run moves (start seeds supply pool settings)
    s.own.Orderly ∧ Ends move.perform s (fun _ t => t.own.Orderly) (fun t =>
      t.own.Orderly ∧ s.own.Grown t.own ∧
        ((∀ m ∈ move :: moves, m.Respects) → ∀ name as,
          (s.own.profile (s.own.keyOf name)).ancestors = some as →
            (t.own.profile (s.own.keyOf name)).ancestors = some as)) := by
  intro s
  have o : s.own.Orderly := Orderly.run (orderly_start seeds supply pool settings) moves
  refine ⟨o, ?_⟩
  have step := move.ends_perform o
  by_cases respect : ∀ m ∈ move :: moves, m.Respects
  · obtain ⟨first, rest⟩ := List.forall_mem_cons.mp respect
    obtain ⟨lists, fit⟩ := (fit_start seeds supply pool settings).run_moves rest
    refine (step.and (Move.ends_fit fit first)).imp (fun _ _ => And.left) ?_
    rintro t ⟨a, fit'⟩
    refine ⟨a.orderly o, a.toGrown, fun _ name as has => ?_⟩
    exact fit.ancestors_eq fit' a (o _).toSane (fit.1.isRegular_keyOf name) has
  · exact step.imp (fun _ _ => id) fun t a => ⟨a.orderly o, a.toGrown, fun h => absurd h respect⟩

/-- What is seen of an operation that fails. -/
def failed? {α β : Type} (x : OnRegistry α) (s : Beside Registry)
    (see : Fault → Beside Registry → β) : Option β :=
  match x s with
  | .ok .. => none
  | .error e t => some (see e t)

theorem exists_of_failed {α β : Type} {x : OnRegistry α} {s : Beside Registry}
    {see : Fault → Beside Registry → β} {b : β} (h : failed? x s see = some b) :
    ∃ e t, x s = .error e t ∧ see e t = b := by
  unfold failed? at h
  cases hx : x s with
  | ok a t => simp [hx] at h
  | error e t => exact ⟨e, t, rfl, by simpa [hx] using h⟩

/-- The ancestors that a package names. -/
def ancestorNames (name : String) (s : Beside Registry) : Option (List String) :=
  (s.own.profile (s.own.keyOf name)).ancestors.map fun as => as.map Key.text

/-- A package whose parents come round to it: what is remembered of the first of them is kept. -/
theorem run_orderly_cycle :
    let moves : List Move := [.op (.setParents "B" ["A"]), .op (.linearizeBy .c3 "B"),
      .op (.setParents "R" ["B", "R"])]
    let s := Move.run moves (start #[] {} 0 {})
    let move : Move := .op (.linearizeBy .depthFirst "R")
    (∀ m ∈ move :: moves, m.Respects) ∧ (∃ t, move.perform s = .error (.cycle "R") t) ∧
      Ends move.perform s (fun _ t => t.own.Orderly) (fun t => t.own.Orderly ∧
        s.own.Grown t.own ∧ ∀ name as, (s.own.profile (s.own.keyOf name)).ancestors = some as →
          (t.own.profile (s.own.keyOf name)).ancestors = some as) := by
  intro moves s move
  have respect : ∀ m ∈ move :: moves, m.Respects := by simp [moves, move, Move.Respects]
  have cycle : failed? move.perform s (fun e _ => e) = some (.cycle "R") := by decide +kernel
  obtain ⟨e, t, fails, rfl⟩ := exists_of_failed cycle
  have orderly := (run_orderly #[] {} 0 {} moves move).2
  refine ⟨respect, ⟨t, fails⟩, orderly.imp (fun _ _ => id) ?_⟩
  rintro t ⟨o, grown, stays⟩
  exact ⟨o, grown, stays respect⟩

/-- **What breaks it.**  Code takes the place of the parent list of `X` while its lineage stays
remembered.  Then the two ways to order `Q` do not name the same packages, and a computation that
fails adds one of them to the ancestors of `Q`. -/
theorem failed_adds_ancestor :
    let s := Move.run [.op (.setParents "X" ["A"]), .op (.linearizeBy .c3 "X"),
      .op (.newCode {}), .defineParentEntry "X" 3, .op (.setParents "Q" ["X"]),
      .op (.linearizeBy .depthFirst "Q"), .op (.setParents "R" ["Q", "R"])] (start #[] {} 0 {})
    ancestorNames "Q" s = some ["Q", "X", "UNIVERSAL"] ∧
      ∃ t, linearizeBy .c3 "R" s = .error (.cycle "R") t ∧
        ancestorNames "Q" t = some ["Q", "X", "UNIVERSAL", "A"] := by
  intro s
  have before : ancestorNames "Q" s = some ["Q", "X", "UNIVERSAL"] := by decide +kernel
  have failed : failed? (linearizeBy .c3 "R") s (fun e t => (e, ancestorNames "Q" t)) =
      some (.cycle "R", some ["Q", "X", "UNIVERSAL", "A"]) := by decide +kernel
  obtain ⟨e, t, fails, seen⟩ := exists_of_failed failed
  obtain ⟨rfl, after⟩ := Prod.mk.inj seen
  exact ⟨before, t, fails, after⟩

end Registry

end ScriptCore
