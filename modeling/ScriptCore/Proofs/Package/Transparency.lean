import ScriptCore.Proofs.Package.Answers

/-!
# Package — answers are current

A host holds handles on code: of code that it makes, that it is handed over and that it finds.  It
gives a handle up when it lets go of the code, and never lets go of code it has no handle on
(`Host.step`).

* `resolve_isCurrent`: whatever a host did with a new registry, an answer is the first code that
  the stashes have now along the order of the package, by the parents they have now.  So what is
  remembered is never told apart from what is found without memory.
-/

namespace ScriptCore.Registry
open Beside Key Lineage

/-- The code that the stash of a package has for a method. -/
def code? (r : Registry) (h : Heap) (package method : Spelling) : Option CellId :=
  (r.stash? package).bind fun i =>
    ((h.table? i).bind (·.fetch? method)).filter fun j => (h.cell j).shape = .code

/-- A registry and the handles that its host holds. -/
structure Host where
  state : Beside Registry
  held : List CellId

/-- Takes hold of the code that was found. -/
def holding (held : List CellId) (found : Option Method) : OnRegistry (List CellId) := do
  let codes := (found.map (·.code)).toList
  changeHeap (·.retainAll codes)
  return codes ++ held

/-- Carries out an operation for a host with some handles, and gives the handles it has then. -/
def Op.act (held : List CellId) : Op → OnRegistry (List CellId)
  | newCode routine => do return (← (Heap.new (.ofRoutine routine) : OnHeap CellId)) :: held
  | removeMethod package method => do
    return (← Registry.removeMethod package method).toList ++ held
  | resolve package method => do holding held (← Registry.resolve package method)
  | resolveSuper package method => do holding held (← Registry.resolveSuper package method)
  | letGo code =>
    if code ∈ held then do
      (letGo code).perform
      return held.erase code
    else return held
  | op => do
    op.perform
    return held

namespace Host

/-- A host after an operation.  One that fails leaves it the handles it had. -/
def step (host : Host) (op : Op) : Host :=
  match op.act host.held host.state with
  | .ok held t => ⟨t, held⟩
  | .error _ t => { host with state := t }

/-- A host after operations, whether they failed or not. -/
def run (host : Host) (ops : List Op) : Host := ops.foldl step host

/-- A host without handles, of a new registry. -/
def start (seeds : Array Seed) (supply : Supply) (pool : Nat) (settings : Settings) : Host :=
  ⟨Registry.start seeds supply pool settings, []⟩

end Host

/-- All that is remembered is right, and what is held has its owners. -/
def Hosted (lists : Bytes × Bool → List String) (seed : Seed) (held : List CellId)
    (s : Beside Registry) : Prop :=
  Tracked lists seed s ∧ ∃ stock, Answered lists seed stock held s

section
variable {lists lists' : Bytes × Bool → List String} {seed : Seed} {r : Registry} {h : Heap}
  {s t : Beside Registry} {stock : Bytes × Bool → Bytes × Bool → Option CellId}
  {held out : List CellId}

/-! ### What stashes have -/

/-- **The stock** is what the stashes have. -/
theorem Stocked.code? (b : Stocked stock out ⟨h, r⟩) (s : Shelved lists seed r h)
    (package method : Spelling) :
    r.code? h package method = stock package.letters method.letters := by
  rw [← b.stock]
  unfold Registry.code?
  cases hi : r.stash? package with
  | none => exact (stock_absent hi _).symm
  | some i =>
    obtain ⟨home, t, m, holds, is⟩ := s.isStash hi
    rw [Option.bind_some, table?_of_stash holds, Option.bind_some]
    have reads : t.fetch? method = m.lookup method.letters :=
      is.shows.fetch? is.housed.sound.toLinked method
    by_cases parent : method.letters = parentLetters
    · -- the entry of the parent list is an array, if there is one
      have masked : r.stock h package.letters method.letters = none := if_pos parent
      rw [masked, reads, parent]
      rcases is.parents with ⟨unbound, -⟩ | ⟨isa, items, bound, -, ⟨n, array⟩, -⟩
      · rw [unbound]
        rfl
      · rw [bound, Option.filter_some, Heap.cell_eq array]
        rfl
    · have stocked : r.stock h package.letters method.letters = t.fetch? method := by
        rw [stock_stash hi parent, table?_of_stash holds, Option.bind_some]
      rw [stocked]
      cases found : t.fetch? method with
      | none => rfl
      | some j =>
        obtain ⟨c, hc, shape⟩ := b.isCode_of_fetch? holds is parent found
        rw [Option.filter_some, Heap.cell_eq hc, shape]
        rfl

/-! ### Steps of a host -/

/-- Stashes have changed, but no method. -/
theorem Restashed.answered (q : Restashed stock out r t) (fresh : Fresh lists seed stock r) :
    Answered lists seed stock out t := by
  obtain ⟨⟨stashes, hr⟩, b⟩ := q
  refine ⟨b, ?_⟩
  rw [hr]
  exact fresh

/-- Methods have changed. -/
theorem Renewed.answered (q : Renewed out r t) (fresh : Fresh lists seed stock r) :
    Answered lists seed (t.own.stock t.heap) out t := by
  obtain ⟨⟨stashes, hr⟩, b⟩ := q
  refine ⟨b, ?_⟩
  rw [hr]
  exact fresh.renew rfl (Nat.lt_succ_self _)

theorem Hosted.retainAll (hosted : Hosted lists seed held ⟨h, r⟩) {is : List CellId}
    (alive : ∀ i ∈ is, ∃ c, h.cell? i = some c) :
    Hosted lists seed (is ++ held) ⟨h.retainAll is, r⟩ := by
  obtain ⟨⟨fit, rec⟩, stock, b, fresh⟩ := hosted
  have shelved := fit.1.onHeap (Heap.steady_retainAll h is) fun _ => False.elim
  exact ⟨⟨fit.of_remembers shelved ⟨rfl, rfl⟩, rec⟩, stock, b.retainAll alive, fresh⟩

theorem Hosted.holding (hosted : Hosted lists seed held s) {found : Option Method}
    {E : Beside Registry → Prop} (alive : ∀ f ∈ found, ∃ c, s.heap.cell? f.code = some c) :
    Ends (Registry.holding held found) s (Hosted lists seed) E := by
  refine Ends.of_ok rfl (hosted.retainAll fun i hi => ?_)
  obtain ⟨f, hf, rfl⟩ := Option.map_eq_some_iff.mp (Option.mem_toList.mp hi)
  exact alive f hf

/-- An operation after which the host has the handles it had. -/
theorem Hosted.perform {x : OnRegistry Unit} (tracked : Tracked lists seed (after x s))
    (answered : Ends x s (fun _ t => ∃ stock, Answered lists seed stock held t)
      fun t => ∃ stock, Answered lists seed stock held t) :
    Ends (x >>= fun _ => pure held) s (Hosted lists seed) (Hosted lists seed held) :=
  ((Ends.of_after tracked).and answered).bind fun _ _ q => q

/-- An operation that changes no method either. -/
theorem Hosted.keep {x : OnRegistry Unit} (tracked : Tracked lists seed (after x s))
    (answered : Ends x s (fun _ => Answered lists seed stock held)
      (Answered lists seed stock held)) :
    Ends (x >>= fun _ => pure held) s (Hosted lists seed) (Hosted lists seed held) :=
  Hosted.perform tracked (answered.imp (fun _ _ a => ⟨stock, a⟩) fun _ a => ⟨stock, a⟩)

/-- **Letting go** of code gives up a handle on it. -/
theorem Answered.letGo (a : Answered lists seed stock held s) {code : CellId}
    (there : code ∈ held) :
    Ends (Op.letGo code).perform s (fun _ => Answered lists seed stock (held.erase code))
      (Answered lists seed stock held) := by
  have read : Ends (discard (Heap.routine code : OnHeap Routine) : OnRegistry Unit) s
      (fun _ t => t = s) fun t => t = s := by
    refine Ends.discard ((ends_routine s.heap code).lift.imp ?_ ?_)
    · rintro q ⟨h, r⟩ ⟨rfl, rfl, -⟩
      rfl
    · rintro ⟨h, r⟩ ⟨rfl, rfl⟩
      rfl
  refine Ends.bind (read.imp (fun _ _ => id) fun t e => e ▸ a) ?_
  rintro - t rfl
  have split : Stocked stock ([code] ++ held.erase code) t :=
    a.1.imp fun i => ((List.perm_cons_erase there).count_eq i).ge
  exact Ends.of_ok rfl ⟨split.letGo, a.2⟩

/-- **A step.**  What is remembered stays right, and the host has the handles it is given. -/
theorem Hosted.act (hosted : Hosted lists seed held s) (op : Op) :
    Ends (op.act held) s (Hosted (op.listsAfter lists) seed)
      (Hosted (op.listsAfter lists) seed held) := by
  obtain ⟨tracked, stock, a⟩ := hosted
  have tracked' := tracked.perform op
  cases op with
  | define package =>
    have defined := a.1.define tracked.1.1 package
    exact Hosted.keep tracked'
      (defined.sure.imp (fun _ _ q => q.answered a.2) fun _ => id).discard
  | setParents package list =>
    exact Hosted.keep tracked' (Answered.setParents package list tracked a).sure.discard
  | parentsChanged package =>
    exact Hosted.keep tracked' (Answered.parentsChanged package tracked a).sure.discard
  | defineMethod package method code =>
    refine Hosted.perform tracked' ?_
    exact (a.1.defineMethod tracked.1.1 package method.2 code).imp
      (fun _ _ q => ⟨_, q.1.answered a.2⟩) fun _ q => ⟨stock, q.answered a.2⟩
  | removeMethod package method =>
    have removed := (Ends.of_after tracked').of_discard.and
      (a.1.removeMethod tracked.1.1 package method.2)
    refine Ends.bind (removed.imp (fun _ _ => id) fun _ q => q.2.elim) ?_
    rintro old t ⟨tracked', ⟨rfl, rfl⟩ | q⟩
    · exact ⟨tracked', stock, a⟩
    · exact ⟨tracked', _, q.answered a.2⟩
  | linearizeBy algorithm package =>
    have quiet := Fit.quiet_linearizeKey algorithm (tracked.1.1.keyOf package).1 tracked.1
    exact Hosted.keep tracked' (Ends.self (quiet.imp (fun _ _ => a.quiet) fun _ => a.quiet)).discard
  | isA package ancestor =>
    have quiet := Fit.quiet_isA package ancestor tracked.1
    exact Hosted.keep tracked' (quiet.imp (fun _ _ => a.quiet) fun _ => a.quiet).discard
  | resolve package method =>
    have resolved := (Ends.of_after tracked').of_discard.and (a.resolve tracked.1 package method)
    refine Ends.bind (resolved.imp (fun _ _ => id) fun _ q => ⟨q.1, stock, q.2.1⟩) ?_
    rintro found t ⟨tracked', a, alive, -⟩
    exact Hosted.holding ⟨tracked', stock, a⟩ alive
  | resolveSuper package method =>
    have resolved := (Ends.of_after tracked').of_discard.and
      (a.resolveSuper tracked.1 package method)
    refine Ends.bind (resolved.imp (fun _ _ => id) fun _ q => ⟨q.1, stock, q.2⟩) ?_
    rintro found t ⟨tracked', a, alive⟩
    exact Hosted.holding ⟨tracked', stock, a⟩ alive
  | methodsChanged =>
    have renewed : Answered lists seed stock held (after Registry.methodsChanged s) :=
      ⟨a.1.onSelf rfl rfl, a.2.renew rfl (Nat.lt_succ_self _)⟩
    exact Hosted.keep tracked' (Ends.of_after renewed)
  | forgetAll => exact Hosted.keep tracked' (Answered.forgetAll.ends a)
  | newCode routine => exact ⟨tracked', stock, a.1.allocate rfl fun _ _ => rfl, a.2⟩
  | letGo code =>
    show Ends (if code ∈ held then _ else _) s _ _
    split
    · rename_i there
      exact ((Ends.of_after tracked').and ((a.letGo there).imp (fun _ _ q => ⟨stock, q⟩)
        fun _ q => ⟨stock, q⟩)).bind fun _ _ q => q
    · exact ⟨tracked, stock, a⟩

/-- A host that fails in an operation has the handles it had. -/
theorem Host.ends_step {host : Host} {op : Op} {P : List CellId → Beside Registry → Prop}
    (acted : Ends (op.act host.held) host.state P (P host.held)) :
    P (host.step op).held (host.step op).state := by
  unfold Ends at acted
  unfold Host.step
  cases e : op.act host.held host.state <;> rw [e] at acted <;> exact acted

theorem Hosted.step {host : Host} (hosted : Hosted lists seed host.held host.state) (op : Op) :
    Hosted (op.listsAfter lists) seed (host.step op).held (host.step op).state :=
  Host.ends_step (hosted.act op)

/-- **A run.** -/
theorem Hosted.run {host : Host} (hosted : Hosted lists seed host.held host.state)
    (ops : List Op) : ∃ lists', Hosted lists' seed (host.run ops).held (host.run ops).state := by
  induction ops generalizing lists host with
  | nil => exact ⟨lists, hosted⟩
  | cons op ops ih => exact ih (hosted.step op)

/-- A new registry holds nothing. -/
theorem hosted_start (seeds : Array Seed) (supply : Supply) (pool : Nat) (settings : Settings) :
    let host := Host.start seeds supply pool settings
    Hosted (fun _ => []) ((Keyring.ofSeeds seeds supply).pool pool).seed host.held host.state := by
  intro host
  have tracked := tracked_start seeds supply pool settings
  have handles : host.state.own.handles = [] := rfl
  refine ⟨tracked, fun _ _ => none, ⟨⟨.nil, fun _ => .nil⟩, fun i => ?_, fun i c hc => ?_, ?_⟩,
    nofun⟩
  · rw [handles]
    exact Nat.zero_le _
  · cases Heap.lt_size hc
  · funext x y
    unfold Registry.stock
    split
    · rfl
    · cases hi : host.state.own.stash? (.ofLetters x) with
      | none => rfl
      | some i =>
        have := mem_handles_of_stash? hi
        rw [handles] at this
        cases this

theorem linearize_eq (name : String) (s : Beside Registry) : linearize name s =
    Registry.linearizeKey s.own.settings.algorithm (s.own.keyOf name) s := by
  unfold linearize linearizeBy
  rw [self_bind, self_bind]

/-- The first of packages that are the same. -/
theorem findSome?_letters {β : Type} (f : Bytes × Bool → Option β) {order order' : List Key}
    (same : List.Forall₂ (fun a b => a.same b = true) order order') :
    order.findSome? (fun q => f q.letters) = order'.findSome? fun q => f q.letters := by
  induction same with
  | nil => rfl
  | cons same _ ih => rw [List.findSome?_cons, List.findSome?_cons, letters_eq_of_same same, ih]

end

/-- **Answers are current.**  Whatever a host did with a new registry, whether it failed or not, the
parents of every package can be read, and an answer that is given is the first code that stashes
have for the method along the order that follows from these parents alone.  Giving it leaves the
parents and the methods as they are.  No answer is given only where a lineage cannot be. -/
theorem resolve_isCurrent (seeds : Array Seed) (supply : Supply) (pool : Nat) (settings : Settings)
    (ops : List Op) (package method : String) :
    let s := ((Host.start seeds supply pool settings).run ops).state
    ∃ parents : Key → List Key, (∀ k, s.own.parents k s.heap = .ok (parents k) s.heap) ∧
      Ends (resolve package method) s (fun found t =>
        (∀ k, t.own.parents k t.heap = .ok (parents k) t.heap) ∧
        (∀ q m, t.own.code? t.heap q m = s.own.code? s.heap q m) ∧
        ∃ order, IsOrder parents (s.own.keyOf universal) s.own.settings.algorithm
            (s.own.keyOf package) order ∧
          found.map (fun m => (m.code, m.package.letters)) = order.findSome? fun q =>
            (s.own.code? s.heap (.ofKey q) (.ofText method)).map (·, q.letters))
        fun t => ∃ e, linearize package s = .error e t := by
  intro s
  obtain ⟨lists, tracked, stock, a⟩ := (hosted_start seeds supply pool settings).run ops
  have fit : Fit lists _ s := tracked.1
  refine ⟨graph lists _, fit.1.parents, ?_⟩
  refine (((Fit.resolve package method).ends fit).and (a.resolve fit package method)).imp ?_
    fun _ q => linearize_eq package s ▸ q.2.2
  rintro found t ⟨fit', a', -, right⟩
  refine ⟨fit'.1.parents, fun q m => ?_, ?_⟩
  · rw [a'.1.code? fit'.1, a.1.code? fit.1]
  obtain ⟨order, is, first⟩ := right
  obtain ⟨order', is', same⟩ := is.isOrder fit.1.plain_universal
  refine ⟨order', is', first.trans ?_⟩
  refine (findSome?_letters (fun x => (stock x (Spelling.ofText method).letters).map (·, x))
    same).trans ?_
  refine congrArg order'.findSome? (funext fun q => ?_)
  rw [a.1.code? fit.1]
  rfl

end ScriptCore.Registry
