import ScriptCore.Proofs.Instance.Calls

/-!
# Instance — poison

Between its calls a host may do what it likes to the cells, the packages and the pads, and hand the
outcome of an operation on cells to the instance or not (`Op`).  One step changes the poison in one
way: a fatal fault that is returned is taken when there is none (`Reports`).

* `poison_run`: so the poison of an instance is the first fatal fault that it returned, for good;
  and a poisoned instance answers every call with its poison and changes nothing, except that
  `resolveFor` looks at its reference first.
-/

namespace ScriptCore.Instance
open Beside

/-- What happens to an instance: a call, an operation on cells whose outcome is handed to it, or
something that it does not see. -/
inductive Op
  | call (c : Call)
  | track (x : OnHeap Unit)
  | cells (x : OnHeap Unit)
  | packages (x : OnRegistry Unit)
  | pads (x : OnPads Unit)
  | sweep
  | advise (a : Advisory)
  | takeAdvisories

namespace Op

/-- Carries out an operation. -/
def perform : Op → OnInstance Unit
  | call c => c.perform
  | track x => Instance.track x
  | cells x => x
  | packages x => onPackages x
  | pads x => onPads x
  | sweep => discard Instance.sweep
  | advise a => Instance.advise a
  | takeAdvisories => discard Instance.takeAdvisories

/-- The instance gets to see the outcome. -/
def isSeen : Op → Bool
  | call _ | track _ => true
  | _ => false

/-- The fault that the instance returns. -/
def fault? (s : Beside Instance) (op : Op) : Option Fault :=
  match op.perform s with
  | .ok _ _ => none
  | .error e _ => if op.isSeen then some e else none

end Op

/-- Carries out operations one after the other, whether they fail or not. -/
def run (ops : List Op) (s : Beside Instance) : Beside Instance :=
  ops.foldl (fun s op => after op.perform s) s

/-- The faults that the instance returns along a run, in order. -/
def faults : List Op → Beside Instance → List Fault
  | [], _ => []
  | op :: ops, s => (op.fault? s).toList ++ faults ops (after op.perform s)

/-- A new instance on a heap there is. -/
def start (settings : Settings) (environment : Option String) (heap : Heap) : Beside Instance :=
  let (i, ring) := ofSettings settings environment heap.ring
  ⟨{ heap with ring }, i⟩

/-- What a poisoned instance answers to a call. -/
def Call.refusal (h : Heap) (poison : Fault) : Call → Fault
  | .resolveFor reference _ =>
    if h.blessed? reference = none then .mismatch .notBlessed else poison
  | _ => poison

/-! ### What one operation does to the poison -/

/-- The operation leaves the poison alone. -/
def Spares {α : Type} (x : OnInstance α) : Prop := ∀ p, Keeps (fun s => s.own.poison = p) x

/-- The operation leaves the poison alone, unless it returns a fatal fault, which is taken when
there is none. -/
def Reports {α : Type} (x : OnInstance α) : Prop :=
  ∀ s, Yields x s (fun _ t => t.own.poison = s.own.poison)
    fun e t => t.own.poison = poisonAfter e s.own.poison

/-- Nothing the operation fails with is fatal. -/
def Calm {σ α : Type} (x : EStateM Fault σ α) : Prop :=
  ∀ s, Yields x s (fun _ _ => True) fun e _ => e.isFatal = false

section
variable {σ α β : Type} {x : OnInstance α} {f : α → OnInstance β}

theorem poisonAfter_of_calm {e : Fault} (h : e.isFatal = false) (poison : Option Fault) :
    poisonAfter e poison = poison := by
  rw [poisonAfter, h]
  rfl

/-- A poison stays. -/
theorem poisonAfter_some (e p : Fault) : poisonAfter e (some p) = some p := by
  unfold poisonAfter
  split <;> rfl

theorem spares_onHeap (x : OnHeap α) : Spares (liftM x : OnInstance α) :=
  fun p => Keeps.onHeap (P := fun i : Instance => i.poison = p) x

/-- The poison is no part of the packages or the pads. -/
theorem spares_inside {part : Instance → σ} (put : Instance → σ → Instance)
    (h : ∀ i p, (put i p).poison = i.poison) (x : OnBeside σ α) : Spares (inside part put x) := by
  intro p s hs
  unfold inside
  cases x ⟨s.heap, part s.own⟩ with
  | ok a r => exact (h _ _).trans hs
  | error e r => exact (h _ _).trans hs

theorem spares_onPackages (x : OnRegistry α) : Spares (onPackages x) :=
  spares_inside (fun i registry => { i with registry }) (fun _ _ => rfl) x

theorem spares_onPads (x : OnPads α) : Spares (onPads x) :=
  spares_inside (fun i pads => { i with pads }) (fun _ _ => rfl) x

theorem Spares.reports (h : Spares x) (calm : Calm x) : Reports x := fun s =>
  (((h _).ends rfl).yields.and (calm s)).imp (fun _ _ q => q.1) fun e t q => by
    rw [q.1, poisonAfter_of_calm q.2]

/-- **A tracked operation** reports its faults. -/
theorem Spares.track (h : Spares x) : Reports (Instance.track x) := by
  intro s
  have spared := h s.own.poison (unreported s) rfl
  unfold Yields
  rw [track_apply]
  cases e : x (unreported s) with
  | ok a t => rw [e] at spared; exact spared
  | error f t => rw [e] at spared; exact congrArg (poisonAfter f) spared

/-- A poisoned instance fails with its poison, which stays. -/
theorem reports_checkUsable : Reports checkUsable := by
  intro s
  unfold Yields
  cases poison : s.own.poison with
  | none => rw [checkUsable_ok poison]; exact poison
  | some e => rw [checkUsable_error poison]; exact poison.trans (poisonAfter_some e e).symm

theorem Reports.bind (hx : Reports x) (hf : ∀ a, Reports (f a)) : Reports (x >>= f) := fun s =>
  (hx s).bind fun a t same => same ▸ hf a t

theorem Reports.pure (a : α) : Reports (pure a) := fun _ => rfl

theorem Reports.discard (h : Reports x) : Reports (discard x) := h.bind fun _ => .pure _

theorem Spares.guarded (h : Spares x) : Reports (Instance.guarded x) :=
  reports_checkUsable.bind fun _ => h.track

/-- A fault that is kept back until something is done to the heap. -/
theorem Reports.finally (h : Reports x) (g : Heap → Heap) :
    Reports (do let outcome ← attempt x; changeHeap g; outcome) := by
  intro s
  refine Yields.bind (Yields.attempt (h s)) ?_
  rintro (e | a) t same
  · exact same
  · exact same

/-! ### Operations that do not run out of memory -/

theorem Calm.lift {y : OnHeap α} (h : Calm y) :
    Calm (liftM y : OnInstance α) := by
  intro s
  have calm := h s.heap
  unfold Yields at calm ⊢
  rw [liftM_apply]
  cases e : y s.heap with
  | ok a t => trivial
  | error f t => rw [e] at calm; exact calm

theorem Calm.bind {y : EStateM Fault σ α} {g : α → EStateM Fault σ β} (hy : Calm y)
    (hg : ∀ a, Calm (g a)) : Calm (y >>= g) := fun s =>
  (hy s).bind fun a t _ => hg a t

theorem calm_makeRoom (c : Cell) (need : Room) :
    Calm (liftM (c.makeRoom need) : OnHeap Cell) := by
  intro s
  unfold Cell.makeRoom
  cases c.shape.growFor need with
  | none => rfl
  | some shape => trivial

theorem calm_attach (i : CellId) (kind : HookKind) (hook : Hook) :
    Calm (Heap.attach i kind hook) :=
  Calm.bind (fun _ => trivial) fun _ => Calm.bind (calm_makeRoom _ _) fun _ _ => trivial

theorem calm_bless (i : CellId) (package : Key) : Calm (Heap.bless i package) := by
  refine Calm.bind (fun _ => trivial) fun h => ?_
  cases h.referent? i with
  | none => exact fun _ => rfl
  | some j =>
    dsimp only
    split
    · exact fun _ => rfl
    · exact Calm.bind (calm_makeRoom _ _) fun _ _ => trivial

/-! ### Calls -/

theorem reports_definePackage (name : String) : Reports (definePackage name) :=
  (spares_onPackages _).guarded

/-- Names are interned without fail. -/
theorem reports_intern (name : String) : Reports (intern name) := by
  refine reports_checkUsable.bind fun _ s => ?_
  exact Eq.refl s.own.poison

theorem reports_defineMethod (package method : String) (code : CellId) :
    Reports (defineMethod package method code) := (spares_onPackages _).guarded

theorem reports_resolve (package method : String) : Reports (resolve package method) :=
  (spares_onPackages _).guarded

theorem reports_onHeap {y : OnHeap α} (calm : Calm y) : Reports (liftM y : OnInstance α) :=
  (spares_onHeap y).reports calm.lift

theorem calm_new (c : Cell) : Calm (Heap.new c) := fun _ => trivial

/-- **A call** reports its faults. -/
theorem Call.reports (c : Call) : Reports c.perform := by
  cases c with
  | newMap =>
    refine Reports.discard (reports_checkUsable.bind fun _ s => ?_)
    exact Eq.refl s.own.poison
  | reserve map expected => exact (spares_onHeap _).guarded
  | intern name => exact (reports_intern name).discard
  | definePackage name => exact (reports_definePackage name).discard
  | bless reference package =>
    exact (reports_definePackage package).bind fun _ => reports_onHeap (calm_bless _ _)
  | variableOf environment name anyCase =>
    refine (reports_checkUsable.bind fun _ => ?_).discard
    refine (reports_onHeap (calm_new _)).bind fun i => ?_
    exact (reports_onHeap (calm_attach _ _ _)).bind fun _ => .pure _
  | setParents name list => exact (spares_onPackages _).guarded.discard
  | defineMethod package method code => exact reports_defineMethod package method code
  | defineNative package method body =>
    refine (reports_intern method).bind fun name => ?_
    refine (reports_onHeap (calm_new _)).bind fun code => ?_
    exact (reports_defineMethod package method code).finally _
  | removeMethod package method => exact (spares_onPackages _).guarded.discard
  | linearize name => exact (spares_onPackages _).guarded.discard
  | linearizeBy algorithm name => exact (spares_onPackages _).guarded.discard
  | resolve package method => exact (reports_resolve package method).discard
  | resolveSuper package method => exact (spares_onPackages _).guarded.discard
  | resolveFor reference method =>
    have read : Reports (Beside.onHeap : OnInstance Heap) := fun _ => rfl
    refine (read.bind fun h => ?_).discard
    cases h.blessed? reference with
    | none => exact fun _ => rfl
    | some package => exact reports_resolve package.text method
  | can package method => exact ((reports_resolve package method).bind fun _ => .pure _).discard
  | isA package ancestor => exact (spares_onPackages _).guarded.discard
  | openUnit name outer => exact (spares_onPads _).guarded.discard
  | declare u name sigil declarator => exact (spares_onPads _).guarded.discard
  | makeClosure u outer => exact (spares_onPads _).guarded.discard

/-- **A poisoned instance** refuses every call, and nothing changes. -/
theorem Call.perform_poisoned {s : Beside Instance} {e : Fault} (h : s.own.poison = some e)
    (c : Call) : c.perform s = .error (c.refusal s.heap e) s := by
  have discarded {α : Type} {x : OnInstance α} {f : Fault} (refused : x s = .error f s) :
      (discard x : OnInstance Unit) s = .error f s := bind_error refused
  cases c with
  | newMap => exact discarded (checkUsable_bind_error _ h)
  | reserve map expected => exact guarded_error _ h
  | intern name => exact discarded (checkUsable_bind_error _ h)
  | definePackage name => exact discarded (guarded_error _ h)
  | bless reference package => exact bind_error (guarded_error _ h)
  | variableOf environment name anyCase => exact discarded (checkUsable_bind_error _ h)
  | setParents name list => exact discarded (guarded_error _ h)
  | defineMethod package method code => exact guarded_error _ h
  | defineNative package method body => exact bind_error (checkUsable_bind_error _ h)
  | removeMethod package method => exact discarded (guarded_error _ h)
  | linearize name => exact discarded (guarded_error _ h)
  | linearizeBy algorithm name => exact discarded (guarded_error _ h)
  | resolve package method => exact discarded (guarded_error _ h)
  | resolveSuper package method => exact discarded (guarded_error _ h)
  | resolveFor reference method =>
    refine discarded ((bind_ok rfl).trans ?_)
    dsimp only [Call.refusal]
    cases blessed : s.heap.blessed? reference with
    | none => rfl
    | some package => exact guarded_error _ h
  | can package method => exact discarded (bind_error (guarded_error _ h))
  | isA package ancestor => exact discarded (guarded_error _ h)
  | openUnit name outer => exact discarded (guarded_error _ h)
  | declare u name sigil declarator => exact discarded (guarded_error _ h)
  | makeClosure u outer => exact discarded (guarded_error _ h)

end

/-! ### Steps and runs -/

/-- **A step.**  The poison there is stays, and the first is the fatal fault that is returned. -/
theorem Op.poison (op : Op) (s : Beside Instance) :
    (after op.perform s).own.poison = s.own.poison.or ((op.fault? s).filter Fault.isFatal) := by
  have seen (h : Reports op.perform) (is : op.isSeen = true) :
      (after op.perform s).own.poison =
        s.own.poison.or ((op.fault? s).filter Fault.isFatal) := by
    have reports := h s
    unfold after fault?
    unfold Yields at reports
    cases result : op.perform s with
    | ok a t => rw [result] at reports; exact reports.trans (Option.or_none).symm
    | error e t =>
      rw [result] at reports
      dsimp only at reports ⊢
      rw [reports, if_pos is, poisonAfter, Option.filter_some]
      split
      · rfl
      · exact (Option.or_none).symm
  have unseen (h : Spares op.perform) (not : op.isSeen = false) :
      (after op.perform s).own.poison =
        s.own.poison.or ((op.fault? s).filter Fault.isFatal) := by
    have none : op.fault? s = none := by
      unfold fault?
      rw [not]
      cases op.perform s <;> rfl
    rw [none]
    exact ((h _).after rfl).trans (Option.or_none).symm
  cases op with
  | call c => exact seen c.reports rfl
  | track x => exact seen (spares_onHeap x).track rfl
  | cells x => exact unseen (spares_onHeap x) rfl
  | packages x => exact unseen (spares_onPackages x) rfl
  | pads x => exact unseen (spares_onPads x) rfl
  | sweep => exact unseen (fun p => (spares_onPads _ p).discard) rfl
  | advise a => exact unseen (fun _ _ => id) rfl
  | takeAdvisories => exact unseen (fun _ _ => id) rfl

/-- The first of several fatal faults poisons. -/
theorem poison_run_from (ops : List Op) (s : Beside Instance) :
    (run ops s).own.poison = s.own.poison.or ((faults ops s).find? Fault.isFatal) := by
  induction ops generalizing s with
  | nil => exact (Option.or_none).symm
  | cons op ops ih =>
    show (run ops (after op.perform s)).own.poison = _
    rw [ih, op.poison, faults, List.find?_append, Option.or_assoc]
    cases op.fault? s with
    | none => rfl
    | some e => cases fatal : e.isFatal <;> simp [List.find?, Option.filter, fatal]

theorem run_append (ops more : List Op) (s : Beside Instance) :
    run (ops ++ more) s = run more (run ops s) := List.foldl_append

/-- **Poison is final.**  Whatever happens to a new instance, it is poisoned by the first fatal
fault that it returns and by nothing else.  From then on, whatever else happens, it keeps the
poison; and every call answers it and changes nothing, except that a method is not looked up for
what is no object, poisoned or not. -/
theorem poison_run (settings : Settings) (environment : Option String) (heap : Heap)
    (ops : List Op) :
    let s := start settings environment heap
    (run ops s).own.poison = (faults ops s).find? Fault.isFatal ∧
      ∀ e, (run ops s).own.poison = some e → ∀ (more : List Op) (c : Call),
        let t := run (ops ++ more) s
        t.own.poison = some e ∧ c.perform t = .error (c.refusal t.heap e) t := by
  intro s
  refine ⟨(poison_run_from ops s).trans Option.none_or, ?_⟩
  intro e poison more c t
  have stays : t.own.poison = some e := by
    show (run (ops ++ more) s).own.poison = some e
    rw [run_append, poison_run_from, poison]
    rfl
  exact ⟨stays, c.perform_poisoned stays⟩

/-- A hash is asked to make room for more keys than there can be. -/
theorem poison_run_reserve :
    let ops : List Op := [.call .newMap, .call (.reserve 0 UInt64.size)]
    let t := run (ops ++ [.call (.intern "x"), .sweep]) (start {} none {})
    (run ops (start {} none {})).own.poison = some (.outOfMemory (UInt64.size - 1)) ∧
      t.own.poison = some (.outOfMemory (UInt64.size - 1)) ∧
      (Call.bless 0 "P").perform t = .error (.outOfMemory (UInt64.size - 1)) t := by
  intro ops t
  have poison : (run ops (start {} none {})).own.poison =
      some (.outOfMemory (UInt64.size - 1)) := by
    decide +kernel
  exact ⟨poison, (poison_run {} none {} ops).2 _ poison _ (.bless 0 "P")⟩

/-- Looking up a method for what is no object fails as if the instance were not poisoned. -/
theorem resolveFor_outruns_poison :
    let s := run [.call .newMap, .call (.reserve 0 UInt64.size)] (start {} none {})
    s.own.poison = some (.outOfMemory (UInt64.size - 1)) ∧
      (Call.resolveFor 0 "m").perform s = .error (.mismatch .notBlessed) s := by
  intro s
  have poison : s.own.poison = some (.outOfMemory (UInt64.size - 1)) := by decide +kernel
  have unblessed : s.heap.blessed? 0 = none := by decide +kernel
  refine ⟨poison, (Call.perform_poisoned poison _).trans ?_⟩
  rw [Call.refusal, if_pos unblessed]

end ScriptCore.Instance
