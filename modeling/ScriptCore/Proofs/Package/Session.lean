import ScriptCore.Proofs.Package.Dispatch

/-!
# Package — everything one can do to packages

An `Op` is one operation on a registry, or what a host does to code meanwhile; `run` goes on after
those that fail.

* `linearizeBy_isOrder`: whatever was done to a new registry, a lineage it gives is the order from
  scratch, computed from the parents it would read now without memory or limit.
-/

namespace ScriptCore.Registry
open Beside Key Lineage

/-- The name of a method: any but that of the parent list. -/
abbrev MethodName := { name : String // name ≠ parentEntry }

/-- An operation on packages, or on code beside them. -/
inductive Op
  | define (package : String)
  | setParents (package : String) (list : List String)
  | parentsChanged (package : String)
  | defineMethod (package : String) (method : MethodName) (code : CellId)
  | removeMethod (package : String) (method : MethodName)
  | linearizeBy (algorithm : Algorithm) (package : String)
  | isA (package ancestor : String)
  | resolve (package method : String)
  | resolveSuper (package method : String)
  | methodsChanged
  | forgetAll
  | newCode (routine : Routine)
  | letGo (code : CellId)

/-- Carries out an operation. -/
def Op.perform : Op → OnRegistry Unit
  | define package => discard (Registry.define package)
  | setParents package list => discard (Registry.setParents package list)
  | parentsChanged package => discard (Registry.parentsChanged package)
  | defineMethod package method code => Registry.defineMethod package method code
  | removeMethod package method => discard (Registry.removeMethod package method)
  | linearizeBy algorithm package => discard (Registry.linearizeBy algorithm package)
  | isA package ancestor => discard (Registry.isA package ancestor)
  | resolve package method => discard (Registry.resolve package method)
  | resolveSuper package method => discard (Registry.resolveSuper package method)
  | methodsChanged => Registry.methodsChanged
  | forgetAll => Registry.forgetAll
  | newCode routine => discard (Heap.new (.ofRoutine routine) : OnHeap CellId)
  | letGo code => do
    discard (Heap.routine code : OnHeap Routine)
    changeHeap (·.release code)

/-- Carries out operations one after the other, whether they fail or not. -/
def run (ops : List Op) (s : Beside Registry) : Beside Registry :=
  ops.foldl (fun s op => after op.perform s) s

/-- A new registry on an empty heap, with pools of the given seeds. -/
def start (seeds : Array Seed) (supply : Supply) (pool : Nat) (settings : Settings) :
    Beside Registry :=
  ⟨{ ring := .ofSeeds seeds supply }, .inPool (.ofSeeds seeds supply) pool settings⟩

section
variable {lists : Bytes × Bool → List String} {seed : Seed} {s : Beside Registry}

/-! ### Steps and runs -/

theorem fit_start (seeds : Array Seed) (supply : Supply) (pool : Nat) (settings : Settings) :
    Fit (fun _ => []) ((Keyring.ofSeeds seeds supply).pool pool).seed
      (start seeds supply pool settings) := by
  have new : Table.Housed (.inPool (.ofSeeds seeds supply) pool : Table CellId)
      (.ofSeeds seeds supply) := by
    refine ⟨Table.sound_new _ false (some pool), Keyring.sound_ofSeeds seeds supply, ?_⟩
    rintro p hp
    cases hp
    rfl
  have empty : (.inPool (.ofSeeds seeds supply) pool : Table CellId).Shows ∅ := fun x v => by
    rw [Finmap.lookup_empty]
    exact iff_of_false (by simp) Table.not_binds_new
  obtain ⟨housed, shown⟩ := new.setMarks empty false true
  refine ⟨⟨housed, rfl, rfl, rfl, fun i c hc => ?_, fun _ => nofun, fun _ => ([], false), ∅, shown,
    fun _ _ => rfl, fun x i hx => ?_⟩, fun k algorithm l hl => ?_, fun _ k _ q hq => ?_⟩
  · have := Heap.lt_size hc
    cases this
  · rw [Finmap.lookup_empty] at hx
    cases hx
  · cases algorithm <;> cases hl
  · cases hq

theorem Fit.newCode (q : Routine) :
    Keeps (Fit lists seed) (liftM (Heap.new (.ofRoutine q)) : OnRegistry CellId) := by
  refine Keeps.of_ends fun s fit => ?_
  have steady := Heap.steady_allocate s.heap (c := .ofRoutine q) rfl
  exact Ends.of_ok rfl (fit.of_remembers (fit.1.onHeap steady fun _ => False.elim) ⟨rfl, rfl⟩)

theorem Fit.letGo (code : CellId) : Keeps (Fit lists seed) (Op.letGo code).perform := by
  refine Keeps.of_ends fun s fit => ?_
  have read : Ends (discard (Heap.routine code : OnHeap Routine) : OnRegistry Unit) s
      (fun _ t => Fit lists seed t ∧ t.heap.IsCode code) (Fit lists seed) := by
    refine Ends.bind (((ends_routine s.heap code).lift (s := s)).imp (fun _ _ => id) ?_) ?_
    · rintro ⟨h, r⟩ ⟨rfl, rfl⟩
      exact fit
    · rintro q ⟨h, r⟩ ⟨rfl, rfl, c, hc, hq⟩
      refine Ends.of_ok rfl ⟨fit, Heap.lt_size hc, fun d hd => ⟨q, ?_⟩⟩
      rw [← hq, Option.some.inj (hd.symm.trans hc)]
  refine Ends.bind read ?_
  rintro - t ⟨fit, isCode⟩
  refine Ends.of_ok rfl (fit.of_remembers (fit.1.letGo fun i hi => ?_) ⟨rfl, rfl⟩)
  rw [List.mem_singleton] at hi
  exact hi ▸ isCode

/-- The parent lists after an operation: only one operation changes them. -/
def Op.listsAfter (lists : Bytes × Bool → List String) : Op → Bytes × Bool → List String
  | setParents package list => Function.update lists (Spelling.ofText package).letters list
  | _ => lists

/-- **A step.**  What is remembered stays right, of the lists after the step. -/
theorem Fit.perform (fit : Fit lists seed s) (op : Op) :
    Fit (op.listsAfter lists) seed (after op.perform s) := by
  cases op with
  | define package => exact (Fit.define package).discard.after fit
  | setParents package list =>
    have set : Leads (Fit lists seed) (Op.setParents package list).perform
        (fun _ => Fit (Function.update lists (Spelling.ofText package).letters list) seed)
        fun _ => False :=
      (Fit.setParents package list).bind fun _ => Leads.pure fun _ => id
    exact set.after fit (fun _ => id) False.elim
  | parentsChanged package => exact (Fit.parentsChanged package).discard.after fit
  | defineMethod package method code =>
    exact (Fit.defineMethod package method.2 code).after fit
  | removeMethod package method => exact (Fit.removeMethod package method.2).discard.after fit
  | linearizeBy algorithm package =>
    have computed : Keeps (Fit lists seed) (Registry.linearizeBy algorithm package) :=
      Keeps.of_ends fun s fit => (Fit.linearizeBy algorithm package fit).imp (fun _ _ q => q.1)
        fun _ => id
    exact computed.discard.after fit
  | isA package ancestor => exact (Fit.isA package ancestor).discard.after fit
  | resolve package method => exact (Fit.resolve package method).discard.after fit
  | resolveSuper package method => exact (Fit.resolveSuper package method).discard.after fit
  | methodsChanged => exact Fit.methodsChanged.after fit
  | forgetAll => exact Fit.forgetAll.after fit
  | newCode routine => exact (Fit.newCode routine).discard.after fit
  | letGo code => exact (Fit.letGo code).after fit

/-- **A run.** -/
theorem Fit.run (fit : Fit lists seed s) (ops : List Op) :
    ∃ lists', Fit lists' seed (run ops s) := by
  induction ops generalizing lists s with
  | nil => exact ⟨lists, fit⟩
  | cons op ops ih => exact ih (fit.perform op)

/-- An order up to identities, as one of the keys there are. -/
theorem HasOrder.isOrder {algorithm : Algorithm} {package last : Key} {order : List Key}
    (is : HasOrder lists seed algorithm package order) (hl : last.plain = lastKey seed) :
    ∃ order', IsOrder (graph lists seed) last algorithm package order' ∧
      List.Forall₂ (fun a b => a.same b = true) order order' := by
  obtain ⟨levels, is⟩ := is
  rw [← hl, ← orderWithin_plain map_plain_graph] at is
  obtain ⟨order', is', same⟩ := Option.map_eq_some_iff.mp is
  refine ⟨order', ⟨levels, is'⟩, ?_⟩
  have : List.Forall₂ Eq (order.map plain) (order'.map plain) := by
    rw [same, List.forall₂_eq_eq_eq]
  rw [List.forall₂_map_left_iff, List.forall₂_map_right_iff] at this
  exact this.imp fun _ _ => same_iff.mpr

end

/-- **What is remembered is right.**  After any operations on a new registry, whether they failed or
not, the parents of every package can be read, and a lineage that is given is the order that
follows from these parents alone. -/
theorem linearizeBy_isOrder (seeds : Array Seed) (supply : Supply) (pool : Nat)
    (settings : Settings) (ops : List Op) (algorithm : Algorithm) (name : String) :
    let s := run ops (start seeds supply pool settings)
    ∃ parents : Key → List Key, (∀ k, s.own.parents k s.heap = .ok (parents k) s.heap) ∧
      Ends (linearizeBy algorithm name) s (fun l t =>
        (∀ k, t.own.parents k t.heap = .ok (parents k) t.heap) ∧
        ∃ order, IsOrder parents (t.own.keyOf universal) algorithm (t.own.keyOf name) order ∧
          List.Forall₂ (fun a b => a.same b = true) l.order order) fun _ => True := by
  intro s
  obtain ⟨lists, fit⟩ := (fit_start seeds supply pool settings).run ops
  refine ⟨graph lists _, fit.1.parents, ?_⟩
  refine (Fit.linearizeBy algorithm name fit).imp ?_ fun _ _ => trivial
  rintro l t ⟨fit', is⟩
  -- the name has the same letters before and after, and the seed is one
  have same : (s.own.keyOf name).plain = (t.own.keyOf name).plain := by
    obtain ⟨hash, letters⟩ := fit.1.keyOf name
    obtain ⟨hash', letters'⟩ := fit'.1.keyOf name
    exact IsHashed.plain_eq hash hash' (letters.trans letters'.symm)
  unfold HasOrder at is
  rw [same] at is
  exact ⟨fit'.1.parents, HasOrder.isOrder is fit'.1.plain_universal⟩

end ScriptCore.Registry
