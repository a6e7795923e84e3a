import ScriptCore.Instance.Operations
import ScriptCore.Proofs.Outcome

/-!
# Instance — what a host may call

A `Call` is one request to an instance whose outcome the host gets to see.  Most are one operation
on the packages or the pads, guarded: a poisoned instance refuses (`guarded_error`), any other one
tracks the operation (`guarded_ok`), and `track_apply` says what that comes to.
-/

namespace ScriptCore

namespace Instance
open Beside

/-- What a host may ask an instance for. -/
inductive Call
  | newMap
  | reserve (map : CellId) (expected : Nat)
  | intern (name : String)
  | definePackage (name : String)
  | bless (reference : CellId) (package : String)
  | variableOf (environment : Nat) (name : String) (anyCase : Bool)
  | setParents (name : String) (list : List String)
  | defineMethod (package method : String) (code : CellId)
  | defineNative (package method : String) (body : Native)
  | removeMethod (package method : String)
  | linearize (name : String)
  | linearizeBy (algorithm : Lineage.Algorithm) (name : String)
  | resolve (package method : String)
  | resolveSuper (package method : String)
  | resolveFor (reference : CellId) (method : String)
  | can (package method : String)
  | isA (package ancestor : String)
  | openUnit (name : Option String) (outer : Option Nat)
  | declare (u : Nat) (name : String) (sigil : Sigil) (declarator : Declarator)
  | makeClosure (u : Nat) (outer : Option ActivationId)

/-- Carries out a call. -/
def Call.perform : Call → OnInstance Unit
  | newMap => discard Instance.newMap
  | reserve map expected => Instance.reserve map expected
  | intern name => discard (Instance.intern name)
  | definePackage name => discard (Instance.definePackage name)
  | bless reference package => Instance.bless reference package
  | variableOf environment name anyCase => discard (Instance.variableOf environment name anyCase)
  | setParents name list => discard (Instance.setParents name list)
  | defineMethod package method code => Instance.defineMethod package method code
  | defineNative package method body => Instance.defineNative package method body
  | removeMethod package method => discard (Instance.removeMethod package method)
  | linearize name => discard (Instance.linearize name)
  | linearizeBy algorithm name => discard (Instance.linearizeBy algorithm name)
  | resolve package method => discard (Instance.resolve package method)
  | resolveSuper package method => discard (Instance.resolveSuper package method)
  | resolveFor reference method => discard (Instance.resolveFor reference method)
  | can package method => discard (Instance.can package method)
  | isA package ancestor => discard (Instance.isA package ancestor)
  | openUnit name outer => discard (Instance.openUnit name outer)
  | declare u name sigil declarator => discard (Instance.declare u name sigil declarator)
  | makeClosure u outer => discard (Instance.makeClosure u outer)

section
variable {α : Type} {s : Beside Instance} {e : Fault}

/-- An instance that is poisoned refuses. -/
theorem checkUsable_error (h : s.own.poison = some e) : checkUsable s = .error e s := by
  unfold checkUsable
  rw [self_bind, h]
  rfl

theorem checkUsable_ok (h : s.own.poison = none) : checkUsable s = .ok () s := by
  unfold checkUsable
  rw [self_bind, h]
  rfl

theorem checkUsable_bind_error (x : Unit → OnInstance α) (h : s.own.poison = some e) :
    (checkUsable >>= x) s = .error e s := bind_error (checkUsable_error h)

theorem checkUsable_bind_ok (x : Unit → OnInstance α) (h : s.own.poison = none) :
    (checkUsable >>= x) s = x () s := bind_ok (checkUsable_ok h)

theorem guarded_error (x : OnInstance α) (h : s.own.poison = some e) :
    guarded x s = .error e s := checkUsable_bind_error _ h

/-- What a tracked operation starts from: nothing is reported yet. -/
def unreported (s : Beside Instance) : Beside Instance := ⟨{ s.heap with reports := #[] }, s.own⟩

/-- What a tracked operation leaves: the queue has the new reports and the heap the old ones. -/
def reported (s t : Beside Instance) : Beside Instance :=
  ⟨{ t.heap with reports := s.heap.reports },
    { t.own with queue := t.own.queue.addAll t.heap.reports.toList }⟩

/-- What a fault does to a poison: a fatal one is taken where there is none. -/
def poisonAfter (e : Fault) (poison : Option Fault) : Option Fault :=
  if e.isFatal then poison.or (some e) else poison

/-- **A tracked operation** is the operation, but for the reports and the poison. -/
theorem track_apply (x : OnInstance α) (s : Beside Instance) :
    track x s = match x (unreported s) with
      | .ok a t => .ok a (reported s t)
      | .error e t => .error e { reported s t with
          own := { (reported s t).own with poison := poisonAfter e t.own.poison } } := by
  unfold track
  have clear : changeHeap (fun h => { h with reports := #[] }) s = .ok () (unreported s) := rfl
  refine (bind_ok (x := onHeap) (s := s) rfl).trans ((bind_ok clear).trans ?_)
  cases he : x (unreported s) with
  | ok a t =>
    have ran : attempt x (unreported s) = .ok (.ok a) t := by
      unfold attempt
      rw [he]
    exact (bind_ok ran).trans rfl
  | error e t =>
    have ran : attempt x (unreported s) = .ok (.error e) t := by
      unfold attempt
      rw [he]
    refine (bind_ok ran).trans ?_
    unfold poisonAfter
    cases fatal : e.isFatal with
    | false =>
      simp only [fatal]
      rfl
    | true =>
      simp only [fatal]
      rfl

end

end Instance

end ScriptCore
