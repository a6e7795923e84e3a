import ScriptCore.Heap.Reference

/-!
# Heap — what lives beside a heap

Packages and pads hold handles on cells.  Each is a value of its own type, beside the heap that
its cells are on; an operation on it may change both, and what it did before failing stays done.
-/

namespace ScriptCore

/-- A heap and something of its own that lives beside it. -/
structure Beside (σ : Type) where
  heap : Heap
  own : σ

/-- Operations on a heap and what lives beside it. -/
abbrev OnBeside (σ : Type) := EStateM Fault (Beside σ)

variable {σ τ α : Type}

instance liftHeap : MonadLift OnHeap (OnBeside σ) where
  monadLift x := fun s =>
    match x s.heap with
    | .ok a heap => .ok a { s with heap }
    | .error e heap => .error e { s with heap }

namespace Beside

/-- What lives beside the heap. -/
def self : OnBeside σ σ := return (← get).own

/-- The heap. -/
def onHeap : OnBeside σ Heap := return (← get).heap

/-- Changes what lives beside the heap. -/
def changeSelf (f : σ → σ) : OnBeside σ Unit := modify fun s => { s with own := f s.own }

/-- Changes the heap. -/
def changeHeap (f : Heap → Heap) : OnBeside σ Unit := modify fun s => { s with heap := f s.heap }

/-- An operation on a part, as one on the whole. -/
def inside (part : τ → σ) (put : τ → σ → τ) (x : OnBeside σ α) : OnBeside τ α := fun s =>
  match x ⟨s.heap, part s.own⟩ with
  | .ok a r => .ok a ⟨r.heap, put s.own r.own⟩
  | .error e r => .error e ⟨r.heap, put s.own r.own⟩

end Beside

end ScriptCore
