import ScriptCore.Heap.Hooks
import ScriptCore.Proofs.Outcome

/-!
# Heap — what hooks are made of

The hooks of a cell write and read it, attach and detach, log, count their acts, and set marks and
variables.  What these operations keep, hooks keep.

* `Hooked P i acts`: each operation that a hook of the cell `i` may carry out keeps `P`, of the
  attachments that may act.
* `Hooked.fire`, `Hooked.runHooks`: so do the attachments, and all of them in turn.
-/

namespace ScriptCore.Heap

/-- What the hooks of a cell are made of keeps `P`.  Only attachments with `acts` do act. -/
structure Hooked (P : Heap → Prop) (i : CellId) (acts : Attachment → Prop) : Prop where
  assignInt : ∀ v, Keeps P (assignInt i v)
  assignText : ∀ s, Keeps P (assignText i s)
  undefine : Keeps P (undefine i)
  readText : Keeps P (readText i .silent)
  attach : ∀ kind hook, Keeps P (attach i kind hook)
  detach : ∀ kind, Keeps P (detach i kind)
  log : ∀ event, Keeps P (log event)
  noteFired : ∀ a, acts a → Keeps P (noteFired a)
  setTaint : ∀ h t on, P h → P (h.setTaint t on)
  tainted : ∀ h on, P h → P (h.updateCell i fun c => { c with
    flags := { c.flags with tainted := on } })
  inHooks : ∀ h on, P h → P (h.updateCell i fun c => { c with
    flags := { c.flags with inHooks := on } })

namespace Hooked
variable {P : Heap → Prop} {i : CellId} {acts : Attachment → Prop} {a : Attachment} {h : Heap}

theorem perform (k : Hooked P i acts) (acting : acts a) (action : Action) :
    Keeps P (perform i a action) := by
  cases action with
  | tally =>
    exact (k.noteFired a acting).bind fun _ => Keeps.read fun _ p => (k.assignInt _).ends p
  | refuse => exact Keeps.throw _
  | attach kind label => exact k.attach kind _
  | detach kind => exact (k.detach kind).discard
  | upcase => exact k.readText.bind fun _ => k.assignText _
  | «show» => exact k.readText.bind fun _ => k.log _
  | wipe => exact k.undefine

theorem materialize (k : Hooked P i acts) (acting : acts a) (e : Nat) (name : String)
    (anyCase : Bool) : Keeps P (materialize i a e name anyCase) := by
  refine Keeps.read fun h p => ?_
  split
  · refine Keeps.ends (Keeps.bind (k.noteFired a acting) fun _ => Keeps.read fun h p => ?_) p
    split
    · exact (k.assignText _).ends p
    · exact k.undefine.ends p
  · exact p

theorem writeThrough (k : Hooked P i acts) (acting : acts a) {e : Nat}
    (stored : ∀ h f, P h → P (h.updateEnvironment e f)) (name : String) (anyCase : Bool) :
    Keeps P (writeThrough i a e name anyCase) := by
  refine (k.noteFired a acting).bind fun _ => Keeps.read fun h p => ?_
  split
  · exact Keeps.ends (k.readText.bind fun _ => Keeps.modify fun h => stored h _) p
  · exact stored h _ p

/-- **What an attachment does** keeps `P`, if changes of variables do: before a read there are
none. -/
theorem fire (k : Hooked P i acts) {phase : Phase}
    (stored : phase ≠ .get → ∀ h e f, P h → P (h.updateEnvironment e f)) (acting : acts a) :
    Keeps P (fire phase i a) := by
  obtain ⟨kind, hook, number⟩ := a
  cases hook with
  | taint t =>
    cases phase with
    | get =>
      refine Keeps.modify fun h p => ?_
      split
      · exact k.setTaint h t true p
      · exact p
    | set => exact Keeps.modify fun h => k.tainted h (h.taint t)
    | clear => exact Keeps.pure _
  | environment e name anyCase =>
    cases phase with
    | get => exact k.materialize acting e name anyCase
    | set => exact k.writeThrough acting (fun h => stored nofun h e) name anyCase
    | clear => exact Keeps.modify fun h => stored nofun h e _
  | readOnly => exact Keeps.pure _
  | host hooks => exact (k.log _).bind fun _ => Keeps.forM (k.perform acting) _

/-- **The hooks of a cell** keep `P`, whether they fail or not. -/
theorem runHooks (k : Hooked P i acts) {phase : Phase}
    (stored : phase ≠ .get → ∀ h e f, P h → P (h.updateEnvironment e f)) (p : P h)
    (acting : ∀ a ∈ (h.cell i).hooks, acts a) :
    Ends (runHooks phase i) h (fun _ => P) P := by
  refine Ends.read ?_
  dsimp only
  split
  · exact p
  · have mark (on : Bool) : Keeps P (markInHooks i on) := Keeps.modify fun h => k.inHooks h on
    have fires : Keeps P ((h.cell i).hooks.forM (Heap.fire phase i)) :=
      Leads.forM fun a ha => k.fire stored (acting a ha)
    refine Keeps.ends ((mark true).bind fun _ => fires.attempt.bind fun _ => ?_) p
    exact (mark false).bind fun _ => Keeps.outcome _

end Hooked

end ScriptCore.Heap
