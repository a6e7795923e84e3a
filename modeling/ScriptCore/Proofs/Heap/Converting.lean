import ScriptCore.Heap.Convert
import ScriptCore.Proofs.Cell.Valid
import ScriptCore.Proofs.Outcome

/-!
# Heap — what a read without hooks is made of

A read of a number or a text converts the value of its cell and reports what it finds amiss, and
does nothing else.  What conversions and reports keep, such reads keep.

* `Cell.Converts`: what a conversion leaves of a cell.
* `Converting P i`: conversions of the cell `i`, and reports, keep `P`.  Then `Converting.readInt`,
  `Converting.readFloat`, `Converting.readBytes` and `Converting.readText` say so of reads.
-/

namespace ScriptCore

namespace Cell
variable {c d e : Cell} {need : Room} {n : Number} {exact : Bool}

/-- What a conversion leaves of a cell: it may have climbed, and keeps another form of its value. -/
structure Converts (c d : Cell) : Prop where
  scalar : c.shape.isAggregate = false → d.shape.isAggregate = false
  aggregate : c.shape.isAggregate = true → d.shape = c.shape
  payload : d.payload = c.payload
  refOk : d.flags.refOk = c.flags.refOk
  inHooks : d.flags.inHooks = c.flags.inHooks

theorem Converts.trans (k : c.Converts d) (k' : d.Converts e) : c.Converts e where
  scalar is := k'.scalar (k.scalar is)
  aggregate is := (k'.aggregate ((congrArg _ (k.aggregate is)).trans is)).trans (k.aggregate is)
  payload := k'.payload.trans k.payload
  refOk := k'.refOk.trans k.refOk
  inHooks := k'.inHooks.trans k.inHooks

/-- Another form is kept. -/
theorem Converts.of_same (shape : d.shape = c.shape) (payload : d.payload = c.payload)
    (refOk : d.flags.refOk = c.flags.refOk) (inHooks : d.flags.inHooks = c.flags.inHooks) :
    c.Converts d :=
  ⟨fun is => (congrArg _ shape).trans is, fun _ => shape, payload, refOk, inHooks⟩

theorem Converts.makeRoom_bind {f : Cell → Except Fault Cell}
    (made : c.makeRoomKeeping need >>= f = .ok d) (kept : ∀ e, f e = .ok d → e.Converts d) :
    c.Converts d := by
  cases grown : c.makeRoomKeeping need with
  | error why =>
    rw [grown] at made
    cases made
  | ok e =>
    obtain ⟨t, grows, rfl⟩ := makeRoom_ok grown
    rw [grown] at made
    have climbed : c.Converts { c with shape := t } :=
      ⟨grows.scalar, grows.aggregate, rfl, rfl, rfl⟩
    exact climbed.trans (kept { c with shape := t } made)

theorem Converts.keepNumber (made : c.keepNumber n exact = .ok d) : c.Converts d := by
  cases n with
  | int v =>
    refine makeRoom_bind made fun e made => ?_
    cases made
    exact .of_same rfl rfl rfl rfl
  | float f =>
    refine makeRoom_bind made fun e made => ?_
    cases made
    split <;> exact .of_same rfl rfl rfl rfl

end Cell

namespace Heap

/-- Conversions of the cell keep `P`, and so do reports. -/
structure Converting (P : Heap → Prop) (i : CellId) : Prop where
  converts : ∀ h d, (h.cell i).Converts d → P h → P (h.setCell i d)
  reports : ∀ h reports, P h → P { h with reports }

namespace Converting
variable {P : Heap → Prop} {i : CellId}

theorem report (k : Converting P i) (sink : Sink) (a : Advisory) : Keeps P (report sink a) := by
  cases sink with
  | silent => exact Keeps.pure _
  | site n => exact Keeps.modify fun h => k.reports h _

theorem sourceOf : Keeps P (sourceOf i) := Keeps.read fun _ p => Ends.outcome (fun _ _ => p) p

theorem keep (k : Converting P i) {f : Cell → Except Fault Cell}
    (made : ∀ c d, f c = .ok d → c.Converts d) : Keeps P (keep i f) :=
  Keeps.read fun h p => Ends.outcome (fun d e => k.converts h d (made _ d e) p) p

theorem numify (k : Converting P i) (b : Bytes) (sink : Sink) : Keeps P (numify i b sink) := by
  unfold Heap.numify
  rcases parseNumber b with ⟨n, numeric⟩
  refine (k.keep fun _ _ => Cell.Converts.keepNumber).bind fun _ => ?_
  cases numeric with
  | true => exact Keeps.pure _
  | false => exact (k.report _ _).bind fun _ => Keeps.pure _

theorem readInt (k : Converting P i) (sink : Sink) : Keeps P (readInt i sink) := by
  refine sourceOf.bind fun source => ?_
  cases source with
  | int v => exact Keeps.pure _
  | float v =>
    dsimp only
    split
    · refine (k.keep fun c d made => ?_).bind fun _ => Keeps.pure _
      refine .makeRoom_bind made fun e made => ?_
      cases made
      exact .of_same rfl rfl rfl rfl
    · exact Keeps.pure _
  | ref j => exact Keeps.pure _
  | text b => exact (k.numify b sink).bind fun _ => Keeps.pure _
  | nothing => exact (k.report _ _).bind fun _ => Keeps.pure _

theorem readFloat (k : Converting P i) (sink : Sink) : Keeps P (readFloat i sink) := by
  refine sourceOf.bind fun source => ?_
  cases source with
  | int v =>
    refine (k.keep fun c d made => ?_).bind fun _ => Keeps.pure _
    refine .makeRoom_bind made fun e made => ?_
    cases made
    exact .of_same rfl rfl rfl rfl
  | float v => exact Keeps.pure _
  | ref j => exact Keeps.pure _
  | text b => exact (k.numify b sink).bind fun _ => Keeps.pure _
  | nothing => exact (k.report _ _).bind fun _ => Keeps.pure _

theorem keepText (k : Converting P i) (cs : List Char) : Keeps P (keepText i cs) := by
  refine (k.keep fun c d made => ?_).bind fun _ => Keeps.pure _
  refine .makeRoom_bind made fun e made => ?_
  cases made
  exact .of_same rfl rfl rfl rfl

theorem readBytes (k : Converting P i) (sink : Sink) : Keeps P (readBytes i sink) := by
  refine sourceOf.bind fun source => Keeps.read fun h p => ?_
  by_cases text : (h.cell i).flags.textOk = true
  · rw [if_pos text]
    exact p
  · rw [if_neg text]
    cases source with
    | int v => exact (k.keepText _).ends p
    | float v => exact (k.keepText _).ends p
    | ref j => exact p
    | text b => exact p
    | nothing => exact ((k.report _ _).bind fun _ => Keeps.pure _).ends p

theorem readText (k : Converting P i) (sink : Sink) : Keeps P (readText i sink) :=
  (k.readBytes sink).bind fun _ => Keeps.read fun _ p => p

end Converting

end Heap

end ScriptCore
