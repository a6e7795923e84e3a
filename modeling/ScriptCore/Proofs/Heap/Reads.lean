import ScriptCore.Proofs.Cell.Valid
import ScriptCore.Proofs.Heap.Steady

/-!
# Heap — reading a scalar that no hook watches

A read of such a cell never fails.  What it answers, what it reports and what it leaves of the cell
follow from the cell, from what is alive and from how the cell is called as a reference: `answer`,
`advice` and `leaves` say it without a heap, and `look` puts the reads of a list together.

* `observe_eq`: one read.
* `mapM_observe`: a list of reads, one after the other.
-/

namespace ScriptCore

/-! ### What a source comes to -/

namespace Cell.Source

/-- What is found, as an integer. -/
def asInt : Source → Int64
  | int v => v
  | float v => v.toInt64
  | text b => (parseNumber b).1.asInt
  | ref j => Heap.addressInt j
  | nothing => 0

/-- What is found, as a float. -/
def asFloat : Source → Binary64
  | int v => .ofInt v.toInt
  | float v => v
  | text b => (parseNumber b).1.asFloat
  | ref j => .ofInt (Heap.addressInt j).toInt
  | nothing => .zero false

/-- What is found, as bytes, given how the cell is called as a reference. -/
def asBytes (name : Option String) : Source → Bytes
  | int v => Text.encode (String.ofList (Heap.intText v))
  | float v => Text.encode (String.ofList v.format)
  | text b => b
  | ref _ => Text.encode (name.getD "")
  | nothing => []

/-- What a conversion to a number reports. -/
def numberAdvice : Source → List Advisory
  | text b => if (parseNumber b).2 then [] else [.notNumeric b]
  | nothing => [.uninitialized "numeric conversion"]
  | _ => []

/-- What a conversion to text reports. -/
def textAdvice : Source → List Advisory
  | nothing => [.uninitialized "string conversion"]
  | _ => []

end Cell.Source

namespace Cell

/-- A scalar without attachments. -/
structure Quiet (c : Cell) : Prop where
  scalar : c.shape.isAggregate = false
  unhooked : c.hooks = []

/-- The cell with room for more beside its numbers. -/
def roomier (c : Cell) (extra : Room) : Cell :=
  { c with shape := (c.shape.growFor (c.shape.room.numeric.union extra)).getD c.shape }

/-- The cell with the number read from its text beside it. -/
def numbered (c : Cell) (n : Number) (exact : Bool) : Cell :=
  match n with
  | .int v => (c.roomier { text := true, int := true }).keepInt v exact
  | .float f =>
    let c := (c.roomier { text := true, int := true, num := true }).keepFloat f exact
    if f.isInt64 then c.keepInt f.toInt64 exact else c

/-- The cell with text written beside its number. -/
def written (c : Cell) (b : Bytes) : Cell :=
  { c.roomier { text := true } with text := b, flags := { c.flags with textOk := true } }

/-- The bytes that a read gives: text there is, or else what is found. -/
def bytesRead (c : Cell) (alive : CellId → Bool) (name : Option String) : Bytes :=
  if c.flags.textOk then c.text else (c.source alive).asBytes name

/-- What is left of a cell that was read as an integer. -/
def afterInt (c : Cell) (alive : CellId → Bool) : Cell :=
  match c.source alive with
  | .float v => if v.isInt64 then (c.roomier { int := true }).keepInt v.toInt64 true else c
  | .text b => c.numbered (parseNumber b).1 (parseNumber b).2
  | _ => c

/-- What is left of a cell that was read as a float. -/
def afterFloat (c : Cell) (alive : CellId → Bool) : Cell :=
  match c.source alive with
  | .int v => (c.roomier { num := true }).keepFloat (.ofInt v.toInt) true
  | .text b => c.numbered (parseNumber b).1 (parseNumber b).2
  | _ => c

/-- What is left of a cell that was read as bytes. -/
def afterBytes (c : Cell) (alive : CellId → Bool) : Cell :=
  if c.flags.textOk then c
  else
    match c.source alive with
    | .int v => c.written ((Source.int v).asBytes none)
    | .float v => c.written ((Source.float v).asBytes none)
    | _ => c

end Cell

namespace Heap

/-- One look at a cell. -/
inductive Read
  | int (sink : Sink)
  | float (sink : Sink)
  | bytes (sink : Sink)
  | text (sink : Sink)
  | truth
  | numeric
  | defined
  | referent
  deriving DecidableEq

/-- What a look at a cell shows. -/
inductive Sight
  | int (v : Int64)
  | float (v : Binary64)
  | bytes (b : Bytes)
  | text (s : String)
  | truth (b : Bool)
  | referent (j : Option CellId)
  deriving DecidableEq

/-- What of some advisories gets to the reports. -/
def Sink.passes : Sink → List Advisory → List Advisory
  | silent, _ => []
  | site n, as => as.map (·.atSite n)

/-- Carries out a read. -/
def Read.perform (i : CellId) : Read → OnHeap Sight
  | int sink => return .int (← getInt i sink)
  | float sink => return .float (← getFloat i sink)
  | bytes sink => return .bytes (← getBytes i sink)
  | text sink => return .text (← getText i sink)
  | truth => return .truth (← getTruth i)
  | numeric => return .truth ((← get).cell i).looksNumeric
  | defined => return .truth ((← get).isDefined i)
  | referent => return .referent ((← get).referent? i)

/-- Carries out a read, and notes what it reports. -/
def observe (i : CellId) (r : Read) : OnHeap (Sight × List Advisory) := do
  let before := (← get).reports.size
  let sight ← r.perform i
  return (sight, (← get).reports.toList.drop before)

namespace Read

/-- What a read of a quiet cell shows. -/
def answer (r : Read) (alive : CellId → Bool) (name : Option String) (c : Cell) : Sight :=
  match r with
  | int _ => .int (c.source alive).asInt
  | float _ => .float (c.source alive).asFloat
  | bytes _ => .bytes (c.bytesRead alive name)
  | text _ => .text (Text.decode (c.bytesRead alive name) c.flags.utf8)
  | truth => .truth (c.truth alive)
  | numeric => .truth c.looksNumeric
  | defined => .truth (c.isDefined alive)
  | referent => .referent (c.referent alive)

/-- What a read of a quiet cell reports. -/
def advice (r : Read) (alive : CellId → Bool) (c : Cell) : List Advisory :=
  match r with
  | int sink => sink.passes (c.source alive).numberAdvice
  | float sink => sink.passes (c.source alive).numberAdvice
  | bytes sink => if c.flags.textOk then [] else sink.passes (c.source alive).textAdvice
  | text sink => if c.flags.textOk then [] else sink.passes (c.source alive).textAdvice
  | _ => []

/-- What a read leaves of a quiet cell. -/
def leaves (r : Read) (alive : CellId → Bool) (c : Cell) : Cell :=
  match r with
  | int _ => c.afterInt alive
  | float _ => c.afterFloat alive
  | bytes _ => c.afterBytes alive
  | text _ => c.afterBytes alive
  | _ => c

/-- What reads of a quiet cell show and report, one after the other. -/
def look (alive : CellId → Bool) (name : Option String) :
    List Read → Cell → List (Sight × List Advisory)
  | [], _ => []
  | r :: rs, c => (r.answer alive name c, r.advice alive c) :: look alive name rs (r.leaves alive c)

end Read

/-- The heap with some reports more. -/
def reporting (h : Heap) (as : List Advisory) : Heap :=
  { h with reports := h.reports ++ as.toArray }

end Heap

/-! ### Room for what is kept -/

theorem Shape.exists_growFor {s : Shape} (scalar : s.isAggregate = false) (need : Room) :
    ∃ t, s.growFor need = some t := by
  have all : ∀ a b c d e : Bool, (s.growFor ⟨a, b, c, d, e⟩).isSome = true := by
    revert scalar
    cases s <;> decide
  exact Option.isSome_iff_exists.mp (all need.int need.num need.text need.ref need.hooks)

namespace Cell
variable {c : Cell} {extra : Room} {alive : CellId → Bool}

theorem exists_room (scalar : c.shape.isAggregate = false) (need : Room) :
    ∃ t, c.shape.growFor need = some t ∧ t.isAggregate = false := by
  obtain ⟨t, ht⟩ := Shape.exists_growFor scalar need
  exact ⟨t, ht, (Shape.growFor_spec ht).scalar scalar⟩

theorem makeRoomKeeping_eq (scalar : c.shape.isAggregate = false) (extra : Room) :
    c.makeRoomKeeping extra = .ok (c.roomier extra) := by
  obtain ⟨t, ht, -⟩ := exists_room scalar (c.shape.room.numeric.union extra)
  simp [Cell.makeRoomKeeping, makeRoom, roomier, ht]

theorem scalar_roomier (scalar : c.shape.isAggregate = false) (extra : Room) :
    (c.roomier extra).shape.isAggregate = false := by
  obtain ⟨t, ht, scalar⟩ := exists_room scalar (c.shape.room.numeric.union extra)
  simp [Cell.roomier, ht, scalar]

theorem keepNumber_eq (scalar : c.shape.isAggregate = false) (n : Number) (exact : Bool) :
    c.keepNumber n exact = .ok (c.numbered n exact) := by
  cases n with
  | int v => simp [Cell.keepNumber, numbered, makeRoomKeeping_eq scalar]
  | float f => simp [Cell.keepNumber, numbered, makeRoomKeeping_eq scalar]

/-- What making room and keeping forms of a value preserve is true of what a read leaves.  Text is
kept only where there is none. -/
theorem leaves_of {P : Cell → Prop} (base : P c) (r : Heap.Read) (alive : CellId → Bool)
    (room : ∀ d extra, P d → P (d.roomier extra))
    (int : ∀ d v exact, P d → P (d.keepInt v exact))
    (float : ∀ d v exact, P d → P (d.keepFloat v exact))
    (text : c.flags.textOk = false → ∀ d b, P d →
      P { d with text := b, flags := { d.flags with textOk := true } }) :
    P (r.leaves alive c) := by
  have numbered (n : Number) (exact : Bool) : P (c.numbered n exact) := by
    cases n with
    | int v => exact int _ _ _ (room _ _ base)
    | float f =>
      rw [Cell.numbered]
      split
      · exact int _ _ _ (float _ _ _ (room _ _ base))
      · exact float _ _ _ (room _ _ base)
  cases r with
  | int sink =>
    show P (c.afterInt alive)
    rw [afterInt]
    split
    · split
      · exact int _ _ _ (room _ _ base)
      · exact base
    · exact numbered _ _
    · exact base
  | float sink =>
    show P (c.afterFloat alive)
    rw [afterFloat]
    split
    · exact float _ _ _ (room _ _ base)
    · exact numbered _ _
    · exact base
  | bytes sink | text sink =>
    show P (c.afterBytes alive)
    rw [afterBytes]
    split
    · exact base
    · rename_i absent
      have absent := Bool.eq_false_iff.mpr absent
      split
      · exact text absent _ _ (room _ _ base)
      · exact text absent _ _ (room _ _ base)
      · exact base
  | _ => exact base

theorem scalar_leaves (scalar : c.shape.isAggregate = false) (r : Heap.Read)
    (alive : CellId → Bool) : (r.leaves alive c).shape.isAggregate = false :=
  leaves_of (P := fun d => d.shape.isAggregate = false) scalar r alive
    (fun _ extra scalar => scalar_roomier scalar extra) (fun _ _ _ scalar => scalar)
    (fun _ _ _ scalar => scalar) fun _ _ _ scalar => scalar

/-- What no read of a cell changes. -/
structure Stays (c d : Cell) : Prop where
  target : d.target = c.target
  package : d.package = c.package
  hooks : d.hooks = c.hooks
  refOk : d.flags.refOk = c.flags.refOk
  utf8 : d.flags.utf8 = c.flags.utf8
  readOnly : d.flags.readOnly = c.flags.readOnly

theorem stays_leaves (c : Cell) (r : Heap.Read) (alive : CellId → Bool) :
    c.Stays (r.leaves alive c) := by
  refine leaves_of (P := c.Stays) ⟨rfl, rfl, rfl, rfl, rfl, rfl⟩ r alive ?_ ?_ ?_ ?_
  · exact fun _ _ h => ⟨h.target, h.package, h.hooks, h.refOk, h.utf8, h.readOnly⟩
  · exact fun _ _ _ h => ⟨h.target, h.package, h.hooks, h.refOk, h.utf8, h.readOnly⟩
  · exact fun _ _ _ h => ⟨h.target, h.package, h.hooks, h.refOk, h.utf8, h.readOnly⟩
  · exact fun _ _ _ h => ⟨h.target, h.package, h.hooks, h.refOk, h.utf8, h.readOnly⟩

theorem Quiet.leaves (q : c.Quiet) (r : Heap.Read) (alive : CellId → Bool) :
    (r.leaves alive c).Quiet :=
  ⟨scalar_leaves q.scalar r alive, (c.stays_leaves r alive).hooks.trans q.unhooked⟩

end Cell

namespace Heap

section
variable {h : Heap} {i : CellId} {c d : Cell} {sink : Sink}

/-! ### The heap of a read -/

@[simp] theorem reporting_nil (h : Heap) : h.reporting [] = h := by
  simp [reporting]

@[simp] theorem passes_nil (sink : Sink) : sink.passes [] = [] := by
  cases sink <;> rfl

theorem setCell_self (hc : h.cell? i = some c) : h.setCell i c = h := by
  have there : h.cells[i]? = some (some c) := by
    rw [← Array.getElem?_toList]
    exact getElem?_of_cell? hc
  have same : h.cells.setIfInBounds i (some c) = h.cells := by
    refine Array.ext_getElem? fun j => ?_
    rw [Array.getElem?_setIfInBounds]
    split
    · rename_i e
      rw [← e, there, if_pos (lt_size hc)]
    · rfl
  rw [setCell, if_pos (by simp [isAlive, hc]), same]

theorem sourceOf_eq (hc : h.cell? i = some c) (scalar : c.shape.isAggregate = false) :
    sourceOf i h = .ok (c.source h.isAlive) h := by
  rw [sourceOf, bind_get, cell_eq hc, Cell.expectScalar, if_neg (by simp [scalar])]
  rfl

theorem keep_eq (hc : h.cell? i = some c) {f : Cell → Except Fault Cell} (kept : f c = .ok d) :
    keep i f h = .ok () (h.setCell i d) := by
  rw [keep, bind_get, cell_eq hc, kept]
  rfl

theorem report_eq (h : Heap) (sink : Sink) (a : Advisory) :
    report sink a h = .ok () (h.reporting (sink.passes [a])) := by
  cases sink with
  | silent =>
    rw [Sink.passes, reporting_nil]
    rfl
  | site n =>
    rw [Sink.passes, reporting, List.map_singleton, ← Array.push_eq_append]
    rfl

/-- **Numbers in text.**  The number is kept on the cell; what is not all a number is reported. -/
theorem numify_eq (hc : h.cell? i = some c) (scalar : c.shape.isAggregate = false) (b : Bytes)
    (sink : Sink) :
    numify i b sink h = .ok (parseNumber b).1
      ((h.setCell i (c.numbered (parseNumber b).1 (parseNumber b).2)).reporting
        (sink.passes (Cell.Source.text b).numberAdvice)) := by
  have kept : keep i (·.keepNumber (parseNumber b).1 (parseNumber b).2) h =
      .ok () (h.setCell i (c.numbered (parseNumber b).1 (parseNumber b).2)) :=
    keep_eq hc (Cell.keepNumber_eq scalar _ _)
  rw [numify]
  dsimp only
  rw [bind_ok kept, Cell.Source.numberAdvice]
  cases (parseNumber b).2 with
  | true =>
    rw [if_pos rfl, passes_nil, reporting_nil]
    rfl
  | false =>
    simp only [Bool.not_false, if_true, Bool.false_eq_true, if_false]
    rw [bind_ok (report_eq _ sink _)]
    rfl

/-- **Reading an integer.** -/
theorem readInt_eq (hc : h.cell? i = some c) (scalar : c.shape.isAggregate = false) (sink : Sink) :
    readInt i sink h = .ok (c.source h.isAlive).asInt
      ((h.setCell i (c.afterInt h.isAlive)).reporting
        (sink.passes (c.source h.isAlive).numberAdvice)) := by
  rw [readInt, bind_ok (sourceOf_eq hc scalar), Cell.afterInt]
  cases c.source h.isAlive with
  | int v | ref j =>
    simp only [Cell.Source.numberAdvice, passes_nil, reporting_nil, setCell_self hc]
    rfl
  | float v =>
    simp only [Cell.Source.numberAdvice, passes_nil, reporting_nil]
    split
    · have kept : keep i (fun c => do
          return (← c.makeRoomKeeping { int := true }).keepInt v.toInt64 true) h =
          .ok () (h.setCell i ((c.roomier { int := true }).keepInt v.toInt64 true)) :=
        keep_eq hc (by rw [Cell.makeRoomKeeping_eq scalar]; rfl)
      rw [bind_ok kept]
      rfl
    · rw [setCell_self hc]
      rfl
  | text b =>
    dsimp only
    rw [bind_ok (numify_eq hc scalar b sink)]
    rfl
  | nothing =>
    dsimp only
    rw [setCell_self hc, bind_ok (report_eq h sink _)]
    rfl

/-- **Reading a float.** -/
theorem readFloat_eq (hc : h.cell? i = some c) (scalar : c.shape.isAggregate = false)
    (sink : Sink) :
    readFloat i sink h = .ok (c.source h.isAlive).asFloat
      ((h.setCell i (c.afterFloat h.isAlive)).reporting
        (sink.passes (c.source h.isAlive).numberAdvice)) := by
  rw [readFloat, bind_ok (sourceOf_eq hc scalar), Cell.afterFloat]
  cases c.source h.isAlive with
  | float v | ref j =>
    simp only [Cell.Source.numberAdvice, passes_nil, reporting_nil, setCell_self hc]
    rfl
  | int v =>
    have kept : keep i (fun c => do
        return (← c.makeRoomKeeping { num := true }).keepFloat (.ofInt v.toInt) true) h =
          .ok () (h.setCell i ((c.roomier { num := true }).keepFloat (.ofInt v.toInt) true)) :=
      keep_eq hc (by rw [Cell.makeRoomKeeping_eq scalar]; rfl)
    simp only [Cell.Source.numberAdvice, passes_nil, reporting_nil]
    rw [bind_ok kept]
    rfl
  | text b =>
    dsimp only
    rw [bind_ok (numify_eq hc scalar b sink)]
    rfl
  | nothing =>
    dsimp only
    rw [setCell_self hc, bind_ok (report_eq h sink _)]
    rfl

theorem keepText_eq (hc : h.cell? i = some c) (scalar : c.shape.isAggregate = false)
    (cs : List Char) :
    keepText i cs h = .ok (Text.encode (String.ofList cs))
      (h.setCell i (c.written (Text.encode (String.ofList cs)))) := by
  have kept : keep i (fun c => do
      let c ← c.makeRoomKeeping { text := true }
      return { c with text := Text.encode (String.ofList cs)
                      flags := { c.flags with textOk := true } }) h =
        .ok () (h.setCell i (c.written (Text.encode (String.ofList cs)))) :=
    keep_eq hc (by rw [Cell.makeRoomKeeping_eq scalar]; rfl)
  rw [keepText]
  dsimp only
  rw [bind_ok kept]
  rfl

/-- **Reading bytes.** -/
theorem readBytes_eq (hc : h.cell? i = some c) (scalar : c.shape.isAggregate = false)
    (sink : Sink) :
    readBytes i sink h = .ok (c.bytesRead h.isAlive (h.refText? i))
      ((h.setCell i (c.afterBytes h.isAlive)).reporting
        (if c.flags.textOk then [] else sink.passes (c.source h.isAlive).textAdvice)) := by
  rw [readBytes, bind_ok (sourceOf_eq hc scalar), bind_get, cell_eq hc, Cell.bytesRead,
    Cell.afterBytes]
  cases c.flags.textOk with
  | true =>
    simp only [if_true, reporting_nil, setCell_self hc]
    rfl
  | false =>
    simp only [Bool.false_eq_true, if_false]
    cases c.source h.isAlive with
    | int v | float v =>
      simp only [Cell.Source.textAdvice, passes_nil, reporting_nil]
      exact keepText_eq hc scalar _
    | ref j | text b =>
      simp only [Cell.Source.textAdvice, passes_nil, reporting_nil, setCell_self hc]
      rfl
    | nothing =>
      dsimp only
      rw [setCell_self hc, bind_ok (report_eq h sink _)]
      rfl

/-! ### One look and many -/

theorem runHooks_eq (hc : h.cell? i = some c) (q : c.Quiet) (phase : Phase) :
    runHooks phase i h = .ok () h := by
  rw [runHooks, bind_get, cell_eq hc, if_pos (.inl q.unhooked)]
  rfl

/-- The heap that a read leaves. -/
def Read.heap (r : Read) (h : Heap) (i : CellId) (c : Cell) : Heap :=
  (h.setCell i (r.leaves h.isAlive c)).reporting (r.advice h.isAlive c)

theorem cell?_heap (hc : h.cell? i = some c) (r : Read) (j : CellId) :
    (r.heap h i c).cell? j = if j = i then some (r.leaves h.isAlive c) else h.cell? j := by
  show (h.setCell i (r.leaves h.isAlive c)).cell? j = _
  rw [cell?_setCell]
  by_cases e : i = j
  · subst e
    simp [isAlive, hc]
  · simp [e, Ne.symm e]

theorem isAlive_setCell (hc : h.cell? i = some c) (d : Cell) :
    (h.setCell i d).isAlive = h.isAlive := by
  funext j
  rw [isAlive, isAlive, cell?_setCell]
  split
  · rename_i same
    rw [← same.1, hc]
    rfl
  · rfl

theorem isAlive_heap (hc : h.cell? i = some c) (r : Read) : (r.heap h i c).isAlive = h.isAlive :=
  isAlive_setCell hc (r.leaves h.isAlive c)

/-- **Reading text.** -/
theorem readText_eq (hc : h.cell? i = some c) (scalar : c.shape.isAggregate = false) (sink : Sink) :
    readText i sink h = .ok (Text.decode (c.bytesRead h.isAlive (h.refText? i)) c.flags.utf8)
      ((Read.text sink).heap h i c) := by
  have left : ((Read.text sink).heap h i c).cell? i = some (c.afterBytes h.isAlive) := by
    rw [cell?_heap hc, if_pos rfl]
    rfl
  have marked : (c.afterBytes h.isAlive).flags.utf8 = c.flags.utf8 :=
    (c.stays_leaves (.text sink) h.isAlive).utf8
  rw [readText, bind_ok (readBytes_eq hc scalar sink)]
  show EStateM.Result.ok (Text.decode _ (((Read.text sink).heap h i c).cell i).flags.utf8) _ = _
  rw [cell_eq left, marked]
  rfl

/-- What a cell is called as a reference does not depend on the value it holds. -/
theorem refText?_setCell (hc : h.cell? i = some c) (target : d.target = c.target)
    (refOk : d.flags.refOk = c.flags.refOk) (package : d.package = c.package)
    (kind : d.referentKind = c.referentKind) : (h.setCell i d).refText? i = h.refText? i := by
  have set : (h.setCell i d).cell? i = some d := by
    rw [cell?_setCell, if_pos ⟨rfl, by simp [isAlive, hc]⟩]
  have referent : (h.setCell i d).referent? i = h.referent? i := by
    rw [referent?, referent?, isAlive_setCell hc, cell_eq hc, cell_eq set, Cell.referent,
      Cell.referent, refOk, target]
  have called (j : CellId) : ((h.setCell i d).cell j).referentKind = (h.cell j).referentKind ∧
      (h.setCell i d).package? j = h.package? j := by
    by_cases e : i = j
    · subst e
      rw [package?, package?, cell_eq set, cell_eq hc]
      exact ⟨kind, package⟩
    · have same : (h.setCell i d).cell? j = h.cell? j := by
        rw [cell?_setCell, if_neg fun both => e both.1]
      rw [package?, package?, cell, cell, same]
      exact ⟨rfl, rfl⟩
  simp only [refText?, referent, called]

/-- Reading a cell leaves what it is called as a reference. -/
theorem refText?_heap (hc : h.cell? i = some c) (scalar : c.shape.isAggregate = false) (r : Read) :
    (r.heap h i c).refText? i = h.refText? i := by
  have stays := c.stays_leaves r h.isAlive
  refine refText?_setCell hc stays.target stays.refOk stays.package ?_
  rw [Cell.referentKind, Cell.referentKind, Cell.scalar_leaves scalar, scalar, stays.refOk]
  rfl

/-- **One look**, where the hooks that run do nothing. -/
theorem perform_eq (hc : h.cell? i = some c) (scalar : c.shape.isAggregate = false)
    (hooks : runHooks .get i h = .ok () h) (r : Read) :
    r.perform i h = .ok (r.answer h.isAlive (h.refText? i) c) (r.heap h i c) := by
  have still : (h.setCell i c).reporting [] = h := by rw [reporting_nil, setCell_self hc]
  cases r with
  | int sink =>
    rw [Read.perform, getInt, bind_assoc, bind_ok hooks, bind_ok (readInt_eq hc scalar sink)]
    rfl
  | float sink =>
    rw [Read.perform, getFloat, bind_assoc, bind_ok hooks, bind_ok (readFloat_eq hc scalar sink)]
    rfl
  | bytes sink =>
    rw [Read.perform, getBytes, bind_assoc, bind_ok hooks, bind_ok (readBytes_eq hc scalar sink)]
    rfl
  | text sink =>
    rw [Read.perform, getText, bind_assoc, bind_ok hooks, bind_ok (readText_eq hc scalar sink)]
    rfl
  | truth =>
    rw [Read.perform, getTruth, bind_assoc, bind_ok hooks, bind_assoc, bind_get, cell_eq hc]
    show EStateM.Result.ok _ h = .ok _ ((h.setCell i c).reporting [])
    rw [still]
    rfl
  | numeric | defined | referent =>
    show EStateM.Result.ok _ h = .ok _ ((h.setCell i c).reporting [])
    rw [still]
    simp only [isDefined, referent?, cell_eq hc]
    rfl

theorem observe_idle (hc : h.cell? i = some c) (scalar : c.shape.isAggregate = false)
    (hooks : runHooks .get i h = .ok () h) (r : Read) :
    observe i r h =
      .ok (r.answer h.isAlive (h.refText? i) c, r.advice h.isAlive c) (r.heap h i c) := by
  have reports : (r.heap h i c).reports = h.reports ++ (r.advice h.isAlive c).toArray := by
    show (h.setCell i (r.leaves h.isAlive c)).reports ++ _ = _
    rw [setCell]
    split <;> rfl
  have added : (h.reports ++ (r.advice h.isAlive c).toArray).toList.drop h.reports.size =
      r.advice h.isAlive c := by
    rw [Array.toList_append, ← Array.length_toList, List.drop_left]
  rw [observe, bind_get, bind_ok (perform_eq hc scalar hooks r), bind_get, reports, added]
  rfl

theorem observe_eq (hc : h.cell? i = some c) (q : c.Quiet) (r : Read) :
    observe i r h =
      .ok (r.answer h.isAlive (h.refText? i) c, r.advice h.isAlive c) (r.heap h i c) :=
  observe_idle hc q.scalar (runHooks_eq hc q .get) r

/-- **Many looks**, one after the other. -/
theorem mapM_observe (hc : h.cell? i = some c) (q : c.Quiet) (rs : List Read) :
    ∃ h', rs.mapM (observe i) h = .ok (Read.look h.isAlive (h.refText? i) rs c) h' := by
  induction rs generalizing h c with
  | nil => exact ⟨h, rfl⟩
  | cons r rs ih =>
    have left : (r.heap h i c).cell? i = some (r.leaves h.isAlive c) := by
      rw [cell?_heap hc, if_pos rfl]
    obtain ⟨h', rest⟩ := ih left (q.leaves r h.isAlive)
    rw [isAlive_heap hc, refText?_heap hc q.scalar] at rest
    refine ⟨h', ?_⟩
    rw [List.mapM_cons, bind_ok (observe_eq hc q r), bind_ok rest]
    rfl

end

end Heap

end ScriptCore
