import ScriptCore.Proofs.Heap.Conduct
import ScriptCore.Proofs.Heap.Copies

/-!
# Heap — scalars and aggregates

An aggregate has room for attachments and for no form of a value, and it never becomes another
shape.  So a write that needs room for a value is refused there.  A copy needs the room that the
shape of its source has; a source that never held a value has the shape `undef`, which has none, so
the copy of such a cell is refused by no aggregate.

* `Write.perform_aggregate`: writes.
* `copyFrom_undef`: what the copy of such a cell comes to.
* `Mixes`: how the copy of a scalar into an aggregate ends.
* `run_mismatches`: writes and copies, at any time of any run.
-/

namespace ScriptCore

/-! ### Room in aggregates -/

/-- Any shape of a scalar but the first has room for a value. -/
theorem Shape.values_ne {s : Shape} (scalar : s.isAggregate = false) (used : s ≠ .undef) :
    s.room.values.values ≠ {} := by
  revert scalar used
  cases s <;> decide

namespace Cell
variable {c d : Cell} {need : Room}

/-- There is no room for a value in an aggregate. -/
theorem makeRoom_aggregate (aggregate : c.shape.isAggregate = true) (used : need.values ≠ {}) :
    c.makeRoom need = .error (.mismatch (.notScalar c.shape)) := by
  have room : c.shape.room = { hooks := true } := by
    revert aggregate
    cases c.shape <;> simp [Shape.isAggregate, Shape.room]
  have without : need.within c.shape.room = false := by
    refine Bool.eq_false_iff.mpr fun within => used ?_
    rw [room, Room.within_iff] at within
    obtain ⟨a, b, c, d, e⟩ := need
    cases a <;> cases b <;> cases c <;> cases d <;> simp_all [Room.values]
  simp [makeRoom, Shape.growFor, without, aggregate]

/-- A cell of the first shape has no attachments and no value. -/
theorem Valid.of_undef (v : c.Valid) (undef : c.shape = .undef) :
    c.hooks = [] ∧ c.flags.holdsValue = false := by
  refine ⟨Classical.byContradiction fun attached => ?_, v.holdsValue_of_room ?_⟩
  · have room := v.room_of_hooks attached
    rw [undef] at room
    cases room
  · rw [undef]
    rfl

/-- A cell without a value has only flags that belong to none. -/
theorem Valid.flags_empty (v : c.Valid) (empty : c.flags.holdsValue = false) :
    c.target = none ∧ c.flags = ({
      readOnly := c.flags.readOnly, tainted := c.flags.tainted
      object := c.flags.object, inHooks := c.flags.inHooks } : Flags) := by
  simp only [Flags.holdsValue, Bool.or_eq_false_iff] at empty
  obtain ⟨⟨⟨⟨⟨intOk, numOk⟩, textOk⟩, refOk⟩, intHeld⟩, numHeld⟩ := empty
  have target : c.target = none := by
    have ref := v.value.ref
    rw [refOk] at ref
    exact Option.not_isSome_iff_eq_none.mp (by rw [← ref]; exact Bool.false_ne_true)
  have weak : c.flags.weak = false := Bool.eq_false_iff.mpr fun weak => by
    obtain ⟨j, hj⟩ := v.value.weak.mp weak
    rw [target] at hj
    cases hj
  have utf8 : c.flags.utf8 = false := Bool.eq_false_iff.mpr fun utf8 => by
    rw [(v.value.utf8 utf8).1] at textOk
    cases textOk
  refine ⟨target, ?_⟩
  rcases hf : c.flags with ⟨⟩
  simp_all

/-- Nothing but the taint mark goes with a value there is not. -/
theorem Valid.onto_empty (v : c.Valid) (empty : c.flags.holdsValue = false) (w : d.Valid)
    (bare : d.flags.holdsValue = false) :
    c.onto d.clearValue none false = { d with
      int := c.int, num := c.num, text := c.text
      flags := { d.flags with tainted := d.flags.tainted || c.flags.tainted } } := by
  obtain ⟨target, flags⟩ := w.flags_empty bare
  rw [onto, clearValue, (v.flags_empty empty).2, flags, target]
  simp [Flags.copied, Flags.union, Flags.withoutValue]

end Cell

namespace Heap

section
variable {h₀ h g : Heap} {i source : CellId} {c d : Cell} {need : Room} {gains : Option CellId}
  {fill : Cell → Cell} {out : List CellId}

/-! ### Writes -/

/-- A value is not stored in an aggregate. -/
theorem assign_aggregate (hc : h.cell? i = some c) (aggregate : c.shape.isAggregate = true)
    (writable : c.checkWritable = .ok ()) (used : need.values ≠ {}) (gains : Option CellId)
    (fill : Cell → Cell) :
    assign i need gains fill h = .error (.mismatch (.notScalar c.shape)) h := by
  rw [assign, bind_get, cell_eq hc, writable, Cell.makeRoom_aggregate aggregate used]
  rfl

/-- **Writes** to an aggregate are refused, but for making it undefined. -/
theorem Write.perform_aggregate (hc : h.cell? i = some c) (aggregate : c.shape.isAggregate = true)
    (writable : c.checkWritable = .ok ()) (w : Write) (scalar : w ≠ .undef) :
    w.perform i h = .error (.mismatch (.notScalar c.shape)) h := by
  have stored : w.store i h = .error (.mismatch (.notScalar c.shape)) h := by
    cases w with
    | undef => exact absurd rfl scalar
    | _ =>
      unfold store
      exact assign_aggregate hc aggregate writable (by decide) _ _
  rw [w.perform_eq, bind_error stored]

/-- What needs no room is stored in any cell that may be written. -/
theorem assign_nothing (hc : h.cell? i = some c) (writable : c.checkWritable = .ok ())
    (target : c.target = none) (fill : Cell → Cell) :
    assign i {} none fill h = .ok () (h.setCell i (fill c.clearValue)) := by
  have roomy : c.makeRoom {} = .ok c := by simp [Cell.makeRoom, Shape.growFor, Room.within]
  rw [assign, bind_get, cell_eq hc, writable, roomy, target]
  rfl

/-! ### Copies -/

/-- **A copy** of a cell of the first shape takes over the taint mark, and forms that no flag
vouches for.  Whatever the destination is, if it holds no value then it is not refused. -/
theorem copyFrom_undef (hc : h.cell? i = some c) (valid : c.Valid)
    (bare : c.flags.holdsValue = false) (writable : c.checkWritable = .ok ())
    (unhooked : c.hooks = []) (apart : source ≠ i) (hd : h.cell? source = some d)
    (valid' : d.Valid) (undef : d.shape = .undef) :
    copyFrom i source h = .ok () (h.setCell i { c with
      int := d.int, num := d.num, text := d.text
      flags := { c.flags with tainted := c.flags.tainted || d.flags.tainted } }) := by
  obtain ⟨unhooked', empty⟩ := valid'.of_undef undef
  have ran : runHooks .get source h = .ok () h :=
    runHooks_unhooked (by rw [cell_eq hd]; exact unhooked') .get
  obtain ⟨gains, weak, gained, was, eq⟩ := copyFrom_ran apart ran hd (by rw [undef]; rfl)
  have nothing : d.shape.room.values = {} := by rw [undef]; rfl
  have copied : h.copiedTarget d = none := by
    rw [copiedTarget, (valid'.flags_empty empty).1]
    exact ite_self none
  rw [copied] at gained eq
  obtain rfl : gains = none := Option.toList_eq_nil_iff.mp gained
  obtain rfl : weak = false := by
    rw [(valid'.flags_empty empty).2] at was
    exact Bool.eq_false_iff.mpr fun weak => Bool.false_ne_true (was weak)
  have stored := assign_nothing hc writable (valid.flags_empty bare).1 fun e => d.onto e none false
  rw [valid'.onto_empty empty valid bare] at stored
  rw [eq, nothing, bind_ok stored]
  refine runHooks_unhooked (Bears.unhooked ?_) .set
  exact unhooked ▸ bears_setCell h i _

/-- How a copy of the scalar `d` into the aggregate `c` ends.  If hooks of the source fail, nothing
is copied.  If they do not, the copy is refused, and the aggregate is what it was up to owners,
unless the source has the first shape: then the taint mark is all that is taken over, beside forms
that no flag vouches for. -/
structure Mixes (h : Heap) (i source : CellId) (c d : Cell) : Prop where
  fails : ∀ e g, runHooks .get source h = .error e g →
    copyFrom i source h = .error e g ∧ g.Holds i c
  refused : d.shape ≠ .undef → ∀ g, runHooks .get source h = .ok () g →
    copyFrom i source h = .error (.mismatch (.notScalar c.shape)) g ∧ g.Holds i c
  undefined : d.shape = .undef → copyFrom i source h = .ok () (h.setCell i { c with
    int := d.int, num := d.num, text := d.text
    flags := { c.flags with tainted := c.flags.tainted || d.flags.tainted } })

/-- What its source's hooks leave of the destination of a copy. -/
theorem Kept.holds_runHooks (k : Kept h₀ out h) (hi : i ∈ out) (hsource : source ∈ out)
    (apart : source ≠ i) (holds : h.Holds i c) :
    Ends (runHooks .get source) h (fun _ g => g.Holds i c) (·.Holds i c) := by
  have ran := ((keeps_runHooks hsource .get).ends k).and
    ((Spares.keeps_runHooks .get).ends (.refl source h))
  have left (g : Heap) (q : Kept h₀ out g ∧ h.Spares source g) : g.Holds i c := by
    obtain ⟨e, he⟩ := q.1.alive hi
    exact holds.left he (q.2.others i e (Ne.symm apart) he)
  exact ran.imp (fun _ => left) left

/-- A scalar that has a shape of its own is one after its hooks ran. -/
theorem Kept.scalar_runHooks (k : Kept h₀ out h) (hsource : source ∈ out)
    (hd : h.cell? source = some d) (scalar : d.shape.isAggregate = false)
    (used : d.shape ≠ .undef) :
    Ends (runHooks .get source) h (fun _ g => ∃ e, g.cell? source = some e ∧
      e.shape.isAggregate = false ∧ e.shape ≠ .undef) fun _ => True := by
  refine ((keeps_runHooks hsource .get).ends k.again).imp (fun _ g k' => ?_) fun _ _ => trivial
  obtain ⟨e, he⟩ := k'.alive hsource
  obtain ⟨d', hd', climbs⟩ := k'.grown.cells source e (lt_size hd) he
  obtain rfl : d = d' := Option.some.inj (hd.symm.trans hd')
  refine ⟨e, he, ?_⟩
  rcases Shape.climbsTo_iff.mp climbs with same | ⟨-, undef⟩ | ⟨scalar', -, le⟩
  · exact same ▸ ⟨scalar, used⟩
  · exact absurd undef used
  · refine ⟨scalar', fun undef => ?_⟩
    rw [undef] at le
    revert used le
    cases d.shape <;> decide

/-- **A copy** of a scalar into an aggregate. -/
theorem Kept.mixes (k : Kept h₀ out h) (hi : i ∈ out) (hc : h.cell? i = some c)
    (aggregate : c.shape.isAggregate = true) (readOnly : c.flags.readOnly = false)
    (unhooked : c.hooks = []) (hsource : source ∈ out) (hd : h.cell? source = some d)
    (scalar : d.shape.isAggregate = false) : h.Mixes i source c d := by
  have apart : source ≠ i := by
    rintro rfl
    cases hc.symm.trans hd
    rw [aggregate] at scalar
    cases scalar
  have writable := checkWritable_unhooked unhooked readOnly
  have kept := k.holds_runHooks hi hsource apart ⟨c.owners, hc⟩
  refine ⟨fun e g ran => ?_, fun used g ran => ?_, fun undef => ?_⟩
  · rw [Ends, ran] at kept
    rw [copyFrom, if_neg (Ne.symm apart), bind_error ran]
    exact ⟨rfl, kept⟩
  · obtain ⟨e, he, scalar', used'⟩ := (k.scalar_runHooks hsource hd scalar used).result ran
    obtain ⟨n, hn⟩ := kept.result ran
    obtain ⟨gains, weak, -, -, eq⟩ := copyFrom_ran apart ran he scalar'
    have refused := assign_aggregate (c := { c with owners := n }) hn aggregate writable
      (Shape.values_ne scalar' used')
    exact ⟨eq.trans (bind_error (refused _ _)), n, hn⟩
  · exact copyFrom_undef hc (k.valid hc) ((k.valid hc).holdsValue_aggregate aggregate) writable
      unhooked apart hd (k.valid hd) undef

end

/-- **Scalars and aggregates.**  Whatever a host did: an aggregate that it has a handle on, that may
be written and that nothing is attached to, is left as it was by every write of a value, which is
refused, and by every copy of a scalar that has a shape of its own. -/
theorem run_mismatches (seeds : Array Seed) (supply : Supply) (ops : List Op) {i : CellId}
    {c : Cell} (hi : i ∈ ((Host.start seeds supply).run ops).held)
    (hc : ((Host.start seeds supply).run ops).heap.cell? i = some c)
    (aggregate : c.shape.isAggregate = true) (readOnly : c.flags.readOnly = false)
    (unhooked : c.hooks = []) :
    (∀ w : Write, w ≠ .undef → w.perform i ((Host.start seeds supply).run ops).heap =
      .error (.mismatch (.notScalar c.shape)) ((Host.start seeds supply).run ops).heap) ∧
    ∀ source ∈ ((Host.start seeds supply).run ops).held, ∀ d,
      ((Host.start seeds supply).run ops).heap.cell? source = some d →
        d.shape.isAggregate = false →
          ((Host.start seeds supply).run ops).heap.Mixes i source c d := by
  have kept := ((kept_start seeds supply).run ops).again
  have writable := checkWritable_unhooked unhooked readOnly
  exact ⟨fun w value => w.perform_aggregate hc aggregate writable value,
    fun _ hsource _ hd scalar => kept.mixes hi hc aggregate readOnly unhooked hsource hd scalar⟩

/-- An array with an item, beside an integer and a cell that never held a value: the integer is
refused, the other one is not. -/
theorem run_mismatches_array :
    let h := ((Host.start #[] {}).run [.make (.int 7), .list [0], .make .undef]).heap
    copyFrom 1 0 h = .error (.mismatch (.notScalar .array)) h ∧ copyFrom 1 2 h = .ok () h := by
  intro h
  have array : h.cell? 1 = some { shape := .array, payload := .array [0] } := by
    with_unfolding_all rfl
  obtain ⟨-, copies⟩ := run_mismatches #[] {} [.make (.int 7), .list [0], .make .undef]
    (by decide +kernel) array rfl rfl rfl
  have int := copies 0 (by decide +kernel) { Cell.ofInt 7 with owners := 2 }
    (by with_unfolding_all rfl) rfl
  have undef := copies 2 (by decide +kernel) {} (by with_unfolding_all rfl) rfl
  exact ⟨(int.refused (by decide) h (by with_unfolding_all rfl)).1,
    (undef.undefined rfl).trans (by with_unfolding_all rfl)⟩

/-- There is an array that a scalar can be copied into. -/
theorem copyFrom_undef_accepted :
    ∃ (ops : List Op) (i source : CellId) (c d : Cell) (h' : Heap),
      i ∈ ((Host.start #[] {}).run ops).held ∧ source ∈ ((Host.start #[] {}).run ops).held ∧
        ((Host.start #[] {}).run ops).heap.cell? i = some c ∧ c.shape = .array ∧
          c.flags.readOnly = false ∧ c.hooks = [] ∧
            ((Host.start #[] {}).run ops).heap.cell? source = some d ∧
              d.shape.isAggregate = false ∧
                copyFrom i source ((Host.start #[] {}).run ops).heap = .ok () h' :=
  ⟨[.make (.int 7), .list [0], .make .undef], 1, 2, { shape := .array, payload := .array [0] }, {},
    _, by decide +kernel, by decide +kernel, by with_unfolding_all rfl, rfl, rfl, rfl,
    by with_unfolding_all rfl, rfl, by with_unfolding_all rfl⟩

end Heap

end ScriptCore
