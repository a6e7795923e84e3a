import ScriptCore.Cell.Basic

/-!
# Cell — what a cell holds, it has room for

A cell is `Valid` when its flags, its shape and what it holds agree.  Each function on one cell
keeps that, as far as its caller sees to the room: a conversion keeps its result beside the value
it was read from, and a write fills a cell that was cleared before.

* `Shape.growFor_spec`: what growing gives is above, has the room, and keeps the room for what is
  there if the numbers are among what is asked for.
* `Valid.refill`: the one lemma about writes.
* `Valid.keepInt`, `Valid.keepFloat`, `Valid.keepNumber`, `Valid.keepText`: conversions.
-/

namespace ScriptCore

/-! ### Room -/

theorem Room.within_iff {a b : Room} : a.within b = true ↔
    (a.int = true → b.int = true) ∧ (a.num = true → b.num = true) ∧
      (a.text = true → b.text = true) ∧ (a.ref = true → b.ref = true) ∧
        (a.hooks = true → b.hooks = true) := by
  simp only [within, Bool.and_eq_true, Bool.or_eq_true, Bool.not_eq_true', and_assoc]
  cases a.int <;> cases a.num <;> cases a.text <;> cases a.ref <;> cases a.hooks <;> simp

theorem Room.within_trans {a b c : Room} (h : a.within b = true) (h' : b.within c = true) :
    a.within c = true := by
  rw [within_iff] at *
  obtain ⟨int, num, text, ref, hooks⟩ := h
  exact ⟨h'.1 ∘ int, h'.2.1 ∘ num, h'.2.2.1 ∘ text, h'.2.2.2.1 ∘ ref, h'.2.2.2.2 ∘ hooks⟩

theorem Room.within_union_left (a b : Room) : a.within (a.union b) = true := by
  simp only [within_iff, union, Bool.or_eq_true]
  exact ⟨.inl, .inl, .inl, .inl, .inl⟩

theorem Room.within_union_right (a b : Room) : b.within (a.union b) = true := by
  simp only [within_iff, union, Bool.or_eq_true]
  exact ⟨.inr, .inr, .inr, .inr, .inr⟩

namespace Shape
variable {s t u : Shape} {need : Room}

theorem climbsTo_refl (s : Shape) : s.climbsTo s = true := by
  simp [climbsTo]

theorem climbsTo_iff : s.climbsTo t = true ↔
    s = t ∨ t.isAggregate = true ∧ s = .undef ∨
      t.isAggregate = false ∧ s.isAggregate = false ∧ s.rank ≤ t.rank := by
  cases agg : t.isAggregate <;> simp [climbsTo, agg]

/-- Shapes only climb. -/
theorem climbsTo_trans (h : s.climbsTo t = true) (h' : t.climbsTo u = true) :
    s.climbsTo u = true := by
  rw [climbsTo_iff] at *
  rcases h with rfl | ⟨aggregate, rfl⟩ | ⟨scalar, scalar', le⟩
  · exact h'
  · -- nothing is above an aggregate
    rcases h' with rfl | ⟨-, rfl⟩ | ⟨-, scalar, -⟩
    · exact .inr (.inl ⟨aggregate, rfl⟩)
    · cases aggregate
    · rw [aggregate] at scalar
      cases scalar
  · rcases h' with rfl | ⟨aggregate, rfl⟩ | ⟨top, -, le'⟩
    · exact .inr (.inr ⟨scalar, scalar', le⟩)
    · -- and nothing but `undef` itself is below `undef`
      refine .inr (.inl ⟨aggregate, ?_⟩)
      revert scalar' le
      cases s <;> decide
    · exact .inr (.inr ⟨top, scalar', Nat.le_trans le le'⟩)

/-- What growing is known to give. -/
structure Grows (s : Shape) (need : Room) (t : Shape) : Prop where
  climbs : s.climbsTo t = true
  room : need.within t.room = true
  scalar : s.isAggregate = false → t.isAggregate = false
  aggregate : s.isAggregate = true → t = s
  hooks : s.room.hooks = true → t.room.hooks = true
  keeps : s.room.numeric.within need = true ∨ need.hooks = true → s.room.within t.room = true

/-- **Growing.** -/
theorem growFor_spec (h : s.growFor need = some t) : s.Grows need t := by
  have all : ∀ a b c d e : Bool, ∀ t, s.growFor ⟨a, b, c, d, e⟩ = some t →
      s.climbsTo t = true ∧ Room.within ⟨a, b, c, d, e⟩ t.room = true ∧
        (s.isAggregate = false → t.isAggregate = false) ∧ (s.isAggregate = true → t = s) ∧
          (s.room.hooks = true → t.room.hooks = true) ∧
            (s.room.numeric.within ⟨a, b, c, d, e⟩ = true ∨ e = true →
              s.room.within t.room = true) := by
    intro a b c d e t
    cases s <;> cases t <;> revert a b c d e <;> decide
  obtain ⟨climbs, room, scalar, aggregate, hooks, keeps⟩ :=
    all need.int need.num need.text need.ref need.hooks t h
  exact ⟨climbs, room, scalar, aggregate, hooks, keeps⟩

end Shape

/-- The shape that a payload belongs to. -/
def Payload.shape? : Payload → Option Shape
  | .none => Option.none
  | .array _ => some .array
  | .hash _ => some .hash
  | .code _ => some .code
  | .handle _ => some .handle

/-- The flags tell which forms of a value there are. -/
structure Flags.Tells (flags : Flags) (text : Bytes) (target : Option Target) : Prop where
  int : flags.intOk = true → flags.intHeld = true
  num : flags.numOk = true → flags.numHeld = true
  ref : flags.refOk = target.isSome
  weak : flags.weak = true ↔ ∃ i, target = some (.weak i)
  alone : flags.refOk = true →
    flags.intHeld = false ∧ flags.numHeld = false ∧ flags.textOk = false
  utf8 : flags.utf8 = true → flags.textOk = true ∧ ∃ s, text = Text.encode s

/-- The room for the forms of a value. -/
def Flags.needs (f : Flags) : Room :=
  { int := f.intHeld, num := f.numHeld, text := f.textOk, ref := f.refOk }

namespace Cell
variable {c d e : Cell} {need : Room} {t : Shape}

/-- The room that a cell makes use of. -/
def needs (c : Cell) : Room :=
  { c.flags.needs with hooks := c.package.isSome || !c.hooks.isEmpty }

/-- Flags, shape and content of a cell agree. -/
structure Valid (c : Cell) : Prop where
  value : c.flags.Tells c.text c.target
  room : c.needs.within c.shape.room = true
  object : c.flags.object = c.package.isSome
  payload : c.payload.shape? = if c.shape.isAggregate then some c.shape else none

/-- A later state of a cell, by something that leaves its owners and attachments alone. -/
structure Becomes (c d : Cell) : Prop where
  owners : d.owners = c.owners
  hooks : d.hooks = c.hooks
  climbs : c.shape.climbsTo d.shape = true
  valid : d.Valid

/-- A later state in which the cell holds what it held. -/
structure Keeps (c d : Cell) : Prop extends c.Becomes d where
  target : d.target = c.target
  payload : d.payload = c.payload

theorem Keeps.trans (k : c.Keeps d) (l : d.Keeps e) : c.Keeps e where
  owners := l.owners.trans k.owners
  hooks := l.hooks.trans k.hooks
  climbs := Shape.climbsTo_trans k.climbs l.climbs
  valid := l.valid
  target := l.target.trans k.target
  payload := l.payload.trans k.payload

/-- The same cell but for the flags and the forms of its value. -/
theorem Valid.keeps (valid : d.Valid) (owners : d.owners = c.owners) (hooks : d.hooks = c.hooks)
    (shape : d.shape = c.shape) (target : d.target = c.target) (payload : d.payload = c.payload) :
    c.Keeps d :=
  ⟨⟨owners, hooks, shape ▸ Shape.climbsTo_refl _, valid⟩, target, payload⟩

/-- The number of owners does not matter. -/
theorem Valid.withOwners (v : c.Valid) (owners : Nat) : Valid { c with owners } :=
  ⟨v.value, v.room, v.object, v.payload⟩

/-- A cell whose shape has no room for a value holds none. -/
theorem Valid.holdsValue_of_room (v : c.Valid) (none : c.shape.room.values = {}) :
    c.flags.holdsValue = false := by
  have room := Room.within_iff.mp v.room
  simp only [Room.values, Room.mk.injEq, and_true, ← Bool.not_eq_true] at none
  have int : c.flags.intHeld ≠ true := fun there => none.1 (room.1 there)
  have num : c.flags.numHeld ≠ true := fun there => none.2.1 (room.2.1 there)
  have text : c.flags.textOk ≠ true := fun there => none.2.2.1 (room.2.2.1 there)
  have ref : c.flags.refOk ≠ true := fun there => none.2.2.2 (room.2.2.2.1 there)
  have intOk : c.flags.intOk ≠ true := fun ok => int (v.value.int ok)
  have numOk : c.flags.numOk ≠ true := fun ok => num (v.value.num ok)
  simp only [Bool.not_eq_true] at int num text ref intOk numOk
  simp [Flags.holdsValue, int, num, text, ref, intOk, numOk]

/-- A cell with a value is no aggregate. -/
theorem Valid.holdsValue_aggregate (v : c.Valid) (aggregate : c.shape.isAggregate = true) :
    c.flags.holdsValue = false := by
  refine v.holdsValue_of_room ?_
  revert aggregate
  cases c.shape <;> simp [Shape.isAggregate, Shape.room, Room.values]

/-! ### New cells -/

theorem valid_empty : Valid {} :=
  ⟨⟨nofun, nofun, rfl, ⟨nofun, nofun⟩, nofun, nofun⟩, rfl, rfl, rfl⟩

theorem valid_ofInt (v : Int64) : (ofInt v).Valid :=
  ⟨⟨fun _ => rfl, nofun, rfl, ⟨nofun, nofun⟩, nofun, nofun⟩, rfl, rfl, rfl⟩

theorem valid_ofFloat (v : Binary64) : (ofFloat v).Valid :=
  ⟨⟨nofun, fun _ => rfl, rfl, ⟨nofun, nofun⟩, nofun, nofun⟩, rfl, rfl, rfl⟩

theorem valid_ofBytes (b : Bytes) : (ofBytes b).Valid :=
  ⟨⟨nofun, nofun, rfl, ⟨nofun, nofun⟩, nofun, nofun⟩, rfl, rfl, rfl⟩

theorem valid_ofText (s : String) : (ofText s).Valid :=
  ⟨⟨nofun, nofun, rfl, ⟨nofun, nofun⟩, nofun, fun _ => ⟨rfl, s, rfl⟩⟩, rfl, rfl, rfl⟩

theorem valid_ofTarget (i : CellId) : (ofTarget i).Valid :=
  ⟨⟨nofun, nofun, rfl, ⟨nofun, nofun⟩, fun _ => ⟨rfl, rfl, rfl⟩, nofun⟩, rfl, rfl, rfl⟩

/-- A new aggregate. -/
theorem valid_aggregate {shape : Shape} {payload : Payload} (aggregate : shape.isAggregate = true)
    (fits : payload.shape? = some shape) : Valid { shape, payload } := by
  refine ⟨⟨nofun, nofun, rfl, ⟨nofun, nofun⟩, nofun, nofun⟩, ?_, rfl, ?_⟩
  · simp [Room.within_iff, needs, Flags.needs]
  · rw [fits, if_pos aggregate]

/-! ### Room for more -/

theorem makeRoom_ok (h : c.makeRoom need = .ok d) :
    ∃ t, c.shape.Grows need t ∧ d = { c with shape := t } := by
  unfold makeRoom at h
  split at h
  · rename_i t grown
    cases h
    exact ⟨t, Shape.growFor_spec grown, rfl⟩
  · cases h

/-- The payload of a cell that has grown is still that of its shape. -/
theorem Valid.payload_grown (v : c.Valid) (grows : c.shape.Grows need t) :
    c.payload.shape? = if t.isAggregate then some t else none := by
  rw [v.payload]
  cases agg : c.shape.isAggregate with
  | true => rw [grows.aggregate agg, agg]
  | false =>
    rw [grows.scalar agg]
    rfl

/-- A cell moves up to a shape that has room for all that the old one had room for. -/
theorem Valid.grown (v : c.Valid) (grows : c.shape.Grows need t)
    (keeps : c.shape.room.within t.room = true) : c.Keeps { c with shape := t } := by
  refine ⟨⟨rfl, rfl, grows.climbs, v.value, ?_, v.object, v.payload_grown grows⟩, rfl, rfl⟩
  exact Room.within_trans v.room keeps

/-- Room for attachments and packages. -/
theorem Valid.makeRoomForHooks (v : c.Valid) (h : c.makeRoom { hooks := true } = .ok d) :
    c.Keeps d ∧ d.shape.room.hooks = true ∧ d = { c with shape := d.shape } := by
  obtain ⟨t, grows, rfl⟩ := makeRoom_ok h
  have room := Room.within_iff.mp grows.room
  exact ⟨v.grown grows (grows.keeps (.inr rfl)), room.2.2.2.2 rfl, rfl⟩

/-- Room for more beside what there is. -/
theorem Valid.makeRoomKeeping (v : c.Valid) (h : c.makeRoomKeeping need = .ok d) :
    c.Keeps d ∧ need.within d.shape.room = true ∧ d.flags = c.flags := by
  obtain ⟨t, grows, rfl⟩ := makeRoom_ok h
  have room := Room.within_trans (Room.within_union_right _ _) grows.room
  exact ⟨v.grown grows (grows.keeps (.inl (Room.within_union_left _ _))), room, rfl⟩

/-! ### Conversions -/

/-- An integer beside the value. -/
theorem Valid.keepInt (v : c.Valid) (plain : c.flags.refOk ≠ true)
    (room : c.shape.room.int = true) (n : Int64) (exact : Bool) :
    c.Keeps (c.keepInt n exact) := by
  have fits := Room.within_iff.mp v.room
  refine Valid.keeps ⟨?_, ?_, v.object, v.payload⟩ rfl rfl rfl rfl rfl
  · exact ⟨fun _ => rfl, v.value.num, v.value.ref, v.value.weak, fun ref => absurd ref plain,
      v.value.utf8⟩
  · exact Room.within_iff.mpr ⟨fun _ => room, fits.2⟩

/-- A float beside the value. -/
theorem Valid.keepFloat (v : c.Valid) (plain : c.flags.refOk ≠ true)
    (room : c.shape.room.num = true) (n : Binary64) (exact : Bool) :
    c.Keeps (c.keepFloat n exact) := by
  have fits := Room.within_iff.mp v.room
  refine Valid.keeps ⟨?_, ?_, v.object, v.payload⟩ rfl rfl rfl rfl rfl
  · exact ⟨v.value.int, fun _ => rfl, v.value.ref, v.value.weak, fun ref => absurd ref plain,
      v.value.utf8⟩
  · exact Room.within_iff.mpr ⟨fits.1, fun _ => room, fits.2.2⟩

/-- A text beside a value that has none. -/
theorem Valid.keepText (v : c.Valid) (plain : c.flags.refOk ≠ true)
    (room : c.shape.room.text = true) (absent : c.flags.textOk = false) (b : Bytes) :
    c.Keeps { c with text := b, flags := { c.flags with textOk := true } } := by
  have fits := Room.within_iff.mp v.room
  have unmarked : c.flags.utf8 ≠ true := fun marked => by
    rw [(v.value.utf8 marked).1] at absent
    cases absent
  refine Valid.keeps ⟨?_, ?_, v.object, v.payload⟩ rfl rfl rfl rfl rfl
  · exact ⟨v.value.int, v.value.num, v.value.ref, v.value.weak, fun ref => absurd ref plain,
      fun marked => absurd marked unmarked⟩
  · exact Room.within_iff.mpr ⟨fits.1, fits.2.1, fun _ => room, fits.2.2.2⟩

/-- A value that is no reference. -/
def Source.IsPlain : Source → Prop
  | .int _ | .float _ | .text _ => True
  | _ => False

theorem Valid.plain (v : c.Valid) {alive : CellId → Bool} (plain : (c.source alive).IsPlain) :
    c.flags.refOk ≠ true := by
  intro ref
  have alone := v.value.alone ref
  have int : c.flags.intOk ≠ true := fun ok => by
    rw [v.value.int ok] at alone
    cases alone.1
  have num : c.flags.numOk ≠ true := fun ok => by
    rw [v.value.num ok] at alone
    cases alone.2.1
  rw [source, if_neg int, if_neg num, if_pos ref] at plain
  cases found : c.referent alive <;> rw [found] at plain <;> exact plain

/-- What is kept comes after room was made for it. -/
theorem Valid.makeRoomKeeping_bind (v : c.Valid) (keep : Cell → Cell)
    (h : (do return keep (← c.makeRoomKeeping need)) = Except.ok d) :
    ∃ e, c.Keeps e ∧ need.within e.shape.room = true ∧ e.flags = c.flags ∧ d = keep e := by
  cases roomy : c.makeRoomKeeping need with
  | error _ =>
    rw [roomy] at h
    cases h
  | ok e =>
    rw [roomy] at h
    cases h
    obtain ⟨k, room, flags⟩ := v.makeRoomKeeping roomy
    exact ⟨e, k, room, flags, rfl⟩

/-- The number in a text. -/
theorem Valid.keepNumber (v : c.Valid) (plain : c.flags.refOk ≠ true) {n : Number} {exact : Bool}
    (h : c.keepNumber n exact = .ok d) : c.Keeps d := by
  cases n with
  | int n =>
    obtain ⟨e, k, room, flags, rfl⟩ := v.makeRoomKeeping_bind (·.keepInt n exact) h
    exact k.trans (k.valid.keepInt (flags ▸ plain) ((Room.within_iff.mp room).1 rfl) n exact)
  | float f =>
    obtain ⟨e, k, room, flags, rfl⟩ := v.makeRoomKeeping_bind
      (fun e => if f.isInt64 then (e.keepFloat f exact).keepInt f.toInt64 exact
        else e.keepFloat f exact) h
    have fits := Room.within_iff.mp room
    have plain : e.flags.refOk ≠ true := flags ▸ plain
    have float := k.valid.keepFloat plain (fits.2.1 rfl) f exact
    split
    · exact k.trans (float.trans (float.valid.keepInt plain (fits.1 rfl) f.toInt64 exact))
    · exact k.trans float

/-! ### Writes -/

/-- **A write.**  A cell that has grown gets a value that it was asked to make room for. -/
theorem Valid.refill (v : c.Valid) (grows : c.shape.Grows need t) {int : Int64} {num : Binary64}
    {text : Bytes} {target : Option Target} {flags : Flags} (value : flags.Tells text target)
    (room : flags.needs.within need = true) (object : flags.object = c.flags.object) :
    c.Becomes { c with shape := t, int, num, text, target, flags } := by
  have fits := Room.within_iff.mp (Room.within_trans room grows.room)
  have hooks := (Room.within_iff.mp v.room).2.2.2.2
  refine ⟨rfl, rfl, grows.climbs, value, ?_, object.trans v.object, v.payload_grown grows⟩
  exact Room.within_iff.mpr ⟨fits.1, fits.2.1, fits.2.2.1, fits.2.2.2.1,
    fun used => grows.hooks (hooks used)⟩

/-- A cell is cleared. -/
theorem Valid.clear (v : c.Valid) (payload : Payload) (same : payload.shape? = c.payload.shape?) :
    c.Becomes { c.clearValue with payload } := by
  have hooks := (Room.within_iff.mp v.room).2.2.2.2
  refine ⟨rfl, rfl, Shape.climbsTo_refl _, ⟨nofun, nofun, rfl, ⟨nofun, nofun⟩, nofun, nofun⟩, ?_,
    v.object, same.trans v.payload⟩
  exact Room.within_iff.mpr ⟨nofun, nofun, nofun, nofun, hooks⟩

/-- An aggregate gets another payload of its kind. -/
theorem Valid.withPayload (v : c.Valid) {payload : Payload}
    (same : payload.shape? = c.payload.shape?) : c.Becomes { c with payload } :=
  ⟨rfl, rfl, Shape.climbsTo_refl _, v.value, v.room, v.object, same.trans v.payload⟩

/-- An empty cell becomes an aggregate. -/
theorem Valid.aggregated (v : c.Valid) (undef : c.shape = .undef)
    (aggregate : t.isAggregate = true) (payload : Payload) (fits : payload.shape? = some t) :
    c.Becomes { c with shape := t, payload } := by
  have fresh := Room.within_iff.mp v.room
  rw [undef] at fresh
  have none (a b : Bool) (no : a = true → false = true) : a = true → b = true := fun yes => by
    cases no yes
  refine ⟨rfl, rfl, ?_, v.value, ?_, v.object, ?_⟩
  · rw [undef, Shape.climbsTo_iff]
    exact .inr (.inl ⟨aggregate, rfl⟩)
  · exact Room.within_iff.mpr ⟨none _ _ fresh.1, none _ _ fresh.2.1, none _ _ fresh.2.2.1,
      none _ _ fresh.2.2.2.1, none _ _ fresh.2.2.2.2⟩
  · rw [fits]
    exact (if_pos aggregate).symm

/-! ### Marks, attachments and packages -/

/-- Marks that do not belong to the value. -/
theorem Valid.marked (v : c.Valid) (readOnly tainted inHooks : Bool) :
    c.Keeps { c with flags := { c.flags with readOnly, tainted, inHooks } } :=
  Valid.keeps ⟨⟨v.value.int, v.value.num, v.value.ref, v.value.weak, v.value.alone, v.value.utf8⟩,
    v.room, v.object, v.payload⟩ rfl rfl rfl rfl rfl

/-- A reference gives up its hold. -/
theorem Valid.weaken (v : c.Valid) {i : CellId} (strong : c.target = some (.strong i)) :
    c.Becomes { c with target := some (.weak i), flags := { c.flags with weak := true } } := by
  refine ⟨rfl, rfl, Shape.climbsTo_refl _, ?_, v.room, v.object, v.payload⟩
  refine ⟨v.value.int, v.value.num, ?_, ⟨fun _ => ⟨i, rfl⟩, fun _ => rfl⟩, v.value.alone,
    v.value.utf8⟩
  rw [v.value.ref, strong]
  rfl

/-- Other attachments. -/
theorem Valid.withHooks (v : c.Valid) {hooks : List Attachment}
    (room : hooks ≠ [] → c.shape.room.hooks = true) : Valid { c with hooks } := by
  have fits := Room.within_iff.mp v.room
  refine ⟨v.value, ?_, v.object, v.payload⟩
  refine Room.within_iff.mpr ⟨fits.1, fits.2.1, fits.2.2.1, fits.2.2.2.1, fun used => ?_⟩
  rcases Bool.or_eq_true _ _ ▸ used with package | attached
  · exact fits.2.2.2.2 (Bool.or_eq_true _ _ ▸ .inl package)
  · exact room (by simpa using attached)

/-- What is attached has room. -/
theorem Valid.room_of_hooks (v : c.Valid) (attached : c.hooks ≠ []) :
    c.shape.room.hooks = true := by
  refine (Room.within_iff.mp v.room).2.2.2.2 ?_
  simp [needs, attached]

/-- An object of a package. -/
theorem Valid.bless (v : c.Valid) (room : c.shape.room.hooks = true) (package : Key) :
    c.Keeps { c with package := some package, flags := { c.flags with object := true } } := by
  have fits := Room.within_iff.mp v.room
  refine Valid.keeps ⟨?_, ?_, rfl, v.payload⟩ rfl rfl rfl rfl rfl
  · exact ⟨v.value.int, v.value.num, v.value.ref, v.value.weak, v.value.alone, v.value.utf8⟩
  · exact Room.within_iff.mpr ⟨fits.1, fits.2.1, fits.2.2.1, fits.2.2.2.1, fun _ => room⟩

end Cell

end ScriptCore
