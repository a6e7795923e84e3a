import ScriptCore.Proofs.Pad.Handles

/-!
# Pad — what one directive does

A directive takes units from one sequence of the compile clock to the same or the next one
(`Tick`).  A name that was there keeps all but its type, or is introduced if it was pending, or is
closed if a scope that it is in is left.  A name that comes is not closed, and not introduced
either unless it is a prototype, which has a name that no program spells.

* `tick_perform`: every directive is a tick, also one that fails.
* `Tick.becomes`: what the declarations say of a sequence that has passed stays.
* `Tick.timed`: until the clock comes round, names were introduced and closed at sequences that
  have passed, but for prototypes, which are introduced at the present one.
* `timed_reached`: so they are at any time of a run in which the clock does not come round.
-/

namespace ScriptCore

/-! ### Names -/

/-- What a directive makes of a name, where `c` is the clock before it, `d` the clock after it, and
`closes` says that a scope which the name is in is left. -/
inductive PadName.Tick (c d : UInt32) (closes : Prop) (n : PadName) : PadName → Prop
  | typed (typeName : Option Key) : Tick c d closes n { n with typeName }
  | introduced : n.isPending = true → c ≠ d → Tick c d closes n { n with introduced := some c }
  | closed : closes → c ≠ d → Tick c d closes n (CodeUnit.closeName c n)

namespace PadName

/-- The name that prototypes have. -/
def IsAnonymous (n : PadName) : Prop := n.name.letters = (Spelling.ofText "__ANON__").letters

/-- A name as it comes to a unit at sequence `c`. -/
structure Fresh (c : UInt32) (n : PadName) : Prop where
  unclosed : n.closed = none
  introduced : ∀ first, n.introduced = some first → first = c ∧ n.IsAnonymous

/-- A name was introduced before `c`, unless it is a prototype's, and closed before `c`. -/
structure Timed (c : UInt32) (n : PadName) : Prop where
  introduced : ∀ first, n.introduced = some first → first < c ∨ n.IsAnonymous
  closed : ∀ last, n.closed = some last → last < c

variable {c d s : UInt32} {closes : Prop} {n n' : PadName}

theorem isPending_iff : n.isPending = true ↔ n.isCaptured = false ∧ n.introduced = none := by
  simp [isPending]

theorem Tick.refl (c d : UInt32) (closes : Prop) (n : PadName) : n.Tick c d closes n :=
  .typed n.typeName

/-- While the clock stands still, a name only gets a type. -/
theorem Tick.typed_of_still (h : n.Tick c c closes n') : ∃ typeName, n' = { n with typeName } := by
  cases h with
  | typed typeName => exact ⟨typeName, rfl⟩
  | introduced _ moves | closed _ moves => exact absurd rfl moves

/-- A name that is not pending keeps all but its type while no scope that it is in is left. -/
theorem Tick.typed_of_settled (h : n.Tick c d closes n') (settled : n.isPending = false)
    (stays : ¬ closes) : ∃ typeName, n' = { n with typeName } := by
  cases h with
  | typed typeName => exact ⟨typeName, rfl⟩
  | introduced pending => rw [settled] at pending; cases pending
  | closed closes => exact absurd closes stays

theorem Tick.becomes (h : n.Tick c d closes n') : n.Becomes c n' := by
  cases h with
  | typed => exact ⟨rfl, rfl, rfl, fun _ _ => Iff.rfl⟩
  | introduced pending => exact CodeUnit.becomes_introduced (isPending_iff.mp pending).2
  | closed => exact CodeUnit.becomes_closeName n

theorem Timed.later (t : n.Timed c) (le : c ≤ d) : n.Timed d :=
  ⟨fun first e => (t.introduced first e).imp_left (·.trans_le le),
    fun last e => (t.closed last e).trans_le le⟩

theorem Tick.timed (h : n.Tick c d closes n') (le : c ≤ d) (t : n.Timed c) : n'.Timed d := by
  have later := t.later le
  cases h with
  | typed => exact ⟨later.introduced, later.closed⟩
  | introduced _ moves =>
    refine ⟨fun first e => .inl ?_, later.closed⟩
    cases e
    exact lt_of_le_of_ne le moves
  | closed _ moves =>
    have lt := lt_of_le_of_ne le moves
    rcases CodeUnit.closeName_cases c n with ⟨same, -⟩ | ⟨-, -, shut⟩
    · rw [same]
      exact later
    · rw [shut]
      refine ⟨fun first e => ?_, fun last e => ?_⟩
      · cases hn : n.introduced with
        | none =>
          rw [hn] at e
          cases e
          exact .inl lt
        | some first' =>
          rw [hn] at e
          cases e
          exact later.introduced _ hn
      · cases e
        exact lt

theorem Fresh.timed (f : n.Fresh c) : n.Timed c where
  introduced first e := .inr (f.introduced first e).2
  closed last e := by
    rw [f.unclosed] at e
    cases e

theorem fresh_captured (n : PadName) (c : UInt32) (slot : Nat) : (n.captured slot).Fresh c :=
  ⟨rfl, nofun⟩

/-- A name that has just come is not in force. -/
theorem Fresh.not_declaredAt (f : n.Fresh c) (le : s ≤ c) : ¬ n.DeclaredAt s := by
  rintro ⟨first, e, lt, -⟩
  exact absurd le (not_le.mpr ((f.introduced first e).1 ▸ lt))

end PadName

/-! ### Units -/

/-- What a directive makes of a unit, where `closes i` says that it leaves a scope which slot `i` is
in. -/
structure CodeUnit.Tick (c d : UInt32) (closes : Nat → Prop) (x y : CodeUnit) : Prop where
  outer : y.outer = x.outer
  outerSequence : y.outerSequence = x.outerSequence
  old : ∀ (i : Nat) (n : Option PadName), x.slots[i]? = some n →
    ∃ n', y.slots[i]? = some n' ∧ Option.Rel (PadName.Tick c d (closes i)) n n'
  added : ∀ (i : Nat) (n : PadName), x.slots.length ≤ i → y.slots[i]? = some (some n) → n.Fresh c

namespace CodeUnit
variable {c d : UInt32} {closes : Nat → Prop} {x y z : CodeUnit}

/-- A change of each name. -/
theorem tick_map {f : Nat → PadName → PadName} (ho : y.outer = x.outer)
    (hs : y.outerSequence = x.outerSequence)
    (hy : ∀ i : Nat, y.slots[i]? = (x.slots[i]?).map (Option.map (f i)))
    (hf : ∀ (i : Nat) (n : PadName), n.Tick c d (closes i) (f i n)) : x.Tick c d closes y where
  outer := ho
  outerSequence := hs
  old := retains_map hy hf
  added i n le hn := by
    rw [hy, List.getElem?_eq_none le] at hn
    cases hn

/-- No slot changes. -/
theorem tick_scopes (scopes : List Nat) : x.Tick c d closes { x with scopes } :=
  tick_map (f := fun _ n => n) rfl rfl (fun i => by simp) fun _ n => .refl c d _ n

theorem tick_introduce (moves : c ≠ d) : x.Tick c d closes (x.introduce c) := by
  refine tick_map rfl rfl (slots_introduce x c) fun _ n => ?_
  split
  · rename_i pending
    exact .introduced pending moves
  · exact .refl c d _ n

theorem tick_close (moves : c ≠ d) (start : Nat) (scopes : List Nat)
    (h : ∀ i, start ≤ i → closes i) : x.Tick c d closes (close { x with scopes } start c) := by
  refine tick_map rfl rfl (slots_close { x with scopes } start c) fun i n => ?_
  split
  · exact .refl c d _ n
  · rename_i ge
    exact .closed (h i (Nat.not_lt.mp ge)) moves

theorem tick_annotate (slot : Nat) (key : Key) : x.Tick c d closes { x with
    slots := x.slots.modify slot (·.map fun n => { n with typeName := some key }) } := by
  refine tick_map rfl rfl (slots_annotate x slot key) fun i n => ?_
  split
  · exact .typed (some key)
  · exact .refl c d _ n

theorem tick_addSlot {n : Option PadName} (captures : Bool) (h : ∀ m, n = some m → m.Fresh c) :
    x.Tick c d closes { x.addSlot n with captures } where
  outer := rfl
  outerSequence := rfl
  old := retains_addSlot (fun i => .refl c d (closes i)) x n captures
  added _ m le hm := h m (getElem?_addSlot le hm).2.symm

theorem Tick.becomes (h : x.Tick c d closes y) : x.Becomes c y where
  outer := h.outer
  outerSequence := h.outerSequence
  old := Retains.imp h.old fun _ _ _ r => r.becomes
  added i n le hn _ _ hs := (h.added i n le hn).not_declaredAt hs

/-- Where a named slot comes from. -/
theorem Tick.cases (h : x.Tick c d closes y) {i : Nat} {n' : PadName}
    (hn : y.slots[i]? = some (some n')) :
    (∃ n, x.slots[i]? = some (some n) ∧ n.Tick c d (closes i) n') ∨
      x.slots.length ≤ i ∧ n'.Fresh c := by
  by_cases lt : i < x.slots.length
  · exact .inl (Retains.slot_inv h.old lt hn)
  · exact .inr ⟨Nat.not_lt.mp lt, h.added i n' (Nat.not_lt.mp lt) hn⟩

/-- A tick and one after it, while the clock stands still. -/
theorem Tick.trans (h : x.Tick c c closes y) {closes' : Nat → Prop} (h' : y.Tick c c closes' z) :
    x.Tick c d closes z where
  outer := h'.outer.trans h.outer
  outerSequence := h'.outerSequence.trans h.outerSequence
  old := Retains.trans h.old h'.old fun _ _ _ _ r r' => by
    obtain ⟨_, rfl⟩ := r.typed_of_still
    obtain ⟨typeName, rfl⟩ := r'.typed_of_still
    exact .typed typeName
  added i n le hn := by
    rcases h'.cases hn with ⟨m, hm, r⟩ | ⟨-, fresh⟩
    · obtain ⟨_, rfl⟩ := r.typed_of_still
      have fresh := h.added i m le hm
      exact ⟨fresh.unclosed, fresh.introduced⟩
    · exact fresh

end CodeUnit

namespace Pads
open Beside

/-! ### Pads -/

/-- What a directive makes of pads that moves the clock on `k` times at most, where `leaves u i`
says that it leaves a scope of unit `u` which slot `i` is in. -/
structure Tick (k : Nat) (leaves : Nat → Nat → Prop) (p q : Pads) : Prop where
  clock : p.clock.toNat + k < 2 ^ 32 → p.clock ≤ q.clock
  seed : q.seed = p.seed
  unit : ∀ (u : Nat) (x : CodeUnit), p.units[u]? = some x →
    ∃ y, q.units[u]? = some y ∧ x.Tick p.clock q.clock (leaves u) y
  opened : ∀ (u : Nat) (y : CodeUnit), p.units[u]? = none → q.units[u]? = some y →
    ∀ (i : Nat) (n : PadName), y.slots[i]? = some (some n) → n.Fresh p.clock

/-- No unit changed, and the clock stands still. -/
structure Rests (p q : Pads) : Prop where
  units : q.units = p.units
  clock : q.clock = p.clock
  seed : q.seed = p.seed

section
variable {k : Nat} {leaves leaves' : Nat → Nat → Prop} {p q r : Pads} {u : Nat}
  {x y : CodeUnit}

theorem Rests.refl (p : Pads) : Rests p p := ⟨rfl, rfl, rfl⟩

/-- Nothing but units, the clock and the seed counts. -/
theorem Tick.of_rests (h : Rests p q) (t : Tick k leaves q r) : Tick k leaves p r where
  clock := h.clock ▸ t.clock
  seed := t.seed.trans h.seed
  unit u x hx := h.clock ▸ t.unit u x (h.units ▸ hx)
  opened u y hp hy i n hn := h.clock ▸ t.opened u y (h.units ▸ hp) hy i n hn

/-- No unit changes. -/
theorem tick_units (units : q.units = p.units)
    (clock : p.clock.toNat + k < 2 ^ 32 → p.clock ≤ q.clock) (seed : q.seed = p.seed) :
    Tick k leaves p q where
  clock := clock
  seed := seed
  unit _ x hx := ⟨x, units ▸ hx, CodeUnit.tick_scopes x.scopes⟩
  opened u y hp hy := by
    rw [units, hp] at hy
    cases hy

theorem Rests.tick (h : Rests p q) : Tick k leaves p q :=
  tick_units h.units (fun _ => h.clock.ge) h.seed

/-- One unit changes. -/
theorem tick_set (hx : p.units[u]? = some x) (units : q.units = p.units.setIfInBounds u y)
    (clock : p.clock.toNat + k < 2 ^ 32 → p.clock ≤ q.clock) (seed : q.seed = p.seed)
    (b : x.Tick p.clock q.clock (leaves u) y) : Tick k leaves p q where
  clock := clock
  seed := seed
  unit _ _ hz := by
    rw [units]
    exact units_set (R := fun u => CodeUnit.Tick p.clock q.clock (leaves u)) hx b
      (fun _ z => CodeUnit.tick_scopes z.scopes) hz
  opened v z hp hz := by
    have size : q.units.size = p.units.size := by rw [units, Array.size_setIfInBounds]
    rw [Array.getElem?_eq_none_iff, ← size, ← Array.getElem?_eq_none_iff] at hp
    cases hp.symm.trans hz

/-- A unit comes, without slots. -/
theorem tick_push (empty : x.slots = []) (units : q.units = p.units.push x)
    (clock : p.clock.toNat + k < 2 ^ 32 → p.clock ≤ q.clock) (seed : q.seed = p.seed) :
    Tick k leaves p q where
  clock := clock
  seed := seed
  unit _ z hz := ⟨z, units ▸ units_push hz, CodeUnit.tick_scopes z.scopes⟩
  opened v z hp hz i n hn := by
    rcases units_push_cases (units ▸ hz) with ⟨-, rfl⟩ | hz
    · rw [empty] at hn
      cases hn
    · cases hp.symm.trans hz

theorem Tick.becomes (t : Tick k leaves p q) : p.Becomes p.clock q where
  seed := t.seed
  unit u x hx := by
    obtain ⟨y, hy, b⟩ := t.unit u x hx
    exact ⟨y, hy, b.becomes⟩

/-- A tick and one after it, while the clock stands still. -/
theorem Tick.trans (t : Tick k leaves p q) (still : q.clock = p.clock) (t' : Tick k leaves' q r)
    (still' : r.clock = q.clock) : Tick k leaves p r where
  clock _ := (still'.trans still).ge
  seed := t'.seed.trans t.seed
  unit u x hx := by
    obtain ⟨y, hy, b⟩ := t.unit u x hx
    obtain ⟨z, hz, b'⟩ := t'.unit u y hy
    rw [still', still] at b'
    rw [still] at b
    exact ⟨z, hz, b.trans b'⟩
  opened u z hp hz i n hn := by
    cases hy : q.units[u]? with
    | none => exact still ▸ t'.opened u z hy hz i n hn
    | some y =>
      obtain ⟨z', hz', b⟩ := t'.unit u y hy
      cases hz.symm.trans hz'
      rcases b.cases hn with ⟨m, hm, r⟩ | ⟨-, fresh⟩
      · rw [still'] at r
        obtain ⟨_, rfl⟩ := r.typed_of_still
        have fresh := t.opened u y hp hy i m hm
        exact ⟨fresh.unclosed, fresh.introduced⟩
      · exact still ▸ fresh

/-! ### Times -/

/-- The names of all units are timed. -/
def Timed (p : Pads) : Prop :=
  ∀ (u i : Nat) (x : CodeUnit) (n : PadName), p.units[u]? = some x →
    x.slots[i]? = some (some n) → n.Timed p.clock

/-- **A tick keeps names timed**, unless the clock comes round. -/
theorem Tick.timed (t : Tick k leaves p q) (room : p.clock.toNat + k < 2 ^ 32) (timed : p.Timed) :
    q.Timed := by
  have later := t.clock room
  intro u i y n hy hn
  cases hx : p.units[u]? with
  | none => exact ((t.opened u y hx hy i n hn).timed).later later
  | some x =>
    obtain ⟨y', hy', b⟩ := t.unit u x hx
    cases hy.symm.trans hy'
    rcases b.cases hn with ⟨m, hm, r⟩ | ⟨-, fresh⟩
    · exact r.timed later (timed u i x m hx hm)
    · exact fresh.timed.later later

theorem Rests.timed (r : Rests p q) (timed : p.Timed) : q.Timed :=
  (r.tick : Tick 0 (fun _ _ => False) p q).timed p.clock.toNat_lt timed

end

/-! ### Captures -/

section
variable {p q : Pads} {u o slot levels : Nat} {name : Key} {sigil : Sigil} {found : Nat × Pads}
  {leaves : Nat → Nat → Prop}

/-- What capturing does: it is a tick while the clock stands still. -/
def Adds (p q : Pads) : Prop := q.clock = p.clock ∧ ∀ leaves, Tick 0 leaves p q

theorem Adds.refl (p : Pads) : Adds p p := ⟨rfl, fun _ => (Rests.refl p).tick⟩

theorem adds_standIn (e : p.standIn u o name sigil slot = some found) : Adds p found.2 := by
  rcases pads_of_standIn e with same | ⟨x, m, hx, added⟩
  · exact same ▸ .refl p
  · rw [added]
    refine ⟨rfl, fun _ => tick_set hx rfl (fun _ => le_rfl) rfl ?_⟩
    refine CodeUnit.tick_addSlot true fun n hn => ?_
    cases hn
    exact PadName.fresh_captured m _ slot

theorem Adds.trans {r : Pads} (h : Adds p q) (h' : Adds q r) : Adds p r :=
  ⟨h'.1.trans h.1, fun leaves => (h.2 leaves).trans h.1 (h'.2 leaves) h'.1⟩

theorem adds_captureWithin (e : captureWithin name sigil levels p u = some found) :
    Adds p found.2 :=
  captureWithin_keeps (P := Adds p) (fun h e => h.trans (adds_standIn e)) (.refl p) e

theorem adds_lookup {text : String} (e : p.lookup u text sigil = some found) : Adds p found.2 :=
  lookup_keeps (P := Adds p) (fun h e => h.trans (adds_standIn e)) (.refl p) e

end

/-! ### Directives -/

/-- The directive leaves a scope of unit `u` that slot `i` is in. -/
def Directive.Leaves (u i : Nat) : Directive → Prop
  | leaveScope mark => mark.unit = u ∧ mark.start ≤ i
  | _ => False

section
variable {k : Nat} {leaves : Nat → Nat → Prop} {p : Pads} {s : Beside Pads} {u : Nat} {x : CodeUnit}
  {f : CodeUnit → CodeUnit} {E : Beside Pads → Prop}

/-- The pads beside a heap are a tick on from `p`. -/
def Ticked (k : Nat) (leaves : Nat → Nat → Prop) (p : Pads) (s : Beside Pads) : Prop :=
  Tick k leaves p s.own

theorem ends_intern (sound : s.heap.ring.Sound) (r : Rests p s.own) (name : String) :
    Ends (intern name) s (fun key t => Rests p t.own ∧
      key.letters = (Spelling.ofText name).letters) E := by
  refine Ends.step (a := s.heap) (t := s) rfl (Ends.self ?_)
  exact ⟨⟨r.units, r.clock, r.seed⟩, (sound.intern s.own.pool (.ofText name)).1⟩

theorem ticked_search {g : Pads → Option (Nat × Pads)}
    (hg : ∀ found, g s.own = some found → Adds s.own found.2) :
    Ticked 0 leaves s.own { s with own := ((g s.own).map (·.2)).getD s.own } := by
  unfold Ticked
  cases e : g s.own with
  | none => exact (Rests.refl s.own).tick
  | some found => exact (hg found e).2 leaves

/-- Looking for a unit, and going on where it is found. -/
theorem ends_unit_bind {α : Type} {g : CodeUnit → OnPads α} (r : Rests p s.own)
    (hg : ∀ x, s.own.units[u]? = some x →
      Ends (g x) s (fun _ => Ticked k leaves p) (Ticked k leaves p)) :
    Ends (unit u >>= g) s (fun _ => Ticked k leaves p) (Ticked k leaves p) := by
  refine ((ends_unit u s).imp (fun _ _ q => q) fun t e => e.1 ▸ r.tick).bind ?_
  rintro x t ⟨rfl, hx⟩
  exact hg x hx

/-- Seeing that there is a unit, and going on where there is. -/
theorem ends_found_bind {α : Type} {g : Unit → OnPads α} (r : Rests p s.own)
    (hg : ∀ x, s.own.units[u]? = some x →
      Ends (g ()) s (fun _ => Ticked k leaves p) (Ticked k leaves p)) :
    Ends (discard (unit u) >>= g) s (fun _ => Ticked k leaves p) (Ticked k leaves p) := by
  refine Ends.bind (Q := fun _ t => t = s ∧ ∃ x, s.own.units[u]? = some x) ?_ ?_
  · exact ((ends_unit u s).imp (fun x _ q => ⟨q.1, x, q.2⟩) fun t e => e.1 ▸ r.tick).discard
  · rintro _ t ⟨rfl, x, hx⟩
    exact hg x hx

/-- A unit that was found changes. -/
theorem ends_change (r : Rests p s.own) (hx : s.own.units[u]? = some x)
    (b : x.Tick s.own.clock s.own.clock (leaves u) (f x)) :
    Ends (changeUnit u f) s (fun _ => Ticked k leaves p) E :=
  Tick.of_rests r (tick_set hx (units_modify hx f) (fun _ => le_rfl) rfl b)

/-- A unit that was found changes as of the present sequence, and the clock moves on. -/
theorem ends_change_advance {α : Type} (a : α) (r : Rests p s.own)
    (hx : s.own.units[u]? = some x)
    (b : x.Tick s.own.clock (s.own.clock + 1) (leaves u) (f x)) :
    Ends (do changeUnit u f; discard advance; return a : OnPads α) s (fun _ => Ticked 1 leaves p)
      E :=
  Tick.of_rests r (tick_set (q := { s.own with
      units := s.own.units.modify u f, clock := s.own.clock + 1 })
    hx (units_modify hx f) (fun room => (lt_next room).1.le) rfl b)

theorem ends_addSlot {n : Option PadName} (r : Rests p s.own)
    (fresh : ∀ m, n = some m → m.Fresh s.own.clock) :
    Ends (addSlot u n) s (fun _ => Ticked k leaves p) (Ticked k leaves p) := by
  refine ends_unit_bind r fun x hx => ?_
  exact (ends_change r hx (CodeUnit.tick_addSlot x.captures fresh)).bind fun _ _ t => t

theorem ends_openUnit (sound : s.heap.ring.Sound) (name : Option String) (outer : Option Nat) :
    Ends (openUnit name outer) s (fun _ => Ticked k leaves s.own) (Ticked k leaves s.own) := by
  have named : Ends (name.mapM intern) s (fun _ t => Rests s.own t.own)
      (Ticked k leaves s.own) := by
    cases name with
    | none => exact Rests.refl s.own
    | some text =>
      change Ends (intern text >>= fun key => pure (some key)) s _ _
      exact (ends_intern sound (.refl _) text).bind fun _ _ q => q.1
  have opened : Ends (do
      let name ← name.mapM intern
      let p ← self
      changeSelf fun p =>
        { p with units := p.units.push { name, outer, outerSequence := p.clock } }
      return p.units.size) s (fun _ => Ticked k leaves s.own) (Ticked k leaves s.own) := by
    refine named.bind fun name t r => Ends.self ?_
    exact Tick.of_rests r (tick_push rfl rfl (fun _ => le_rfl) rfl)
  unfold openUnit
  cases outer with
  | none => exact opened
  | some o => exact ends_found_bind (.refl _) fun _ _ => opened

theorem ends_declare (sound : s.heap.ring.Sound) (name : String) (sigil : Sigil)
    (declarator : Declarator) : Ends (declare u name sigil declarator) s
      (fun _ => Ticked k leaves s.own) (Ticked k leaves s.own) := by
  refine (ends_intern sound (.refl _) name).bind fun key t ⟨r, _⟩ => ?_
  have add {t : Beside Pads} (r : Rests s.own t.own) :
      Ends (addSlot u (some { name := key, sigil, declarator })) t
        (fun _ => Ticked k leaves s.own) (Ticked k leaves s.own) := by
    refine ends_addSlot r fun m hm => ?_
    cases hm
    exact ⟨rfl, nofun⟩
  refine ends_unit_bind r fun x hx => ?_
  split
  · refine Ends.bind (Q := fun _ t => Rests s.own t.own) ?_ fun _ t r => add r
    exact ((Keeps.onHeap (P := Rests s.own) _).ends r).imp (fun _ _ r => r) fun _ r => r.tick
  · exact add r

theorem ends_annotate (sound : s.heap.ring.Sound) (slot : Nat) (typeName : String) :
    Ends (annotate u slot typeName) s (fun _ => Ticked k leaves s.own) (Ticked k leaves s.own) := by
  refine (ends_intern sound (.refl _) typeName).bind fun key t ⟨r, _⟩ => ?_
  refine ends_found_bind r fun x hx => ?_
  exact ends_change r hx (CodeUnit.tick_annotate slot key)

theorem ends_addPrototype (sound : s.heap.ring.Sound) (nested : Nat) :
    Ends (addPrototype u nested) s (fun _ => Ticked k leaves s.own) (Ticked k leaves s.own) := by
  refine ends_unit_bind (.refl _) fun z hz => ?_
  dsimp only
  split
  · exact (Rests.refl s.own).tick
  · refine (ends_intern sound (.refl _) _).bind fun key t ⟨r, letters⟩ => Ends.self ?_
    refine ends_addSlot r fun m hm => ?_
    cases hm
    exact ⟨rfl, fun first e => ⟨(Option.some.inj e).symm, letters⟩⟩

theorem ends_perform (sound : s.heap.ring.Sound) (d : Directive) :
    Ends d.perform s (fun _ => Ticked d.ticks (fun u i => d.Leaves u i) s.own)
      (Ticked d.ticks (fun u i => d.Leaves u i) s.own) := by
  have rests := Rests.refl s.own
  cases d with
  | openUnit name outer => exact (ends_openUnit sound name outer).discard
  | declare u name sigil declarator => exact (ends_declare sound name sigil declarator).discard
  | annotate u slot typeName => exact ends_annotate sound slot typeName
  | addTemporary u => exact (ends_addSlot rests (by simp)).discard
  | addPrototype u nested => exact (ends_addPrototype sound nested).discard
  | introduce u =>
    refine Ends.discard (ends_found_bind rests fun x hx => Ends.self ?_)
    exact ends_change_advance _ rests hx (CodeUnit.tick_introduce (ne_next _))
  | advance => exact tick_units rfl (fun room => (lt_next room).1.le) rfl
  | enterScope u =>
    refine Ends.discard (ends_unit_bind rests fun x hx => ?_)
    exact (ends_change rests hx (CodeUnit.tick_scopes _)).bind fun _ _ t => t
  | leaveScope mark =>
    refine ends_found_bind rests fun x hx => Ends.self ?_
    refine ends_change_advance () rests hx (CodeUnit.tick_close (ne_next _) _ _ ?_)
    exact fun i le => ⟨rfl, le⟩
  | capture u name sigil =>
    exact ticked_search (g := (·.capture u name sigil)) fun _ => adds_captureWithin
  | lookup u name sigil => exact ticked_search (g := (·.lookup u name sigil)) fun _ => adds_lookup

/-- **A directive is a tick**, whether it succeeds or fails. -/
theorem tick_perform (sound : s.heap.ring.Sound) (d : Directive) :
    Tick d.ticks (fun u i => d.Leaves u i) s.own (after d.perform s).own :=
  (ends_perform sound d).after

end

/-! ### Runs -/

section
variable {h₀ : Heap} {held : List CellId} {s : Beside Pads}

theorem bears_rests (p : Pads) : Bears fun s => Rests p s.own where
  change id f _ := Keeps.changeSelf (P := Rests p) fun q r => by
    split
    · exact ⟨r.units, r.clock, r.seed⟩
    · exact r
  heap _ _ _ r := r

theorem fills_rests (p : Pads) : Fills fun s => Rests p s.own where
  toBears := bears_rests p
  insert a := by
    refine Keeps.self.bind fun q => ?_
    split <;>
      exact Keeps.bind (Keeps.changeSelf (P := Rests p) fun q r => ⟨r.units, r.clock, r.seed⟩)
        fun _ => Keeps.pure _

theorem empties_rests (p : Pads) : Empties (fun _ => True) fun s => Rests p s.own where
  toBears := bears_rests p
  remove id _ := (keeps_activation id).bind fun _ =>
    Keeps.bind (Keeps.changeSelf (P := Rests p) fun _ r => ⟨r.units, r.clock, r.seed⟩)
      fun _ => Keeps.pure _

/-- **Running** changes no unit, and the clock stands still. -/
theorem rests_act (b : Balanced h₀ held s) {op : Op} (running : ∀ d, op ≠ .compile d) :
    Ends (op.act held) s (fun _ t => Rests s.own t.own) fun t => Rests s.own t.own := by
  have start := Rests.refl s.own
  -- what makes activations either succeeds or leaves everything as it is
  have fills {α : Type} {x : OnPads α}
      (walk : Leads (fun t => Rests s.own t.own) x (fun _ t => Rests s.own t.own) fun _ => True)
      (fails : Ends x s (fun _ _ => True) (· = s)) :
      Ends x s (fun _ t => Rests s.own t.own) fun t => Rests s.own t.own :=
    ((walk.ends start).and fails).imp (fun _ _ q => q.1) fun _ e => e.2 ▸ start
  cases op with
  | compile d => exact absurd rfl (running d)
  | activate u outer =>
    refine ends_only (fills ((fills_rests s.own).activate u outer) ?_)
    exact (ends_activate b u outer).imp (fun _ _ _ => trivial) fun _ e => e.2
  | makeClosure u outer =>
    refine Ends.bind (fills ((fills_rests s.own).makeClosure u outer) ?_) fun _ _ q => q
    exact (ends_makeClosure b u outer).imp (fun _ _ _ => trivial) fun _ e => e
  | push base =>
    refine ends_only (fills ((fills_rests s.own).push base) ?_)
    exact (ends_push b base).imp (fun _ _ _ => trivial) fun _ e => e.1
  | pop id => exact ends_only ((empties_rests s.own).pop start fun _ _ _ => trivial)
  | release id => exact ends_only (((empties_rests s.own).release trivial).ends start)
  | sweep => exact ends_only (((empties_rests s.own).sweep fun _ => trivial).ends start)
  | cell id slot =>
    have same {t : Beside Pads} (e : t.own = s.own) : Rests s.own t.own := e ▸ start
    exact ((keeps_cell s.own id slot).ends rfl).imp (fun _ _ => same) fun _ => same
  | onHeap op => exact (Keeps.onHeap (P := Rests s.own) _).ends start

/-- How many times an operation moves the clock on at most. -/
def Op.ticks : Op → Nat
  | compile d => d.ticks
  | _ => 0

/-- How many times a run does. -/
def opTicks : List Op → Nat
  | [] => 0
  | op :: ops => op.ticks + opTicks ops

/-- Pads are well scoped and their names timed, unless the clock may have gone on `m` times and
come round. -/
structure TimedTill (m : Nat) (p : Pads) : Prop extends ScopedTill m p where
  timed : m < 2 ^ 32 → p.Timed

theorem Rests.timedTill {m : Nat} {p q : Pads} (r : p.Rests q) (till : p.TimedTill m) :
    q.TimedTill m :=
  ⟨till.of_units r.units r.clock, fun few => r.timed (till.timed few)⟩

/-- The clock does not come round in so many ticks. -/
theorem ScopedTill.room {m k : Nat} {p : Pads} (till : p.ScopedTill m) (few : m + k < 2 ^ 32) :
    p.clock.toNat + k < 2 ^ 32 := by
  have clock := (till.scopes (Nat.lt_of_le_of_lt (Nat.le_add_right m k) few)).2
  omega

theorem TimedTill.later {m m' : Nat} {p : Pads} (till : p.TimedTill m) (le : m ≤ m') :
    p.TimedTill m' :=
  ⟨till.toScopedTill.later le, fun few => till.timed (Nat.lt_of_le_of_lt le few)⟩

theorem TimedTill.ticked {m k : Nat} {leaves : Nat → Nat → Prop} {p q : Pads}
    (till : p.TimedTill m) (t : Tick k leaves p q) (scopes : q.ScopedTill (m + k)) :
    q.TimedTill (m + k) := by
  refine ⟨scopes, fun few => t.timed (till.room few) (till.timed ?_)⟩
  exact Nat.lt_of_le_of_lt (Nat.le_add_right m k) few

/-- **One operation** keeps names timed. -/
theorem timed_act {m : Nat} (b : Balanced h₀ held s) (till : s.own.TimedTill m) (op : Op) :
    Ends (op.act held) s (fun _ t => t.own.TimedTill (m + op.ticks))
      fun t => t.own.TimedTill (m + op.ticks) := by
  cases op with
  | compile d =>
    have scopes := (leads_perform d).ends (P := Scoped m) till.toScopedTill
    have tick := ends_perform b.kept.sound.ring d
    exact ends_only ((scopes.and tick).imp (fun _ _ h => till.ticked h.2 h.1)
      fun _ h => till.ticked h.2 h.1)
  | activate | makeClosure | push | pop | release | sweep | cell | onHeap =>
    refine (rests_act b (by simp)).imp (fun _ _ r => ?_) fun _ r => ?_ <;>
      exact r.timedTill till

/-- Compiling keeps the balance. -/
theorem Balanced.compiled (b : Balanced h₀ held s) (ds : List Directive) :
    Balanced h₀ held (compile ds s) := by
  unfold compile
  induction ds generalizing s with
  | nil => exact b
  | cons d ds ih => exact ih ((keeps_directive d).after b)

/-- **Compiling leaves the past alone**, unless the clock comes round. -/
theorem Balanced.becomes_compile {m : Nat} (b : Balanced h₀ held s) (till : s.own.ScopedTill m)
    (ds : List Directive) (few : m + ticks ds < 2 ^ 32) :
    s.own.Becomes s.own.clock (compile ds s).own := by
  unfold compile
  induction ds generalizing s m with
  | nil => exact .refl _ s.own
  | cons d ds ih =>
    have tick := tick_perform b.kept.sound.ring d
    rw [ticks_cons, ← Nat.add_assoc] at few
    have later := ih ((keeps_directive d).after b)
      ((leads_perform d).after till (fun _ => id) id) few
    refine tick.becomes.trans later (tick.clock (till.room ?_))
    exact Nat.lt_of_le_of_lt (Nat.le_add_right _ _) few

/-- **Names are timed** at any time of any run, unless the clock came round. -/
theorem timed_reached (seeds : Array Seed) (supply : Supply) (pool : Nat) (ops : List Op) :
    (reached seeds supply pool ops).own.TimedTill (1 + opTicks ops) := by
  have run {s : Host} {m : Nat}
      (b : Balanced (Host.start seeds supply pool).pads.heap s.held s.pads)
      (till : s.pads.own.TimedTill m) : (s.run ops).pads.own.TimedTill (m + opTicks ops) := by
    induction ops generalizing s m with
    | nil => exact till
    | cons op ops ih =>
      rw [opTicks, ← Nat.add_assoc]
      refine ih (b.step op)
        (Host.of_step (P := fun _ t => t.own.TimedTill (m + op.ticks)) ?_ fun _ => ?_)
      · exact fun _ => timed_act b till op
      · exact till.later (Nat.le_add_right m _)
  refine run (balanced_start seeds supply pool) ⟨?_, fun _ u i x n hx => by cases hx⟩
  exact scopedTill_inPool _ pool

end

end Pads

end ScriptCore
