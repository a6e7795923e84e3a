import ScriptCore.Pad.Activation
import ScriptCore.Proofs.Heap.Aggregates
import ScriptCore.Proofs.Pad.Compile

/-!
# Pad — activations and the cells they hold

`Formed` is the invariant of pads: units are nested in earlier ones, a prototype is one of a unit
compiled directly inside, an activation has no more cells than its unit has slots, and the places
listed as vacant are.  `Balanced h₀ out s`: the pads are formed, and what is held from outside the
heap are the cells of activations and the handles `out`.

Whatever happens to activations happens to one at a time.  `Swaps` says that one came, went or
changed and all others stayed; `Balanced.swap` says what that does to the handles.
-/

namespace ScriptCore

/-- The units that the slots of a unit have prototypes of. -/
def CodeUnit.nestedUnits (x : CodeUnit) : List Nat :=
  x.slots.filterMap fun n => n.bind (·.nested?)

namespace Pads
open Beside

/-- What a place shows to a handle of a generation. -/
def Place.shows (place : Place) (generation : UInt32) : Option Activation :=
  if place.generation = generation then place.activation else none

/-- The cells of an activation, if there is one. -/
def cellsOf (a : Option Activation) : List CellId := (a.map (·.cells)).getD []

/-- The cells that activations hold. -/
def held (p : Pads) : List CellId := p.places.toList.flatMap fun place => cellsOf place.activation

/-- The places listed as vacant are, and each is listed once. -/
def TellsVacant (p : Pads) : Prop :=
  p.vacant.Nodup ∧ ∀ i ∈ p.vacant, ∃ place, p.places[i]? = some place ∧ place.activation = none

/-- The unit of an activation has a slot for each of its cells. -/
def Fits (p : Pads) (a : Activation) : Prop :=
  ∃ x, p.units[a.unit]? = some x ∧ a.cells.length ≤ x.slots.length

/-- A unit has slots for prototypes only of units compiled directly inside. -/
def Nests (p : Pads) : Prop :=
  ∀ (u : Nat) (x : CodeUnit) (v : Nat), p.units[u]? = some x → v ∈ x.nestedUnits →
    ∃ y, p.units[v]? = some y ∧ y.outer = some u

/-- The invariant of pads. -/
structure Formed (p : Pads) : Prop where
  nested : p.WellNested
  nests : p.Nests
  fits : ∀ id a, p.activation? id = some a → p.Fits a
  vacant : p.TellsVacant

/-- The pads are formed, and with the handles `out` they have a handle on each cell for each of
its owners outside the heap. -/
structure Balanced (h₀ : Heap) (out : List CellId) (s : Beside Pads) : Prop where
  formed : s.own.Formed
  kept : Heap.Kept h₀ (out ++ s.own.held) s.heap

/-- In the place of an activation, or of none, there is another, or none. -/
structure Swaps (p q : Pads) (id : ActivationId) (old new : Option Activation) : Prop where
  units : q.units = p.units
  clock : q.clock = p.clock
  before : p.activation? id = old
  after : q.activation? id = new
  others : ∀ x, x ≠ id → q.activation? x = p.activation? x
  held : ∀ i, q.held.count i + (cellsOf old).count i = p.held.count i + (cellsOf new).count i
  vacant : p.TellsVacant → q.TellsVacant

section
variable {p q : Pads} {id x : ActivationId} {place : Place} {f : Place → Place}
  {old new : Option Activation} {a : Activation}

/-! ### One place -/

theorem Place.shows_of_ne {generation : UInt32} (h : place.generation ≠ generation) :
    place.shows generation = none := if_neg h

@[simp]
theorem Place.shows_self (place : Place) : place.shows place.generation = place.activation :=
  if_pos rfl

theorem activation?_eq (p : Pads) (id : ActivationId) :
    p.activation? id = (p.places[id.index]?).bind (·.shows id.generation) := rfl

theorem activation?_eq_some (ha : p.activation? id = some a) :
    ∃ place, p.places[id.index]? = some place ∧ place.generation = id.generation ∧
      place.activation = some a := by
  rw [activation?_eq] at ha
  obtain ⟨place, hp, shown⟩ := Option.bind_eq_some_iff.mp ha
  by_cases same : place.generation = id.generation
  · exact ⟨place, hp, same, by rwa [← same, Place.shows_self] at shown⟩
  · rw [Place.shows_of_ne same] at shown
    cases shown

theorem activation?_modify (places : q.places = p.places.modify id.index f)
    (hp : p.places[id.index]? = some place) (x : ActivationId) :
    q.activation? x =
      if x.index = id.index then (f place).shows x.generation else p.activation? x := by
  rw [activation?_eq, activation?_eq, places, Array.getElem?_modify]
  by_cases same : id.index = x.index
  · rw [if_pos same, if_pos same.symm, ← same, hp]
    rfl
  · rw [if_neg same, if_neg fun e => same e.symm]

theorem count_held_modify {i : Nat} (places : q.places = p.places.modify i f)
    (hp : p.places[i]? = some place) (j : CellId) :
    q.held.count j + (cellsOf place.activation).count j =
      p.held.count j + (cellsOf (f place).activation).count j := by
  have there : p.places.toList[i]? = some place := by rwa [Array.getElem?_toList]
  have perm := Table.perm_flatMap_set (fun place : Place => cellsOf place.activation) (f place)
    there
  have changed : q.places.toList = p.places.toList.set i (f place) := by
    rw [places, Array.toList_modify, List.modify_eq_set, there]
    rfl
  have counted := perm.count_eq j
  rw [List.count_append, List.count_append, ← changed] at counted
  exact counted.symm

/-- Something happens in one place. -/
theorem swaps_modify (id : ActivationId) (units : q.units = p.units) (clock : q.clock = p.clock)
    (places : q.places = p.places.modify id.index f) (hp : p.places[id.index]? = some place)
    (others : ∀ g, g ≠ id.generation → (f place).shows g = place.shows g)
    (before : cellsOf place.activation = cellsOf (place.shows id.generation))
    (after : cellsOf (f place).activation = cellsOf ((f place).shows id.generation))
    (vacant : p.TellsVacant → q.TellsVacant) :
    Swaps p q id (place.shows id.generation) ((f place).shows id.generation) where
  units := units
  clock := clock
  before := by
    rw [activation?_eq, hp]
    rfl
  after := by rw [activation?_modify places hp, if_pos rfl]
  others x hx := by
    rw [activation?_modify places hp]
    by_cases same : x.index = id.index
    · rw [if_pos same, activation?_eq, same, hp]
      refine others _ fun e => hx ?_
      cases x
      cases id
      cases same
      cases e
      rfl
    · rw [if_neg same]
  held j := by
    have counted := count_held_modify places hp j
    rwa [before, after] at counted
  vacant := vacant

theorem Fits.of_units (h : p.Fits a) (units : q.units = p.units) : q.Fits a := by
  unfold Fits
  rwa [units]

theorem Swaps.formed (w : Swaps p q id old new) (formed : p.Formed)
    (fits : ∀ a, new = some a → p.Fits a) : q.Formed where
  nested := formed.nested.of_units w.units
  nests := by
    unfold Nests
    rw [w.units]
    exact formed.nests
  fits x a ha := by
    refine Fits.of_units ?_ w.units
    by_cases hx : x = id
    · subst hx
      exact fits a (w.after ▸ ha)
    · exact formed.fits x a (w.others x hx ▸ ha)
  vacant := w.vacant formed.vacant

end

/-! ### Coming, going and changing -/

section
variable {p : Pads} {id : ActivationId} {place : Place} {a : Activation} {index : Nat}

/-- A list of vacant places may lose one that is taken. -/
theorem TellsVacant.tail {q : Pads} (vacant : p.TellsVacant)
    (list : p.vacant = index :: q.vacant)
    (others : ∀ i, i ≠ index → q.places[i]? = p.places[i]?) : q.TellsVacant := by
  obtain ⟨distinct, empty⟩ := vacant
  rw [list] at distinct empty
  obtain ⟨apart, distinct⟩ := List.nodup_cons.mp distinct
  refine ⟨distinct, fun i hi => ?_⟩
  rw [others i fun e => apart (e ▸ hi)]
  exact empty i (List.mem_cons_of_mem _ hi)

theorem swaps_occupy (vacant : p.TellsVacant) {rest : List Nat}
    (list : p.vacant = index :: rest) (hp : p.places[index]? = some place)
    (empty : place.activation = none) (a : Activation) (live : Nat) :
    Swaps p { p with
      places := p.places.modify index fun place => { place with activation := some a }
      vacant := rest
      live } ⟨index, place.generation⟩ none (some a) := by
  have comes := swaps_modify (p := p) ⟨index, place.generation⟩
    (f := fun place => { place with activation := some a })
    (q := { p with
      places := p.places.modify index fun place => { place with activation := some a }
      vacant := rest
      live }) rfl rfl rfl hp
  simp only [Place.shows, empty, ite_self, ↓reduceIte] at comes
  refine comes (fun g hg => if_neg hg.symm) trivial trivial fun _ => ?_
  refine vacant.tail list fun i hi => ?_
  rw [Array.getElem?_modify, if_neg hi.symm]

theorem swaps_append (vacant : p.TellsVacant) (a : Activation) (live : Nat) :
    Swaps p { p with places := p.places.push { activation := some a }, live }
      ⟨p.places.size, 0⟩ none (some a) where
  units := rfl
  clock := rfl
  before := by
    rw [activation?_eq, Array.getElem?_eq_none (Nat.le_refl _)]
    rfl
  after := by
    rw [activation?_eq, Array.getElem?_push, if_pos rfl]
    rfl
  others x hx := by
    rw [activation?_eq, activation?_eq, Array.getElem?_push]
    split
    · rename_i here
      -- the place is new, so no other generation of it ever was
      rw [here, Array.getElem?_eq_none (Nat.le_refl _)]
      refine Place.shows_of_ne fun generation => hx ?_
      cases x
      cases here
      cases generation
      rfl
    · rfl
  held j := by
    unfold held
    rw [Array.toList_push, List.flatMap_append, List.count_append]
    simp [cellsOf]
  vacant _ := by
    refine ⟨vacant.1, fun i hi => ?_⟩
    obtain ⟨place, hp, empty⟩ := vacant.2 i hi
    refine ⟨place, ?_, empty⟩
    rw [Array.getElem?_push, if_neg, hp]
    rintro rfl
    rw [Array.getElem?_eq_none (Nat.le_refl _)] at hp
    cases hp

/-- A place that is vacated moves on to its next generation. -/
theorem swaps_vacate (ha : p.activation? id = some a) (live : Nat) :
    Swaps p { p with
      places := p.places.modify id.index fun place =>
        { generation := place.generation + 1, activation := none }
      vacant := id.index :: p.vacant
      live } id (some a) none := by
  obtain ⟨place, hp, generation, holds⟩ := activation?_eq_some ha
  have goes := swaps_modify (p := p) id
    (f := fun place => { generation := place.generation + 1, activation := none })
    (q := { p with
      places := p.places.modify id.index fun place =>
        { generation := place.generation + 1, activation := none }
      vacant := id.index :: p.vacant
      live }) rfl rfl rfl hp
  simp only [Place.shows, generation, holds, ite_self, ↓reduceIte] at goes
  refine goes (fun g hg => (if_neg hg.symm).symm) trivial trivial fun vacant => ⟨?_, fun i hi => ?_⟩
  · refine List.nodup_cons.mpr ⟨fun there => ?_, vacant.1⟩
    obtain ⟨place', hp', empty⟩ := vacant.2 _ there
    cases hp.symm.trans hp'
    rw [holds] at empty
    cases empty
  · rw [Array.getElem?_modify]
    by_cases here : id.index = i
    · rw [if_pos here, ← here, hp]
      exact ⟨_, rfl, rfl⟩
    · rw [if_neg here]
      rcases List.mem_cons.mp hi with rfl | hi
      · exact absurd rfl here
      · exact vacant.2 i hi

theorem swaps_change (ha : p.activation? id = some a) (f : Activation → Activation) :
    Swaps p { p with places := p.places.modify id.index fun place =>
      { place with activation := place.activation.map f } } id (some a) (some (f a)) := by
  obtain ⟨place, hp, generation, holds⟩ := activation?_eq_some ha
  have changes := swaps_modify (p := p) id
    (f := fun place => { place with activation := place.activation.map f })
    (q := { p with places := p.places.modify id.index fun place =>
      { place with activation := place.activation.map f } }) rfl rfl rfl hp
  simp only [Place.shows, generation, holds, ↓reduceIte] at changes
  refine changes (fun g hg => ?_) trivial trivial fun vacant => ⟨vacant.1, fun i hi => ?_⟩
  · rw [if_neg hg.symm, if_neg hg.symm]
  · obtain ⟨place', hp', empty⟩ := vacant.2 i hi
    rw [Array.getElem?_modify, hp']
    split
    · exact ⟨_, rfl, congrArg (Option.map f) empty⟩
    · exact ⟨_, rfl, empty⟩

end

section
variable {s : Beside Pads} {id : ActivationId} {a : Activation} {E : Beside Pads → Prop}

theorem ends_activation (id : ActivationId) (s : Beside Pads) :
    Ends (activation id) s (fun a t => t = s ∧ s.own.activation? id = some a)
      fun t => t = s ∧ s.own.activation? id = none := by
  refine Ends.self ?_
  cases ha : s.own.activation? id with
  | none => exact ⟨rfl, rfl⟩
  | some a => exact ⟨rfl, rfl⟩

theorem ends_unit (u : Nat) (s : Beside Pads) :
    Ends (unit u) s (fun x t => t = s ∧ s.own.units[u]? = some x)
      fun t => t = s ∧ s.own.units[u]? = none := by
  refine Ends.self ?_
  cases hx : s.own.units[u]? with
  | none => exact ⟨rfl, rfl⟩
  | some x => exact ⟨rfl, rfl⟩

/-- **An activation comes** to a place where there was none. -/
theorem ends_insert (vacant : s.own.TellsVacant) (a : Activation) :
    Ends (insert a) s (fun id t => t.heap = s.heap ∧ Swaps s.own t.own id none (some a)) E := by
  refine Ends.self ?_
  cases list : s.own.vacant with
  | cons index rest =>
    obtain ⟨place, hp, empty⟩ := vacant.2 index (list ▸ List.mem_cons_self)
    have generation : ((s.own.places.modify index fun place =>
        { place with activation := some a }).getD index {}).generation = place.generation := by
      rw [Array.getD_eq_getD_getElem?, Array.getElem?_modify, if_pos rfl, hp]
      rfl
    refine ⟨rfl, ?_⟩
    dsimp only
    rw [generation]
    exact swaps_occupy vacant list hp empty a _
  | nil => exact ⟨rfl, swaps_append vacant a _⟩

/-- **An activation goes.** -/
theorem ends_remove (id : ActivationId) (s : Beside Pads) :
    Ends (remove id) s (fun cells t => t.heap = s.heap ∧
      ∃ a, cells = a.cells ∧ Swaps s.own t.own id (some a) none)
      fun t => t = s ∧ s.own.activation? id = none := by
  refine ((ends_activation id s).imp (fun _ _ q => q) fun t e => e).bind ?_
  rintro a t ⟨rfl, ha⟩
  exact ⟨rfl, a, rfl, swaps_vacate ha _⟩

/-- **An activation changes.** -/
theorem ends_changeActivation (ha : s.own.activation? id = some a) (f : Activation → Activation) :
    Ends (changeActivation id f) s
      (fun _ t => t.heap = s.heap ∧ Swaps s.own t.own id (some a) (some (f a))) E := by
  refine ⟨rfl, ?_⟩
  dsimp only
  rw [ha, Option.isSome_some, if_pos rfl]
  exact swaps_change ha f

/-- Nothing happens to an activation that is not there. -/
theorem changeActivation_stale (ha : s.own.activation? id = none) (f : Activation → Activation) :
    Ends (changeActivation id f) s (fun _ t => t = s) E := by
  show { s with own := if _ then _ else _ } = s
  rw [ha]
  rfl

end

/-! ### Operations keep the balance -/

section
variable {h₀ : Heap} {out gains loses : List CellId} {s t : Beside Pads} {id : ActivationId}
  {a : Activation} {old new : Option Activation} {i : CellId} {E : Beside Pads → Prop}

/-- What a swap does to the handles: those on cells that come are put to use, and those on cells
that go are left to the outside. -/
theorem Balanced.swap (gains loses : List CellId) (b : Balanced h₀ (gains ++ out) s)
    (heap : t.heap = s.heap) (w : Swaps s.own t.own id old new)
    (fits : ∀ a, new = some a → s.own.Fits a)
    (even : ∀ i, gains.count i + (cellsOf old).count i = loses.count i + (cellsOf new).count i) :
    Balanced h₀ (loses ++ out) t where
  formed := w.formed b.formed fits
  kept := by
    rw [heap]
    refine b.kept.perm (List.perm_iff_count.mpr fun i => ?_)
    have held := w.held i
    have even := even i
    simp only [List.count_append]
    omega

/-- An activation changes, and its cells stay. -/
theorem Balanced.change (b : Balanced h₀ out s) (ha : s.own.activation? id = some a)
    {f : Activation → Activation} (cells : (f a).cells = a.cells) (unit : (f a).unit = a.unit) :
    Ends (changeActivation id f) s (fun _ t => t.heap = s.heap ∧
      Swaps s.own t.own id (some a) (some (f a)) ∧ Balanced h₀ out t) E := by
  refine (ends_changeActivation ha f).imp (fun _ t q => ⟨q.1, q.2, ?_⟩) fun _ e => e
  refine Balanced.swap [] [] b q.1 q.2 (fun a' e => ?_) fun i => ?_
  · obtain rfl := Option.some.inj e
    unfold Fits
    rw [cells, unit]
    exact b.formed.fits id a ha
  · simp [cellsOf, cells]

theorem leads_changeActivation {f : Activation → Activation}
    (cells : ∀ a, (f a).cells = a.cells) (unit : ∀ a, (f a).unit = a.unit) :
    Leads (Balanced h₀ out) (changeActivation id f) (fun _ => Balanced h₀ out) E := by
  refine Leads.of_ends fun s b => ?_
  cases ha : s.own.activation? id with
  | none => exact (changeActivation_stale ha f).imp (fun _ t e => e ▸ b) fun _ e => e
  | some a => exact (b.change ha (cells a) (unit a)).imp (fun _ _ q => q.2.2) fun _ e => e

/-- Something happens on the heap. -/
theorem Balanced.onHeap {α : Type} {x : OnHeap α} {outs : α → List CellId}
    (b : Balanced h₀ out s)
    (hx : Ends x s.heap (fun a => Heap.Kept h₀ (outs a ++ s.own.held))
      (Heap.Kept h₀ (out ++ s.own.held))) :
    Ends (liftM x : OnPads α) s (fun a => Balanced h₀ (outs a)) (Balanced h₀ out) :=
  hx.lift.imp (fun _ _ q => ⟨q.1 ▸ b.formed, q.1 ▸ q.2⟩) fun _ e => ⟨e.1 ▸ b.formed, e.1 ▸ e.2⟩

/-- Giving handles back. -/
theorem Balanced.letGo (b : Balanced h₀ (loses ++ out) s) :
    Balanced h₀ out { s with heap := s.heap.letGo loses } where
  formed := b.formed
  kept := by
    have kept := b.kept
    rw [List.append_assoc] at kept
    exact kept.letGo

theorem leads_remove (id : ActivationId) :
    Leads (Balanced h₀ out) (remove id) (fun cells => Balanced h₀ (cells ++ out))
      (Balanced h₀ out) := by
  refine Leads.of_ends fun s b => (ends_remove id s).imp ?_ fun t e => e.1 ▸ b
  rintro cells t ⟨heap, a, rfl, w⟩
  exact Balanced.swap [] a.cells b heap w nofun fun i => by simp [cellsOf]

theorem keeps_release (id : ActivationId) : Keeps (Balanced h₀ out) (release id) :=
  (leads_remove id).bind fun _ _ b => b.letGo

theorem leads_endCall (id : ActivationId) :
    Leads (Balanced h₀ out) (endCall id) (fun _ => Balanced h₀ out) E :=
  leads_changeActivation (fun _ => rfl) fun _ => rfl

theorem keeps_sweepWithin (rounds : Nat) : Keeps (Balanced h₀ out) (sweepWithin rounds) := by
  induction rounds with
  | zero => exact Keeps.pure _
  | succ rounds ih =>
    refine Keeps.self.bind fun p => Keeps.readHeap.bind fun h => ?_
    dsimp only
    split
    · exact Keeps.pure _
    · exact (Keeps.forM keeps_release _).bind fun _ => ih.bind fun _ => Keeps.pure _

theorem keeps_sweep : Keeps (Balanced h₀ out) sweep :=
  Keeps.self.bind fun p => keeps_sweepWithin p.live

/-- An activation holds its cells. -/
theorem mem_held {p : Pads} (ha : p.activation? id = some a) (hi : i ∈ a.cells) : i ∈ p.held := by
  obtain ⟨place, hp, -, holds⟩ := activation?_eq_some ha
  refine List.mem_flatMap.mpr ⟨place, ?_, ?_⟩
  · rw [← Array.getElem?_toList] at hp
    exact List.mem_of_getElem? hp
  · rw [holds]
    exact hi

/-- What activations hold is on the heap. -/
theorem Balanced.lt_size (b : Balanced h₀ out s) (hi : i ∈ s.own.held) :
    i < s.heap.cells.size := by
  obtain ⟨c, hc⟩ := b.kept.alive (List.mem_append_right out hi)
  exact Heap.lt_size hc

/-- A handle on the cell of a slot. -/
theorem leads_cell (id : ActivationId) (slot : Nat) :
    Leads (Balanced h₀ out) (cell id slot)
      (fun i s => Balanced h₀ out s ∧ i ∈ s.own.held) (Balanced h₀ out) := by
  refine Leads.of_ends fun s b => ?_
  refine ((ends_activation id s).imp (fun _ _ q => q) fun t e => e.1 ▸ b).bind ?_
  rintro a t ⟨rfl, ha⟩
  cases hi : a.cells[slot]? with
  | none => exact b
  | some i => exact ⟨b, mem_held ha (List.mem_of_getElem? hi)⟩

/-! ### New cells -/

/-- The cell that a slot gets when there is none to share. -/
def emptyCell (n : Option PadName) : Cell := (n.map (·.sigil.freshCell)).getD {}

theorem emptyCell_valid (n : Option PadName) : (emptyCell n).Valid := by
  rcases n with - | n
  · exact Cell.valid_empty
  · show n.sigil.freshCell.Valid
    cases n.sigil with
    | scalar | code => exact Cell.valid_empty
    | array | hash => exact Cell.valid_aggregate rfl rfl

theorem emptyCell_owned (n : Option PadName) : (emptyCell n).owned = [] := by
  rcases n with - | n
  · rfl
  · show n.sigil.freshCell.owned = []
    cases n.sigil <;> rfl

theorem emptyCell_hooks (n : Option PadName) : (emptyCell n).hooks = [] := by
  rcases n with - | n
  · rfl
  · show n.sigil.freshCell.hooks = []
    cases n.sigil <;> rfl

theorem emptyCell_table {n : Option PadName} {t : Table CellId}
    (ht : (emptyCell n).payload = .hash t) : t = {} := by
  rcases n with - | n
  · cases ht
  · change n.sigil.freshCell.payload = .hash t at ht
    cases sigil : n.sigil <;> rw [sigil] at ht <;> cases ht
    rfl

theorem leads_newCell (n : Option PadName) {E : Heap → Prop} :
    Leads (Heap.Kept h₀ out) (newCell n) (fun i => Heap.Kept h₀ (i :: out)) E := by
  refine Heap.leads_new (c := emptyCell n) (emptyCell_valid n) (emptyCell_hooks n)
    (emptyCell_owned n) fun h k t ht => ?_
  rw [emptyCell_table ht]
  exact Table.tidy_empty k.sound.ring nofun

theorem leads_sharedCell (n : Option PadName) {outer : Option CellId}
    (alive : ∀ i, outer = some i → i ∈ out) {E : Heap → Prop} :
    Leads (Heap.Kept h₀ out) (sharedCell n outer) (fun i => Heap.Kept h₀ (i :: out)) E := by
  cases outer with
  | none => exact leads_newCell n
  | some i =>
    intro h k
    refine k.retainAll [i] fun j hj => k.alive ?_
    rw [List.mem_singleton.mp hj]
    exact alive i rfl

/-- One cell after another. -/
theorem leads_cells {α : Type} {f : α → OnHeap CellId} {l : List α} {E : Heap → Prop}
    (hf : ∀ a ∈ l, ∀ more, Leads (Heap.Kept h₀ (more ++ out)) (f a)
      (fun i => Heap.Kept h₀ (i :: (more ++ out))) E) :
    Leads (Heap.Kept h₀ out) (l.mapM f)
      (fun is h => is.length = l.length ∧ Heap.Kept h₀ (is ++ out) h) E := by
  suffices all : ∀ more, Leads (Heap.Kept h₀ (more ++ out)) (l.mapM f)
      (fun is h => is.length = l.length ∧ Heap.Kept h₀ (is ++ (more ++ out)) h) E from all []
  induction l with
  | nil => exact fun more h k => ⟨rfl, k⟩
  | cons a l ih =>
    intro more
    rw [List.mapM_cons]
    refine (hf a List.mem_cons_self more).bind fun i => ?_
    have rest := ih (fun a ha => hf a (List.mem_cons_of_mem _ ha)) (i :: more)
    refine rest.bind fun is => Leads.pure fun h k => ⟨congrArg Nat.succ k.1, k.2.perm ?_⟩
    exact List.perm_middle

theorem leads_frameCell {base : List CellId} (shared : ∀ i ∈ base, i ∈ out)
    (n : Option PadName) (slot : Nat) {E : Heap → Prop} :
    Leads (Heap.Kept h₀ out) (frameCell base n slot) (fun i => Heap.Kept h₀ (i :: out)) E := by
  unfold frameCell
  cases n with
  | none => exact leads_newCell none
  | some name =>
    dsimp only
    split
    · exact leads_sharedCell none fun i hi => shared i (List.mem_of_getElem? hi)
    · exact leads_newCell _

/-! ### The end of a call -/

/-- The cells that others came in the place of. -/
def replaced (old new : List CellId) : List CellId :=
  ((old.zip new).filter fun (old, new) => old ≠ new).map (·.1)

theorem count_replaced_cons (i j : CellId) (old new : List CellId) (x : CellId) :
    (replaced (i :: old) (j :: new)).count x =
      (if i = j then 0 else [i].count x) + (replaced old new).count x := by
  unfold replaced
  rw [List.zip_cons_cons, List.filter_cons]
  by_cases same : i = j
  · simp [same]
  · simp [same, List.count_cons, Nat.add_comm]

/-- **Renewal.**  A cell stays, or a new one comes in its place. -/
theorem leads_renewedCells {l : List (CellId × Option PadName)} (alive : ∀ x ∈ l, x.1 ∈ out)
    {E : Heap → Prop} :
    Leads (Heap.Kept h₀ out) (l.mapM fun x => renewedCell x.2 x.1)
      (fun is h => is.length = l.length ∧ ∃ gains, Heap.Kept h₀ (gains ++ out) h ∧
        ∀ j, gains.count j + (l.map (·.1)).count j =
          (replaced (l.map (·.1)) is).count j + is.count j) E := by
  induction l generalizing out with
  | nil => exact fun h k => ⟨rfl, [], k, fun j => rfl⟩
  | cons x l ih =>
    obtain ⟨i, n⟩ := x
    rw [List.mapM_cons]
    have first : Leads (Heap.Kept h₀ out) (renewedCell n i)
        (fun j h => j = i ∧ Heap.Kept h₀ out h ∨ j ≠ i ∧ Heap.Kept h₀ (j :: out) h) E := by
      have renew : Leads (Heap.Kept h₀ out) (newCell n)
          (fun j h => j = i ∧ Heap.Kept h₀ out h ∨ j ≠ i ∧ Heap.Kept h₀ (j :: out) h) E := by
        refine Leads.of_ends fun h k => ?_
        obtain ⟨c, hc⟩ := k.alive (alive _ List.mem_cons_self)
        have made : Ends (newCell n) h (fun j h => Heap.Kept h₀ (j :: out) h) E :=
          (leads_newCell n).ends k
        exact .inr ⟨Nat.ne_of_gt (Heap.lt_size hc), made⟩
      unfold renewedCell
      cases n with
      | none => exact Leads.pure fun h k => .inl ⟨rfl, k⟩
      | some name =>
        dsimp only
        split
        · exact Leads.pure fun h k => .inl ⟨rfl, k⟩
        · exact renew
    refine first.bind fun j h led => ?_
    rcases led with ⟨rfl, k⟩ | ⟨other, k⟩
    · refine ((ih fun x hx => alive x (List.mem_cons_of_mem _ hx)).ends k).bind ?_
      rintro is g ⟨len, gains, k, even⟩
      refine ⟨congrArg Nat.succ len, gains, k, fun x => ?_⟩
      have even := even x
      rw [List.map_cons, count_replaced_cons, if_pos rfl]
      simp only [List.count_cons]
      omega
    · have alive (x : CellId × Option PadName) (hx : x ∈ l) : x.1 ∈ j :: out :=
        List.mem_cons_of_mem _ (alive x (List.mem_cons_of_mem _ hx))
      refine ((ih alive).ends k).bind ?_
      rintro is g ⟨len, gains, k, even⟩
      refine ⟨congrArg Nat.succ len, j :: gains, k.perm List.perm_middle, fun x => ?_⟩
      have even := even x
      rw [List.map_cons, count_replaced_cons, if_neg other.symm]
      simp only [List.count_cons, List.count_nil]
      omega

/-- The cells of an activation are renewed, but for those that frames share and prototypes. -/
theorem Balanced.renew (b : Balanced h₀ out s) (ha : s.own.activation? id = some a)
    {x : CodeUnit} (hx : s.own.units[a.unit]? = some x) :
    Ends (do
      let cells ← (a.cells.zip x.slots).mapM fun (i, n) => (renewedCell n i : OnHeap CellId)
      changeActivation id fun a => { a with cells }
      changeHeap (·.letGo (replaced a.cells cells)) : OnPads Unit) s
      (fun _ => Balanced h₀ out) E := by
  obtain ⟨x', hx', fits⟩ := b.formed.fits id a ha
  cases hx.symm.trans hx'
  have old : (a.cells.zip x.slots).map (·.1) = a.cells := List.map_fst_zip fits
  have renewed : Ends ((a.cells.zip x.slots).mapM fun y => renewedCell y.2 y.1) s.heap _
      fun _ => False :=
    (leads_renewedCells fun y hy =>
      List.mem_append_right out (mem_held ha (List.of_mem_zip hy).1)).ends b.kept
  rw [old] at renewed
  refine Ends.bind (Ends.of_eq (congrFun (mapM_liftM _ _) s) renewed.liftSure) ?_
  rintro cells t ⟨own, len, gains, kept, even⟩
  have ha' : t.own.activation? id = some a := own ▸ ha
  refine (ends_changeActivation ha' fun a => { a with cells }).bind fun _ u ⟨heap, w⟩ => ?_
  have b' : Balanced h₀ (gains ++ out) t := by
    refine ⟨own ▸ b.formed, ?_⟩
    rw [own, List.append_assoc]
    exact kept
  refine (Balanced.swap gains _ b' heap w (fun a' e => ?_) even).letGo
  obtain rfl := Option.some.inj e
  refine ⟨x, own ▸ hx, ?_⟩
  rw [len, List.length_zip]
  exact Nat.min_le_right _ _

theorem keeps_pop (id : ActivationId) : Keeps (Balanced h₀ out) (pop id) := by
  refine Keeps.of_ends fun s b => ?_
  refine ((ends_activation id s).imp (fun _ _ q => q) fun t e => e.1 ▸ b).bind ?_
  rintro a t ⟨rfl, ha⟩
  dsimp only
  cases a.base with
  | some base =>
    -- a frame goes
    refine Leads.ends ?_ b
    exact (leads_remove id).bind fun cells => (leads_endCall base).bind fun _ _ b => b.letGo
  | none =>
    -- the cells are renewed after the last call
    refine (b.change ha rfl rfl).bind fun _ t ⟨_, w, b⟩ => ?_
    split
    · refine ((ends_unit a.unit t).imp (fun _ _ q => q) fun _ e => e.1 ▸ b).bind ?_
      rintro x u ⟨rfl, hx⟩
      exact b.renew w.after hx
    · exact b

end

end Pads

end ScriptCore
