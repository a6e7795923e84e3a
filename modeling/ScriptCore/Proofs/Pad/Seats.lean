import ScriptCore.Proofs.Pad.Running

/-!
# Pad — places and who sits in them

The *seat* at an index is the generation of the place there and the origin of its activation; a
handle is live exactly if it names the generation of a seat that is taken (`mem_handles`,
`mem_handles_iff_seat`).

An operation that makes activations only takes seats (`Filled`), and one that removes them only
vacates seats, which moves the generation on by one (`Emptied`); no operation does both (`Turned`).
The list of vacant places and the number of live activations are always right (`Tallies`).
-/

namespace ScriptCore

namespace Pads
open Beside

/-- The generation of a place and the origin of its activation. -/
def Place.seat (place : Place) : UInt32 × Option Activation.Origin :=
  (place.generation, place.activation.map (·.origin))

/-- The seat at an index; one that has not come to be is vacant. -/
def seat (p : Pads) (i : Nat) : UInt32 × Option Activation.Origin :=
  ((p.places[i]?).map Place.seat).getD (0, none)

/-- The places listed as vacant are those without an activation, each listed once, and the others
are counted. -/
structure Tallies (p : Pads) : Prop where
  distinct : p.vacant.Nodup
  vacant : ∀ i, i ∈ p.vacant ↔ ∃ place, p.places[i]? = some place ∧ place.activation = none
  live : p.live = p.handles.length

/-- Since then, vacant seats were taken. -/
def Filled (p q : Pads) : Prop :=
  ∀ i, q.seat i = p.seat i ∨ ∃ g d, p.seat i = (g, none) ∧ q.seat i = (g, some d)

/-- Since then, seats were vacated by activations in `S`. -/
def Emptied (S : ActivationId → Prop) (p q : Pads) : Prop :=
  ∀ i, q.seat i = p.seat i ∨
    ∃ g d, p.seat i = (g, some d) ∧ q.seat i = (g + 1, none) ∧ S ⟨i, g⟩

/-- Seats were taken, or vacated by activations in `S`. -/
def Turned (S : ActivationId → Prop) (p q : Pads) : Prop := Filled p q ∨ Emptied S p q

/-- The activations that an operation may remove: the one it releases, the frame whose call it
ends, or, sweeping, any. -/
def Op.Removes (p : Pads) : Op → ActivationId → Prop
  | release id, x => x = id
  | pop id, x => x = id ∧ ∃ a, p.activation? id = some a ∧ a.base ≠ none
  | sweep, _ => True
  | _, _ => False

section
variable {p q r : Pads} {id : ActivationId} {a : Activation} {place : Place} {f : Place → Place}
  {i index : Nat} {S : ActivationId → Prop}

/-! ### Handles -/

theorem mem_handles : id ∈ p.handles ↔ ∃ a, p.activation? id = some a := by
  unfold handles
  rw [List.mem_filterMap]
  constructor
  · rintro ⟨⟨place, index⟩, there, e⟩
    rw [List.mem_zipIdx_iff_getElem?, Array.getElem?_toList] at there
    obtain ⟨a, ha, rfl⟩ := Option.map_eq_some_iff.mp e
    exact ⟨a, by simp [activation?, there, ha]⟩
  · rintro ⟨a, ha⟩
    obtain ⟨place, hp, generation, holds⟩ := activation?_eq_some ha
    refine ⟨(place, id.index), ?_, ?_⟩
    · rwa [List.mem_zipIdx_iff_getElem?, Array.getElem?_toList]
    · simp [holds, generation]

/-- Handles are listed by place, each place once. -/
theorem pairwise_handles (p : Pads) : p.handles.Pairwise fun x y => x.index < y.index := by
  unfold handles
  rw [List.pairwise_filterMap, List.pairwise_iff_getElem]
  rintro i j hi hj lt x hx y hy
  rw [List.getElem_zipIdx] at hx hy
  obtain ⟨_, -, rfl⟩ := Option.map_eq_some_iff.mp hx
  obtain ⟨_, -, rfl⟩ := Option.map_eq_some_iff.mp hy
  dsimp only
  omega

theorem nodup_handles (p : Pads) : p.handles.Nodup :=
  (pairwise_handles p).imp fun lt e => Nat.ne_of_lt lt (congrArg _ e)

theorem length_handles (p : Pads) :
    p.handles.length = p.places.toList.countP fun place => place.activation.isSome := by
  have places : p.places.toList.zipIdx.map Prod.fst = p.places.toList := List.zipIdx_map_fst ..
  rw [handles, List.length_filterMap_eq_countP]
  conv_rhs => rw [← places, List.countP_map]
  refine List.countP_congr fun x _ => ?_
  simp

/-! ### Seats -/

theorem seat_of_activation? (ha : p.activation? id = some a) :
    p.seat id.index = (id.generation, some a.origin) := by
  obtain ⟨place, hp, generation, holds⟩ := activation?_eq_some ha
  simp [seat, hp, Place.seat, generation, holds]

theorem exists_of_seat {d : Activation.Origin}
    (h : p.seat id.index = (id.generation, some d)) :
    ∃ a, p.activation? id = some a ∧ a.origin = d := by
  unfold seat at h
  cases hp : p.places[id.index]? with
  | none =>
    rw [hp] at h
    cases congrArg Prod.snd h
  | some place =>
    rw [hp] at h
    obtain ⟨generation, taken⟩ := Prod.mk.inj h
    obtain ⟨a, ha, e⟩ := Option.map_eq_some_iff.mp taken
    refine ⟨a, ?_, e⟩
    rw [activation?_eq, hp]
    exact (if_pos generation).trans ha

/-- A handle is live if the seat at its place is taken and of its generation. -/
theorem mem_handles_iff_seat :
    id ∈ p.handles ↔ ∃ d, p.seat id.index = (id.generation, some d) := by
  rw [mem_handles]
  constructor
  · rintro ⟨a, ha⟩
    exact ⟨_, seat_of_activation? ha⟩
  · rintro ⟨d, hd⟩
    obtain ⟨a, ha, -⟩ := exists_of_seat hd
    exact ⟨a, ha⟩

/-! ### One place -/

theorem length_handles_modify (places : q.places = p.places.modify i f)
    (hp : p.places[i]? = some place) :
    q.handles.length + place.activation.isSome.toNat =
      p.handles.length + (f place).activation.isSome.toNat := by
  have there : p.places.toList[i]? = some place := by rwa [Array.getElem?_toList]
  obtain ⟨lt, at'⟩ := List.getElem?_eq_some_iff.mp there
  have changed : q.places.toList = p.places.toList.set i (f place) := by
    rw [places, Array.toList_modify, List.modify_eq_set, there]
    rfl
  rw [length_handles, length_handles, changed, List.countP_set lt, at']
  cases taken : place.activation.isSome with
  | true =>
    have one : 0 < p.places.toList.countP fun place => place.activation.isSome :=
      List.countP_pos_iff.mpr ⟨place, List.mem_of_getElem? there, taken⟩
    cases (f place).activation.isSome
    · simp only [if_true, Bool.false_eq_true, if_false, Bool.toNat_true, Bool.toNat_false]
      omega
    · simp only [if_true, Bool.toNat_true]
      omega
  | false =>
    cases (f place).activation.isSome <;> simp

/-- At one place there is another seat, and the books are right. -/
structure Reseats (p q : Pads) (i : Nat) (old new : UInt32 × Option Activation.Origin) :
    Prop where
  before : p.seat i = old
  after : q.seat i = new
  others : ∀ j, j ≠ i → q.seat j = p.seat j
  tallies : q.Tallies

theorem Tallies.modify (t : p.Tallies) (f : Place → Place) (hp : p.places[i]? = some place)
    (places : q.places = p.places.modify i f) (distinct : q.vacant.Nodup)
    (vacant : ∀ j, j ∈ q.vacant ↔ if j = i then (f place).activation = none else j ∈ p.vacant)
    (live : q.live + place.activation.isSome.toNat =
      p.live + (f place).activation.isSome.toNat) :
    Reseats p q i place.seat (f place).seat where
  before := by simp [seat, hp]
  after := by simp [seat, places, Array.getElem?_modify, hp]
  others j hj := by simp [seat, places, Array.getElem?_modify, hj.symm]
  tallies := by
    refine ⟨distinct, fun j => ?_, ?_⟩
    · rw [vacant, places, Array.getElem?_modify]
      by_cases here : j = i
      · subst here
        simp [hp]
      · rw [if_neg here, if_neg fun e => here e.symm, t.vacant]
    · have count := length_handles_modify places hp
      rw [t.live] at live
      omega

theorem Tallies.push (t : p.Tallies) (place : Place) (taken : place.activation.isSome = true)
    (places : q.places = p.places.push place) (list : q.vacant = p.vacant)
    (live : q.live = p.live + 1) : Reseats p q p.places.size (0, none) place.seat where
  before := by simp [seat]
  after := by simp [seat, places]
  others j hj := by simp [seat, places, Array.getElem?_push, hj]
  tallies := by
    refine ⟨list ▸ t.distinct, fun j => ?_, ?_⟩
    · rw [list, t.vacant, places, Array.getElem?_push]
      split
      · rename_i last
        rw [last, Array.getElem?_eq_none (Nat.le_refl _)]
        constructor
        · rintro ⟨_, e, -⟩
          cases e
        · rintro ⟨_, e, none⟩
          obtain rfl := Option.some.inj e
          rw [none] at taken
          cases taken
      · rfl
    · rw [live, t.live, length_handles, length_handles, places, Array.toList_push,
        List.countP_append, List.countP_singleton, if_pos taken]

/-! ### What happens to seats -/

theorem Filled.refl (p : Pads) : Filled p p := fun _ => .inl rfl

theorem Emptied.refl (p : Pads) : Emptied S p p := fun _ => .inl rfl

section
variable {g : UInt32} {d : Activation.Origin} {seat : UInt32 × Option Activation.Origin}

/-- One seat more is taken. -/
theorem Filled.take (w : Filled p q) (taken : Reseats q r i (g, none) (g, some d)) :
    Filled p r := by
  intro j
  by_cases here : j = i
  · subst here
    rcases w j with same | ⟨_, _, -, full⟩
    · exact .inr ⟨g, d, same.symm.trans taken.before, taken.after⟩
    · cases congrArg Prod.snd (full.symm.trans taken.before)
  · rw [taken.others j here]
    exact w j

/-- One seat more is vacated. -/
theorem Emptied.vacate (w : Emptied S p q) (goes : S ⟨i, g⟩)
    (vacated : Reseats q r i (g, some d) (g + 1, none)) : Emptied S p r := by
  intro j
  by_cases here : j = i
  · subst here
    rcases w j with same | ⟨_, _, -, empty, -⟩
    · exact .inr ⟨g, d, same.symm.trans vacated.before, vacated.after, goes⟩
    · cases congrArg Prod.snd (empty.symm.trans vacated.before)
  · rw [vacated.others j here]
    exact w j

theorem Reseats.seat_eq (same : Reseats p q i seat seat) : q.seat = p.seat := by
  funext j
  by_cases here : j = i
  · rw [here, same.after, same.before]
  · exact same.others j here

end

end

section
variable {s : Beside Pads} {id : ActivationId} {a : Activation} {E : Beside Pads → Prop}

theorem reseats_insert (t : s.own.Tallies) (a : Activation) :
    Ends (insert a) s (fun _ t => ∃ i g, Reseats s.own t.own i (g, none) (g, some a.origin)) E := by
  refine Ends.self ?_
  cases list : s.own.vacant with
  | cons index rest =>
    obtain ⟨place, hp, empty⟩ := (t.vacant index).mp (list ▸ List.mem_cons_self)
    have distinct := t.distinct
    rw [list] at distinct
    obtain ⟨apart, distinct⟩ := List.nodup_cons.mp distinct
    have taken := t.modify (fun place => { place with activation := some a }) hp (q := { s.own with
      places := s.own.places.modify index fun place => { place with activation := some a }
      vacant := rest
      live := s.own.live + 1 }) rfl distinct (fun j => ?_) (by rw [empty]; rfl)
    · simp only [Place.seat, empty] at taken
      exact ⟨index, place.generation, taken⟩
    · rw [list, List.mem_cons]
      split
      · rename_i here
        exact ⟨fun mem => absurd (here ▸ mem) apart, nofun⟩
      · rename_i other
        exact ⟨.inr, fun mem => mem.resolve_left other⟩
  | nil =>
    have taken := t.push { activation := some a } (q := { s.own with
      places := s.own.places.push { activation := some a }
      live := s.own.live + 1 }) rfl rfl rfl rfl
    exact ⟨_, 0, taken⟩

theorem reseats_remove (t : s.own.Tallies) (id : ActivationId) :
    Ends (remove id) s (fun _ t => ∃ d,
      Reseats s.own t.own id.index (id.generation, some d) (id.generation + 1, none))
      (· = s) := by
  refine ((ends_activation id s).imp (fun _ _ q => q) fun t e => e.1).bind ?_
  rintro a s ⟨rfl, ha⟩
  obtain ⟨place, hp, generation, holds⟩ := activation?_eq_some ha
  have apart : id.index ∉ s.own.vacant := fun mem => by
    obtain ⟨_, hp', none⟩ := (t.vacant _).mp mem
    cases hp.symm.trans hp'
    cases holds.symm.trans none
  have some : 0 < s.own.live := by
    rw [t.live]
    exact List.length_pos_of_mem (mem_handles.mpr ⟨a, ha⟩)
  have vacated := t.modify (fun place => { generation := place.generation + 1, activation := none })
    hp (q := { s.own with
      places := s.own.places.modify id.index fun place =>
        { generation := place.generation + 1, activation := none }
      vacant := id.index :: s.own.vacant
      live := s.own.live - 1 }) rfl (List.nodup_cons.mpr ⟨apart, t.distinct⟩) (fun j => ?_)
      (by rw [holds]; exact Nat.sub_add_cancel some)
  · simp only [Place.seat, generation, holds] at vacated
    exact ⟨_, vacated⟩
  · rw [List.mem_cons]
    split
    · rename_i here
      exact ⟨fun _ => rfl, fun _ => .inl here⟩
    · rename_i other
      exact ⟨fun mem => mem.resolve_left other, .inr⟩

/-- An activation that changes keeps its seat. -/
theorem seats_changeActivation (t : s.own.Tallies) (id : ActivationId)
    {f : Activation → Activation} (origin : ∀ a, (f a).origin = a.origin) :
    Ends (changeActivation id f) s (fun _ t => t.own.seat = s.own.seat ∧ t.own.Tallies) E := by
  cases ha : s.own.activation? id with
  | none =>
    refine (changeActivation_stale ha f).imp (fun _ t' e => ?_) fun _ e => e
    rw [e]
    exact ⟨rfl, t⟩
  | some a =>
    obtain ⟨place, hp, -, -⟩ := activation?_eq_some ha
    have changed := t.modify (fun place => { place with activation := place.activation.map f }) hp
      (q := { s.own with places := s.own.places.modify id.index fun place =>
        { place with activation := place.activation.map f } }) rfl t.distinct (fun j => ?_)
      (by rw [Option.isSome_map])
    · have same : Place.seat { place with activation := place.activation.map f } = place.seat := by
        have origins : Activation.origin ∘ f = Activation.origin := funext origin
        simp only [Place.seat, Option.map_map, origins]
      rw [same] at changed
      show Pads.seat (if _ then _ else _) = _ ∧ Tallies (if _ then _ else _)
      rw [ha, Option.isSome_some, if_pos rfl]
      exact ⟨changed.seat_eq, changed.tallies⟩
    · split
      · rename_i here
        rw [here, t.vacant, hp]
        simp
      · rfl

/-- What depends on the seats alone, beside the books, bears the pieces that leave the seats. -/
theorem bears_seats {R : Pads → Prop} (same : ∀ p q : Pads, q.seat = p.seat → R p → R q) :
    Bears fun s => s.own.Tallies ∧ R s.own where
  heap _ _ _ hs := hs
  change id _ origin := Keeps.of_ends fun _ hs =>
    (seats_changeActivation hs.1 id origin).imp (fun _ _ q => ⟨q.2, same _ _ q.1 hs.2⟩)
      fun _ e => e

/-- **Making activations takes seats.** -/
theorem fills_seats (p : Pads) : Fills fun s => s.own.Tallies ∧ Filled p s.own where
  toBears := bears_seats fun _ _ same w i => by rw [same]; exact w i
  insert a := Keeps.of_ends fun s hs => by
    refine (reseats_insert hs.1 a).imp ?_ fun _ e => e
    rintro _ t ⟨i, g, taken⟩
    exact ⟨taken.tallies, hs.2.take taken⟩

/-- **Removing activations vacates seats.** -/
theorem empties_seats (S : ActivationId → Prop) (p : Pads) :
    Empties S fun s => s.own.Tallies ∧ Emptied S p s.own where
  toBears := bears_seats fun _ _ same w i => by rw [same]; exact w i
  remove id goes := Keeps.of_ends fun s hs => by
    refine (reseats_remove hs.1 id).imp ?_ fun _ e => e ▸ hs
    rintro _ t ⟨d, vacated⟩
    exact ⟨vacated.tallies, hs.2.vacate goes vacated⟩

end

end Pads

end ScriptCore
