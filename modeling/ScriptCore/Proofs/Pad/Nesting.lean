import ScriptCore.Proofs.Pad.Arena

/-!
# Pad — compiling beside activations

Compiling goes on while units run.  A directive takes units further and leaves activations alone
(`Furthers`), and a prototype comes only to a unit that the nested one was compiled inside, so the
invariant of pads is kept (`keeps_directive`).
-/

namespace ScriptCore

namespace CodeUnit
variable {x y : CodeUnit} {c : UInt32} {v : Nat}

/-- What prototypes a later unit has, it had before or was given since. -/
theorem Becomes.nested (b : x.Becomes c y) (hv : v ∈ y.nestedUnits) : v ∈ x.nestedUnits ∨
    ∃ (i : Nat) (n : PadName), x.slots.length ≤ i ∧ y.slots[i]? = some (some n) ∧
      n.nested? = some v := by
  obtain ⟨o, ho, nested⟩ := List.mem_filterMap.mp hv
  obtain ⟨n, rfl, nested⟩ := Option.bind_eq_some_iff.mp nested
  obtain ⟨i, hi⟩ := List.mem_iff_getElem?.mp ho
  by_cases lt : i < x.slots.length
  · obtain ⟨m, hm, becomes⟩ := b.slot_inv lt hi
    refine .inl (List.mem_filterMap.mpr ⟨some m, List.mem_of_getElem? hm, ?_⟩)
    show m.nested? = some v
    unfold PadName.nested? at nested ⊢
    rwa [← becomes.origin]
  · exact .inr ⟨i, n, Nat.not_lt.mp lt, hi, nested⟩

theorem Becomes.length (b : x.Becomes c y) : x.slots.length ≤ y.slots.length := by
  refine Nat.not_lt.mp fun lt => ?_
  obtain ⟨n, hn, -⟩ := b.old y.slots.length _ (List.getElem?_eq_getElem lt)
  rw [List.getElem?_eq_none (Nat.le_refl _)] at hn
  cases hn

end CodeUnit

namespace Pads
open Beside

/-! ### Compiling -/

/-- The pads were compiled further, and nothing happened to activations. -/
structure Furthers (p q : Pads) : Prop where
  places : q.places = p.places
  vacant : q.vacant = p.vacant
  live : q.live = p.live
  units : ∀ (u : Nat) (x : CodeUnit), p.units[u]? = some x →
    ∃ y, q.units[u]? = some y ∧ x.slots.length ≤ y.slots.length
  nests : q.Nests

section
variable {p q r : Pads} {u o slot levels : Nat} {c : UInt32} {x y : CodeUnit} {name : Key}
  {sigil : Sigil}
  {found : Nat × Pads}

theorem Furthers.of_units (w : Furthers p q) (places : r.places = q.places)
    (vacant : r.vacant = q.vacant) (live : r.live = q.live) (units : r.units = q.units) :
    Furthers p r where
  places := places.trans w.places
  vacant := vacant.trans w.vacant
  live := live.trans w.live
  units := units ▸ w.units
  nests := by
    unfold Nests
    rw [units]
    exact w.nests

/-- A unit is taken further. -/
theorem Furthers.set (w : Furthers p q) (hx : q.units[u]? = some x) (b : x.Becomes c y)
    (added : ∀ i n v, x.slots.length ≤ i → y.slots[i]? = some (some n) → n.nested? = some v →
      ∃ z, q.units[v]? = some z ∧ z.outer = some u) :
    Furthers p { q with units := q.units.setIfInBounds u y } := by
  have at' (v : Nat) (z : CodeUnit) (hz : q.units[v]? = some z) :
      ∃ z', (q.units.setIfInBounds u y)[v]? = some z' ∧ z'.outer = z.outer ∧
        z.slots.length ≤ z'.slots.length :=
    units_set (R := fun _ z z' => z'.outer = z.outer ∧ z.slots.length ≤ z'.slots.length) hx
      ⟨b.outer, b.length⟩ (fun _ _ => ⟨rfl, Nat.le_refl _⟩) hz
  refine ⟨w.places, w.vacant, w.live, fun v z hz => ?_, fun v z t hz ht => ?_⟩
  · obtain ⟨z', hz', len⟩ := w.units v z hz
    obtain ⟨z'', hz'', -, len'⟩ := at' v z' hz'
    exact ⟨z'', hz'', Nat.le_trans len len'⟩
  · have before : ∃ z', q.units[t]? = some z' ∧ z'.outer = some v := by
      rcases units_set_cases hz with ⟨rfl, rfl⟩ | hz
      · rcases b.nested ht with old | ⟨i, n, le, hn, nested⟩
        · exact w.nests _ x t hx old
        · exact added i n t le hn nested
      · exact w.nests v z t hz ht
    obtain ⟨z', hz', outer⟩ := before
    obtain ⟨z'', hz'', outer', -⟩ := at' t z' hz'
    exact ⟨z'', hz'', outer'.trans outer⟩

theorem Furthers.changeUnit (w : Furthers p q) {f : CodeUnit → CodeUnit}
    (hf : ∀ x, q.units[u]? = some x → x.Becomes c (f x))
    (added : ∀ x i n v, q.units[u]? = some x → x.slots.length ≤ i →
      (f x).slots[i]? = some (some n) → n.nested? = some v →
        ∃ z, q.units[v]? = some z ∧ z.outer = some u) :
    Furthers p { q with units := q.units.modify u f } := by
  cases hx : q.units[u]? with
  | some x =>
    rw [units_modify hx]
    exact w.set hx (hf x hx) fun i n v => added x i n v hx
  | none => exact w.of_units rfl rfl rfl (units_modify_of_none hx f)

/-- A unit is opened. -/
theorem Furthers.openUnit (w : Furthers p q) (empty : x.slots = []) :
    Furthers p { q with units := q.units.push x } := by
  refine ⟨w.places, w.vacant, w.live, fun v z hz => ?_, fun v z t hz ht => ?_⟩
  · obtain ⟨z', hz', len⟩ := w.units v z hz
    exact ⟨z', units_push hz', len⟩
  · rcases units_push_cases hz with ⟨-, rfl⟩ | hz
    · unfold CodeUnit.nestedUnits at ht
      rw [empty] at ht
      cases ht
    · obtain ⟨z', hz', outer⟩ := w.nests v z t hz ht
      exact ⟨z', units_push hz', outer⟩

theorem Furthers.standIn (w : Furthers p q) (e : q.standIn u o name sigil slot = some found) :
    Furthers p found.2 := by
  rcases pads_of_standIn e with same | ⟨x, m, hx, added⟩
  · exact same ▸ w
  · rw [added]
    refine w.set (c := 0) hx (CodeUnit.becomes_addSlot _ _ _ _ fun n hn own => ?_)
      fun i n v le hn nested => ?_
    · cases hn
      cases own
    · obtain ⟨-, e⟩ := CodeUnit.getElem?_addSlot le hn
      cases e
      cases nested

theorem Furthers.captureWithin (w : Furthers p q)
    (e : captureWithin name sigil levels q u = some found) : Furthers p found.2 :=
  captureWithin_keeps (P := Furthers p) (fun w e => w.standIn e) w e

theorem Furthers.search (w : Furthers p q) {f : Pads → Option (Nat × Pads)}
    (hf : ∀ found, f q = some found → Furthers p found.2) :
    Furthers p (((f q).map (·.2)).getD q) := by
  cases e : f q with
  | none => exact w
  | some found => exact hf found e

theorem Furthers.lookup (w : Furthers p q) {text : String}
    (e : q.lookup u text sigil = some found) : Furthers p found.2 :=
  lookup_keeps (P := Furthers p) (fun w e => w.standIn e) w e

end

/-- The pads were compiled further, and cells are held as before. -/
structure Compiled (h₀ : Heap) (out : List CellId) (p : Pads) (s : Beside Pads) : Prop where
  furthers : Furthers p s.own
  kept : Heap.Kept h₀ out s.heap

section
variable {h₀ : Heap} {out : List CellId} {p : Pads} {s : Beside Pads} {u : Nat} {c : UInt32}
  {f : CodeUnit → CodeUnit} {n : Option PadName} {E : Beside Pads → Prop}

theorem Compiled.of_units {t : Beside Pads} (k : Compiled h₀ out p s)
    (places : t.own.places = s.own.places) (vacant : t.own.vacant = s.own.vacant)
    (live : t.own.live = s.own.live) (units : t.own.units = s.own.units)
    (kept : Heap.Kept h₀ out t.heap) : Compiled h₀ out p t :=
  ⟨k.furthers.of_units places vacant live units, kept⟩

/-- A name is interned. -/
theorem Compiled.intern (k : Compiled h₀ out p s) (name : String) :
    Ends (Pads.intern name) s (fun _ t => Compiled h₀ out p t ∧ t.own.units = s.own.units) E := by
  refine Ends.step (a := s.heap) (t := s) rfl (Ends.self ?_)
  have turns := (k.kept.sound.ring.intern s.own.pool (.ofText name)).2.2
  exact ⟨k.of_units rfl rfl rfl rfl (k.kept.turn turns), rfl⟩

/-- A unit is taken a step further. -/
theorem Compiled.changeUnit (k : Compiled h₀ out p s) (hf : ∀ x : CodeUnit, x.Step c (f x))
    (added : ∀ (x : CodeUnit) i n v, x.slots.length ≤ i → (f x).slots[i]? = some (some n) →
      n.nested? = some v → ∃ z, s.own.units[v]? = some z ∧ z.outer = some u) :
    Ends (Pads.changeUnit u f) s (fun _ => Compiled h₀ out p) E :=
  ⟨k.furthers.changeUnit (fun x _ => (hf x).toBecomes) fun x i n v _ => added x i n v, k.kept⟩

/-- A unit is taken a step further and gets no slots. -/
theorem Compiled.sameSlots (k : Compiled h₀ out p s) (hf : ∀ x : CodeUnit, x.Step c (f x))
    (width : ∀ x, (f x).slots.length = x.slots.length) :
    Ends (Pads.changeUnit u f) s (fun _ => Compiled h₀ out p) E := by
  refine k.changeUnit hf fun x i n v le hn => ?_
  rw [List.getElem?_eq_none (width x ▸ le)] at hn
  cases hn

theorem Compiled.addSlot (k : Compiled h₀ out p s)
    (own : ∀ m, n = some m → m.isCaptured = false)
    (nested : ∀ m v, n = some m → m.nested? = some v →
      ∃ z, s.own.units[v]? = some z ∧ z.outer = some u) :
    Ends (Pads.addSlot u n) s (fun _ => Compiled h₀ out p) (Compiled h₀ out p) := by
  refine ((ends_unit u s).imp (fun _ _ q => q) fun _ e => e.1 ▸ k).bind ?_
  rintro x t ⟨rfl, -⟩
  -- at sequence 0 no name is declared
  refine Ends.bind (k.changeUnit (c := 0) (fun x => CodeUnit.step_addSlot fun m hm => ?_)
    fun x i m v le hm => ?_) fun _ _ k => k
  · refine ⟨own m hm, fun q le => ?_⟩
    rintro ⟨first, -, lt, -⟩
    exact UInt32.not_lt_zero (lt.trans_le le)
  · obtain ⟨-, e⟩ := CodeUnit.getElem?_addSlot le hm
    exact nested m v e.symm

theorem Compiled.openUnit (k : Compiled h₀ out p s) (name : Option String) (outer : Option Nat) :
    Ends (Pads.openUnit name outer) s (fun _ => Compiled h₀ out p) (Compiled h₀ out p) := by
  have interns (text : String) : Keeps (Compiled h₀ out p) (Pads.intern text) :=
    Keeps.of_ends fun _ k => (k.intern text).imp (fun _ _ q => q.1) fun _ e => e
  exact (keeps_openUnit_of name outer interns fun _ _ k =>
    ⟨k.furthers.openUnit rfl, k.kept⟩).ends k

theorem Compiled.unit (k : Compiled h₀ out p s) (u : Nat) :
    Ends (Pads.unit u) s (fun _ t => t = s ∧ Compiled h₀ out p t) (Compiled h₀ out p) :=
  (ends_unit u s).imp (fun _ _ q => ⟨q.1, q.1 ▸ k⟩) fun _ e => e.1 ▸ k

theorem Compiled.advance (k : Compiled h₀ out p s) :
    Ends Pads.advance s (fun _ => Compiled h₀ out p) E := k.of_units rfl rfl rfl rfl k.kept

theorem Compiled.declare (k : Compiled h₀ out p s) (u : Nat) (name : String) (sigil : Sigil)
    (declarator : Declarator) :
    Ends (Pads.declare u name sigil declarator) s (fun _ => Compiled h₀ out p)
      (Compiled h₀ out p) := by
  refine (k.intern name).bind fun key s ⟨k, _⟩ => (k.unit u).bind fun x s ⟨_, k⟩ => ?_
  have add {s : Beside Pads} (k : Compiled h₀ out p s) :
      Ends (Pads.addSlot u (some { name := key, sigil, declarator })) s
        (fun _ => Compiled h₀ out p) (Compiled h₀ out p) := by
    refine k.addSlot (fun m hm => ?_) fun m v hm nested => ?_
    · cases hm
      rfl
    · cases hm
      cases nested
  split
  · refine Ends.bind (((Heap.keeps_report _ _).ends k.kept).lift.imp (fun _ _ q => q) ?_) ?_
    · exact fun t e => ⟨e.1 ▸ k.furthers, e.2⟩
    · exact fun _ t e => add ⟨e.1 ▸ k.furthers, e.2⟩
  · exact add k

theorem Compiled.annotate (k : Compiled h₀ out p s) (u slot : Nat) (typeName : String) :
    Ends (Pads.annotate u slot typeName) s (fun _ => Compiled h₀ out p) (Compiled h₀ out p) := by
  refine (k.intern typeName).bind fun key s ⟨k, _⟩ => ?_
  have found : Ends (Pads.unit u) s (fun _ => Compiled h₀ out p) (Compiled h₀ out p) :=
    (k.unit u).imp (fun _ _ q => q.2) fun _ e => e
  refine found.discard.bind fun _ s k => ?_
  exact k.sameSlots (c := 0) (fun x => CodeUnit.step_annotate slot key) fun x => by simp

theorem Compiled.addPrototype (k : Compiled h₀ out p s) (u nested : Nat) :
    Ends (Pads.addPrototype u nested) s (fun _ => Compiled h₀ out p) (Compiled h₀ out p) := by
  unfold Pads.addPrototype
  refine ((ends_unit nested s).imp (fun _ _ q => q) fun _ e => e.1 ▸ k).bind ?_
  rintro z t ⟨rfl, hz⟩
  dsimp only
  split
  · exact k
  rename_i inside
  refine (k.intern _).bind fun key s ⟨k, units⟩ => Ends.self ?_
  refine k.addSlot (fun m hm => ?_) fun m v hm nested => ?_
  · cases hm
    rfl
  · cases hm
    cases nested
    exact ⟨z, units ▸ hz, Decidable.not_not.mp inside⟩

/-- **Every directive** only takes units further. -/
theorem Compiled.perform (k : Compiled h₀ out p s) (d : Directive) :
    Ends d.perform s (fun _ => Compiled h₀ out p) (Compiled h₀ out p) := by
  -- a directive that changes a unit which has to be there, then may move the clock on
  have found {s : Beside Pads} (k : Compiled h₀ out p s) (u : Nat) :
      Ends (discard (Pads.unit u)) s (fun _ => Compiled h₀ out p) (Compiled h₀ out p) :=
    ((k.unit u).imp (fun _ _ q => q.2) fun _ e => e).discard
  cases d with
  | openUnit name outer => exact (k.openUnit name outer).discard
  | declare u name sigil declarator => exact (k.declare u name sigil declarator).discard
  | annotate u slot typeName => exact k.annotate u slot typeName
  | addTemporary u => exact (k.addSlot (by simp) (by simp)).discard
  | addPrototype u nested => exact (k.addPrototype u nested).discard
  | introduce u =>
    refine Ends.discard ((found k u).bind fun _ s k => Ends.self ?_)
    refine (k.sameSlots (fun x => CodeUnit.step_introduce) fun x => ?_).bind fun _ s k => ?_
    · simp [CodeUnit.introduce]
    · exact k.advance.discard.bind fun _ _ k => k
  | advance => exact k.advance.discard
  | enterScope u =>
    refine Ends.discard ((k.unit u).bind fun x s found => ?_)
    refine Ends.bind (found.2.sameSlots (c := 0) (fun x => CodeUnit.step_enterScope) fun x => ?_) ?_
    · rfl
    · exact fun _ _ k => k
  | leaveScope mark =>
    refine (found k mark.unit).bind fun _ s k => Ends.self ?_
    refine (k.sameSlots (fun x => CodeUnit.step_close mark.start _) fun x => ?_).bind
      fun _ s k => ?_
    · simp only [CodeUnit.close, List.length_append, List.length_map, List.length_take,
        List.length_drop]
      omega
    · exact k.advance.discard
  | capture u name sigil =>
    exact ⟨k.furthers.search (f := (·.capture u name sigil)) fun _ => k.furthers.captureWithin,
      k.kept⟩
  | lookup u name sigil =>
    exact ⟨k.furthers.search (f := (·.lookup u name sigil)) fun _ => k.furthers.lookup, k.kept⟩

end

section
variable {h₀ : Heap} {out : List CellId} {p q : Pads} {s t : Beside Pads} {id : ActivationId}
  {x : CodeUnit} {u slot v : Nat} {E : Beside Pads → Prop}

theorem Furthers.formed (w : Furthers p q) (formed : p.Formed) (nested : q.WellNested) :
    q.Formed where
  nested := nested
  nests := w.nests
  fits id a ha := by
    rw [activation?_eq, w.places, ← activation?_eq] at ha
    obtain ⟨x, hx, fits⟩ := formed.fits id a ha
    obtain ⟨y, hy, len⟩ := w.units _ x hx
    exact ⟨y, hy, Nat.le_trans fits len⟩
  vacant := by
    unfold TellsVacant
    rw [w.vacant, w.places]
    exact formed.vacant

/-- **Compiling** leaves activations alone. -/
theorem furthers_directive (b : Balanced h₀ out s) (d : Directive) :
    Ends d.perform s (fun _ t => Furthers s.own t.own ∧ Heap.Kept h₀ (out ++ s.own.held) t.heap)
      fun t => Furthers s.own t.own ∧ Heap.Kept h₀ (out ++ s.own.held) t.heap := by
  have start : Compiled h₀ (out ++ s.own.held) s.own s :=
    ⟨⟨rfl, rfl, rfl, fun u x hx => ⟨x, hx, Nat.le_refl _⟩, b.formed.nests⟩, b.kept⟩
  exact (start.perform d).imp (fun _ _ k => ⟨k.furthers, k.kept⟩) fun _ k => ⟨k.furthers, k.kept⟩

/-- Compiling keeps the balance. -/
theorem keeps_directive (d : Directive) : Keeps (Balanced h₀ out) d.perform := by
  refine Keeps.of_ends fun s b => ?_
  have balanced {t : Beside Pads} (nested : t.own.WellNested)
      (k : Furthers s.own t.own ∧ Heap.Kept h₀ (out ++ s.own.held) t.heap) :
      Balanced h₀ out t := by
    refine ⟨k.1.formed b.formed nested, ?_⟩
    have same : t.own.held = s.own.held := by
      unfold held
      rw [k.1.places]
    exact same ▸ k.2
  refine (((keeps_perform d).ends b.formed.nested).and (furthers_directive b d)).imp ?_ ?_
  · exact fun _ t q => balanced q.1 q.2
  · exact fun t e => balanced e.1 e.2

end

end Pads

end ScriptCore
