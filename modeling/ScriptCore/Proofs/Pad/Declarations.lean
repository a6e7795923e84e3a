import Mathlib.Algebra.Group.Nat.Defs
import Mathlib.Order.Nat
import ScriptCore.Pad.Scope

/-!
# Pad — declarations and what time does to them

`Declares` says that a unit itself declares a name in a slot at a sequence, `OwnAt` that the slot
is the last one to do so.

`Becomes` says what time does to names, units and pads.  A slot keeps its name, its kind and
what it stands for, and every sequence that has passed keeps its declarations
(`CodeUnit.Becomes.ownAt_iff`).  A `Step` of a unit adds, besides, no slot that stands for an
outer one.  As nothing is declared at sequence 0, what becomes of pads there is that names stay.
What captures do to pads (`Pads.Widens`) changes no declaration at any sequence.
-/

namespace ScriptCore

/-! ### Sequences -/

instance sequenceOrder : LinearOrder UInt32 where
  le_refl := UInt32.le_refl
  le_trans _ _ _ := UInt32.le_trans
  le_antisymm _ _ := UInt32.le_antisymm
  le_total := UInt32.le_total
  lt_iff_le_not_ge a b := by
    rw [UInt32.lt_iff_toNat_lt, UInt32.le_iff_toNat_le, UInt32.le_iff_toNat_le]
    omega
  toDecidableLE := inferInstance
  toDecidableLT := inferInstance
  toDecidableEq := inferInstance

/-- The sequence after one that is not the last. -/
theorem lt_next {c : UInt32} (room : c.toNat + 1 < 2 ^ 32) :
    c < c + 1 ∧ (c + 1).toNat = c.toNat + 1 := by
  have next : (c + 1).toNat = c.toNat + 1 := by
    rw [UInt32.toNat_add]
    exact Nat.mod_eq_of_lt room
  rw [UInt32.lt_iff_toNat_lt, next]
  exact ⟨Nat.lt_succ_self _, rfl⟩

theorem ne_next (c : UInt32) : c ≠ c + 1 := by
  intro same
  have same : c.toNat = (c.toNat + 1) % 2 ^ 32 := (congrArg UInt32.toNat same).trans rfl
  have bound := c.toNat_lt
  omega

/-! ### Declarations in force -/

/-- The name is introduced before the sequence and not closed before it. -/
def PadName.DeclaredAt (n : PadName) (sequence : UInt32) : Prop :=
  ∃ first, n.introduced = some first ∧ first < sequence ∧
    ∀ last, n.closed = some last → sequence ≤ last

theorem PadName.visibleAt_iff {n : PadName} {sequence : UInt32} :
    n.visibleAt sequence = true ↔ n.isCaptured = true ∨ n.DeclaredAt sequence := by
  unfold visibleAt DeclaredAt
  cases n.introduced <;> cases n.closed <;> simp

theorem PadName.isCaptured_eq_false {n : PadName} : n.isCaptured = false ↔ n.outerSlot? = none := by
  simp [isCaptured]

theorem PadName.isCaptured_iff {n : PadName} :
    n.isCaptured = true ↔ ∃ k, n.outerSlot? = some k := by
  simp [isCaptured, Option.isSome_iff_exists]

/-- The unit itself declares the name in a slot at a sequence. -/
def CodeUnit.Declares (x : CodeUnit) (name : Key) (sigil : Sigil) (sequence : UInt32) (i : Nat) :
    Prop :=
  ∃ n, x.slots[i]? = some (some n) ∧ n.isCaptured = false ∧ n.answersTo name sigil = true ∧
    n.DeclaredAt sequence

/-- The last slot in which the unit itself declares the name at a sequence. -/
def CodeUnit.OwnAt (x : CodeUnit) (name : Key) (sigil : Sigil) (sequence : UInt32) (i : Nat) :
    Prop :=
  x.Declares name sigil sequence i ∧ ∀ j, x.Declares name sigil sequence j → j ≤ i

theorem CodeUnit.OwnAt.unique {x : CodeUnit} {name : Key} {sigil : Sigil} {sequence : UInt32}
    {i j : Nat} (hi : x.OwnAt name sigil sequence i) (hj : x.OwnAt name sigil sequence j) : i = j :=
  le_antisymm (hj.2 i hi.1) (hi.2 j hj.1)

/-! ### What time does -/

/-- `n'` is the name `n` at a later time: `c` is a sequence that had not passed. -/
structure PadName.Becomes (c : UInt32) (n n' : PadName) : Prop where
  name : n'.name = n.name
  sigil : n'.sigil = n.sigil
  origin : n'.origin = n.origin
  declared : ∀ s ≤ c, n'.DeclaredAt s ↔ n.DeclaredAt s

/-- `y` is the unit `x` at a later time.  What slots were added declares nothing at sequences
up to `c`. -/
structure CodeUnit.Becomes (c : UInt32) (x y : CodeUnit) : Prop where
  outer : y.outer = x.outer
  outerSequence : y.outerSequence = x.outerSequence
  old : ∀ (i : Nat) (n : Option PadName), x.slots[i]? = some n →
    ∃ n', y.slots[i]? = some n' ∧ Option.Rel (PadName.Becomes c) n n'
  added : ∀ (i : Nat) (n : PadName), x.slots.length ≤ i → y.slots[i]? = some (some n) →
    n.isCaptured = false → ∀ s ≤ c, ¬ n.DeclaredAt s

/-- A later time of the unit that added no slot for an outer one. -/
structure CodeUnit.Step (c : UInt32) (x y : CodeUnit) : Prop extends CodeUnit.Becomes c x y where
  own : ∀ (i : Nat) (n : PadName), x.slots.length ≤ i → y.slots[i]? = some (some n) →
    n.isCaptured = false

/-- `q` are the pads `p` at a later time: `c` is a sequence that had not passed. -/
structure Pads.Becomes (c : UInt32) (p q : Pads) : Prop where
  seed : q.seed = p.seed
  unit : ∀ (u : Nat) (x : CodeUnit), p.units[u]? = some x →
    ∃ y, q.units[u]? = some y ∧ x.Becomes c y

/-- `q` are the pads `p` with more slots that stand for outer ones. -/
structure Pads.Widens (p q : Pads) : Prop where
  clock : q.clock = p.clock
  becomes : ∀ c, p.Becomes c q

theorem PadName.Becomes.refl (c : UInt32) (n : PadName) : n.Becomes c n :=
  ⟨rfl, rfl, rfl, fun _ _ => Iff.rfl⟩

theorem PadName.Becomes.isCaptured {c : UInt32} {n n' : PadName} (h : n.Becomes c n') :
    n'.isCaptured = n.isCaptured := by
  simp [PadName.isCaptured, outerSlot?, h.origin]

theorem PadName.Becomes.outerSlot? {c : UInt32} {n n' : PadName} (h : n.Becomes c n') :
    n'.outerSlot? = n.outerSlot? := by
  simp [PadName.outerSlot?, h.origin]

theorem PadName.Becomes.answersTo {c : UInt32} {n n' : PadName} (h : n.Becomes c n')
    (name : Key) (sigil : Sigil) : n'.answersTo name sigil = n.answersTo name sigil := by
  simp [PadName.answersTo, h.name, h.sigil]

theorem PadName.Becomes.trans {c d : UInt32} {n n' n'' : PadName} (h : n.Becomes c n')
    (h' : n'.Becomes d n'') (le : c ≤ d) : n.Becomes c n'' :=
  ⟨h'.name.trans h.name, h'.sigil.trans h.sigil, h'.origin.trans h.origin,
    fun s hs => (h'.declared s (hs.trans le)).trans (h.declared s hs)⟩

theorem PadName.Becomes.mono {c d : UInt32} {n n' : PadName} (h : n.Becomes d n') (le : c ≤ d) :
    n.Becomes c n' :=
  ⟨h.name, h.sigil, h.origin, fun s hs => h.declared s (hs.trans le)⟩

/-! ### Slot by slot -/

/-- Each slot of `x` is there in `y`, without a name if it had none, else with one to which `R`
relates the name it had. -/
def CodeUnit.Retains (R : Nat → PadName → PadName → Prop) (x y : CodeUnit) : Prop :=
  ∀ (i : Nat) (n : Option PadName), x.slots[i]? = some n →
    ∃ n', y.slots[i]? = some n' ∧ Option.Rel (R i) n n'

namespace CodeUnit
variable {R S T : Nat → PadName → PadName → Prop} {x y z : CodeUnit} {i : Nat} {n n' : PadName}

/-- The named slots of the one are named slots of the other. -/
theorem Retains.slot (h : x.Retains R y) (hn : x.slots[i]? = some (some n)) :
    ∃ n', y.slots[i]? = some (some n') ∧ R i n n' := by
  obtain ⟨_, hn', r⟩ := h i _ hn
  cases r with
  | some r => exact ⟨_, hn', r⟩

/-- A named slot where there was a slot before is one that was named. -/
theorem Retains.slot_inv (h : x.Retains R y) (lt : i < x.slots.length)
    (hn : y.slots[i]? = some (some n')) : ∃ n, x.slots[i]? = some (some n) ∧ R i n n' := by
  obtain ⟨_, there, r⟩ := h i _ (List.getElem?_eq_getElem lt)
  cases hn.symm.trans there
  rw [List.getElem?_eq_getElem lt]
  generalize x.slots[i] = n at r
  cases r with
  | some r => exact ⟨_, rfl, r⟩

theorem Retains.trans (h : x.Retains R y) (h' : y.Retains S z)
    (next : ∀ i n n' n'', R i n n' → S i n' n'' → T i n n'') : x.Retains T z := by
  intro i n hn
  obtain ⟨n', hn', r⟩ := h i n hn
  obtain ⟨n'', hn'', r'⟩ := h' i n' hn'
  refine ⟨n'', hn'', ?_⟩
  cases r with
  | none =>
    cases r'
    exact .none
  | some r =>
    cases r' with
    | some r' => exact .some (next i _ _ _ r r')

theorem Retains.imp (h : x.Retains R y) (next : ∀ i n n', R i n n' → S i n n') :
    x.Retains S y := by
  intro i n hn
  obtain ⟨n', hn', r⟩ := h i n hn
  refine ⟨n', hn', ?_⟩
  cases r with
  | none => exact .none
  | some r => exact .some (next i _ _ r)

/-- A change of each name. -/
theorem retains_map {f : Nat → PadName → PadName}
    (slots : ∀ i : Nat, y.slots[i]? = (x.slots[i]?).map (Option.map (f i)))
    (change : ∀ i n, R i n (f i n)) : x.Retains R y := by
  intro i n hn
  refine ⟨n.map (f i), by rw [slots, hn]; rfl, ?_⟩
  cases n with
  | none => exact .none
  | some n => exact .some (change i n)

/-- One more slot. -/
theorem retains_addSlot (same : ∀ i n, R i n n) (x : CodeUnit) (n : Option PadName)
    (captures : Bool) : x.Retains R { x.addSlot n with captures } := by
  intro i m hm
  refine ⟨m, ?_, by cases m <;> simp [same]⟩
  rw [← hm]
  exact List.getElem?_append_left (List.getElem?_eq_some_iff.mp hm).1

theorem retains_refl (same : ∀ i n, R i n n) (x : CodeUnit) : x.Retains R x :=
  fun i n hn => ⟨n, hn, by cases n <;> simp [same]⟩

end CodeUnit

namespace CodeUnit.Becomes
variable {c d : UInt32} {x y z : CodeUnit}

theorem refl (c : UInt32) (x : CodeUnit) : x.Becomes c x where
  outer := rfl
  outerSequence := rfl
  old := retains_refl (fun _ => .refl c) x
  added i n le h := absurd (List.getElem?_eq_some_iff.mp h).1 (by omega)

/-- The named slots of the earlier unit are named slots of the later one. -/
theorem slot (h : x.Becomes c y) {i : Nat} {n : PadName} (hn : x.slots[i]? = some (some n)) :
    ∃ n', y.slots[i]? = some (some n') ∧ n.Becomes c n' :=
  Retains.slot h.old hn

/-- A named slot of the later unit that the earlier one has was a named slot of it. -/
theorem slot_inv (h : x.Becomes c y) {i : Nat} {n' : PadName} (lt : i < x.slots.length)
    (hn : y.slots[i]? = some (some n')) : ∃ n, x.slots[i]? = some (some n) ∧ n.Becomes c n' :=
  Retains.slot_inv h.old lt hn

theorem trans (h : x.Becomes c y) (h' : y.Becomes d z) (le : c ≤ d) : x.Becomes c z where
  outer := h'.outer.trans h.outer
  outerSequence := h'.outerSequence.trans h.outerSequence
  old := Retains.trans h.old h'.old fun _ _ _ _ r r' => r.trans r' le
  added i n lt hn own s hs := by
    by_cases hi : i < y.slots.length
    · obtain ⟨m, hm, b⟩ := h'.slot_inv hi hn
      rw [b.declared s (hs.trans le)]
      exact h.added i m lt hm (b.isCaptured ▸ own) s hs
    · exact h'.added i n (by omega) hn own s (hs.trans le)

theorem mono (h : x.Becomes d y) (le : c ≤ d) : x.Becomes c y where
  outer := h.outer
  outerSequence := h.outerSequence
  old := Retains.imp h.old fun _ _ _ r => r.mono le
  added i n le' hn own s hs := h.added i n le' hn own s (hs.trans le)

/-- What a unit declares at a sequence that has not passed later than `c` stays. -/
theorem declares_iff (h : x.Becomes c y) {name : Key} {sigil : Sigil} {s : UInt32} {i : Nat}
    (hs : s ≤ c) :
    y.Declares name sigil s i ↔ x.Declares name sigil s i := by
  constructor
  · rintro ⟨n, hn, own, an, dn⟩
    by_cases hi : i < x.slots.length
    · obtain ⟨m, hm, b⟩ := h.slot_inv hi hn
      exact ⟨m, hm, b.isCaptured ▸ own, b.answersTo name sigil ▸ an, (b.declared s hs).mp dn⟩
    · exact absurd dn (h.added i n (by omega) hn own s hs)
  · rintro ⟨n, hn, own, an, dn⟩
    obtain ⟨m, hm, b⟩ := h.slot hn
    exact ⟨m, hm, b.isCaptured.trans own, (b.answersTo name sigil).trans an,
      (b.declared s hs).mpr dn⟩

theorem ownAt_iff (h : x.Becomes c y) {name : Key} {sigil : Sigil} {s : UInt32} {i : Nat}
    (hs : s ≤ c) :
    y.OwnAt name sigil s i ↔ x.OwnAt name sigil s i := by
  simp only [OwnAt, h.declares_iff hs]

end CodeUnit.Becomes

/-! ### Unit by unit -/

namespace Pads
variable {units : Array CodeUnit} {x y z : CodeUnit} {u v : Nat}

/-- One unit is another than before. -/
theorem units_set {R : Nat → CodeUnit → CodeUnit → Prop} (hx : units[u]? = some x)
    (here : R u x y) (others : ∀ v z, R v z z) (hz : units[v]? = some z) :
    ∃ z', (units.setIfInBounds u y)[v]? = some z' ∧ R v z z' := by
  rw [Array.getElem?_setIfInBounds]
  split
  · rename_i same
    subst same
    cases hx.symm.trans hz
    exact ⟨y, if_pos (Array.getElem?_eq_some_iff.mp hx).1, here⟩
  · exact ⟨z, hz, others v z⟩

theorem units_set_cases (hz : (units.setIfInBounds u y)[v]? = some z) :
    v = u ∧ z = y ∨ units[v]? = some z := by
  rw [Array.getElem?_setIfInBounds] at hz
  split at hz
  · rename_i same
    split at hz
    · exact .inl ⟨same.symm, (Option.some.inj hz).symm⟩
    · cases hz
  · exact .inr hz

theorem units_push (hz : units[v]? = some z) : (units.push x)[v]? = some z := by
  rw [Array.getElem?_push, if_neg (Nat.ne_of_lt (Array.getElem?_eq_some_iff.mp hz).1), hz]

theorem units_push_cases (hz : (units.push x)[v]? = some z) :
    v = units.size ∧ z = x ∨ units[v]? = some z := by
  rw [Array.getElem?_push] at hz
  split at hz
  · rename_i last
    exact .inl ⟨last, (Option.some.inj hz).symm⟩
  · exact .inr hz

theorem units_modify_of_none (hx : units[u]? = none) (f : CodeUnit → CodeUnit) :
    units.modify u f = units := by
  refine Array.ext_getElem? fun v => ?_
  rw [Array.getElem?_modify]
  split
  · rename_i same
    rw [← same, hx]
    rfl
  · rfl

end Pads

theorem Pads.Becomes.refl (c : UInt32) (p : Pads) : p.Becomes c p :=
  ⟨rfl, fun _ x hx => ⟨x, hx, .refl c x⟩⟩

theorem Pads.Becomes.trans {c d : UInt32} {p q r : Pads} (h : p.Becomes c q) (h' : q.Becomes d r)
    (le : c ≤ d) : p.Becomes c r where
  seed := h'.seed.trans h.seed
  unit u x hx := by
    obtain ⟨y, hy, b⟩ := h.unit u x hx
    obtain ⟨z, hz, b'⟩ := h'.unit u y hy
    exact ⟨z, hz, b.trans b' le⟩

theorem Pads.Widens.refl (p : Pads) : p.Widens p := ⟨rfl, fun c => .refl c p⟩

theorem Pads.Widens.trans {p q r : Pads} (h : p.Widens q) (h' : q.Widens r) : p.Widens r :=
  ⟨h'.clock.trans h.clock, fun c => (h.becomes c).trans (h'.becomes c) le_rfl⟩

/-! ### What a name means -/

/-- What the declarations say a name means in unit `u` at a sequence: the slot of the unit's own
that declares it, else what it means in the unit around it as of the opening of this one. -/
inductive Pads.Resolves (p : Pads) (name : Key) (sigil : Sigil) :
    Nat → UInt32 → Nat × Nat → Prop
  | own {u i : Nat} {s : UInt32} {x : CodeUnit} : p.units[u]? = some x → x.OwnAt name sigil s i →
    Resolves p name sigil u s (u, i)
  | outer {u o : Nat} {s : UInt32} {x : CodeUnit} {t : Nat × Nat} : p.units[u]? = some x →
    (∀ i, ¬ x.OwnAt name sigil s i) → x.outer = some o →
    Resolves p name sigil o x.outerSequence t → Resolves p name sigil u s t

namespace Pads
variable {p q : Pads} {name : Key} {sigil : Sigil} {u i : Nat} {s : UInt32} {x : CodeUnit}
  {t t' : Nat × Nat}

theorem resolves_own_iff (hx : p.units[u]? = some x) (own : x.OwnAt name sigil s i) :
    p.Resolves name sigil u s t ↔ t = (u, i) := by
  constructor
  · rintro (⟨hx', own'⟩ | ⟨hx', none, -, -⟩)
    · obtain rfl := Option.some.inj (hx.symm.trans hx')
      rw [own'.unique own]
    · obtain rfl := Option.some.inj (hx.symm.trans hx')
      exact absurd own (none i)
  · rintro rfl
    exact .own hx own

theorem resolves_outer_iff {o : Nat} (hx : p.units[u]? = some x)
    (none : ∀ i, ¬ x.OwnAt name sigil s i) (ho : x.outer = some o) :
    p.Resolves name sigil u s t ↔ p.Resolves name sigil o x.outerSequence t := by
  constructor
  · rintro (⟨hx', own⟩ | ⟨hx', -, ho', r⟩)
    · obtain rfl := Option.some.inj (hx.symm.trans hx')
      exact absurd own (none _)
    · obtain rfl := Option.some.inj (hx.symm.trans hx')
      obtain rfl := Option.some.inj (ho.symm.trans ho')
      exact r
  · exact .outer hx none ho

/-- A name means one thing. -/
theorem Resolves.unique (h : p.Resolves name sigil u s t) (h' : p.Resolves name sigil u s t') :
    t = t' := by
  induction h with
  | own hx own => exact ((resolves_own_iff hx own).mp h').symm
  | outer hx none ho _ ih => exact ih ((resolves_outer_iff hx none ho).mp h')

end Pads

end ScriptCore
