import Mathlib.Data.List.Induction
import ScriptCore.Proofs.Key.Map
import ScriptCore.Proofs.Pad.Declarations

/-!
# Pad — captures

`WellNested` is the invariant of units: a unit is compiled inside an earlier one, and a captured
slot stands for a slot of the same name there.  `WellScoped` says besides that the slot, if it is
that unit's own, is the one its declarations gave the name when the inner unit was opened.  This is
so until the clock comes round.

To capture a name keeps both (`WellNested.captureWithin`): a unit gets a slot for an outer one only
when the outer one was found, and the slots it has stay.  Of any other property it is enough to see
that a slot which stands for an outer one keeps it (`captureWithin_keeps`).
-/

namespace ScriptCore

namespace PadName

theorem answersTo_iff {n : PadName} {name : Key} {sigil : Sigil} :
    n.answersTo name sigil = true ↔ n.sigil = sigil ∧ n.name.same name = true := by
  simp [answersTo]

/-- What answers to the name of a slot answers to every name the slot answers to. -/
theorem answersTo_name_iff {n m : PadName} {name : Key} {sigil : Sigil}
    (h : n.answersTo name sigil = true) :
    m.answersTo n.name n.sigil = true ↔ m.answersTo name sigil = true := by
  rw [answersTo_iff] at h
  rw [answersTo_iff, answersTo_iff, h.1]
  exact and_congr_right fun _ =>
    ⟨fun hm => Key.same_trans hm h.2, fun hm => Key.same_trans hm (Key.same_symm h.2)⟩

end PadName

namespace CodeUnit

theorem declares_name_iff {x : CodeUnit} {n : PadName} {name : Key} {sigil : Sigil} {s : UInt32}
    {i : Nat} (h : n.answersTo name sigil = true) :
    x.Declares n.name n.sigil s i ↔ x.Declares name sigil s i := by
  simp only [Declares, PadName.answersTo_name_iff h]

theorem ownAt_name_iff {x : CodeUnit} {n : PadName} {name : Key} {sigil : Sigil} {s : UInt32}
    {i : Nat} (h : n.answersTo name sigil = true) :
    x.OwnAt n.name n.sigil s i ↔ x.OwnAt name sigil s i := by
  simp only [OwnAt, declares_name_iff h]

/-! ### Finding slots -/

theorem getElem?_concat_eq_some_iff {α : Type} {l : List α} {a b : α} {j : Nat} :
    (l ++ [a])[j]? = some b ↔ l[j]? = some b ∨ j = l.length ∧ b = a := by
  rw [List.getElem?_append]
  by_cases lt : j < l.length
  · rw [if_pos lt]
    exact (or_iff_left fun h => Nat.ne_of_lt lt h.1).symm
  · rw [if_neg lt, List.getElem?_eq_none (Nat.le_of_not_lt lt), List.getElem?_singleton]
    by_cases e : j = l.length
    · simp [e, eq_comm]
    · simp [e, show j - l.length ≠ 0 by omega]

/-- The last place of a list at which `f` holds. -/
theorem last_zipIdx_eq_some_iff {α : Type} {f : α → Bool} {l : List α} {i : Nat} :
    (l.zipIdx.reverse.find? fun e => f e.1).map (·.2) = some i ↔
      (∃ a, l[i]? = some a ∧ f a = true) ∧ ∀ j a, l[j]? = some a → f a = true → j ≤ i := by
  induction l using List.reverseRecOn generalizing i with
  | nil => simp
  | append_singleton l a ih =>
    rw [List.zipIdx_append]
    simp only [List.zipIdx_singleton, Nat.zero_add, List.reverse_append, List.reverse_singleton,
      List.singleton_append, List.find?_cons]
    cases ha : f a with
    | true =>
      -- the new element is the last
      simp only [Option.map_some, Option.some.injEq]
      constructor
      · rintro rfl
        refine ⟨⟨a, List.getElem?_concat_length, ha⟩, fun j b hj _ => ?_⟩
        rcases getElem?_concat_eq_some_iff.mp hj with h | ⟨rfl, -⟩
        · exact (List.getElem?_eq_some_iff.mp h).1.le
        · exact le_rfl
      · rintro ⟨⟨b, hb, -⟩, le⟩
        have := le _ a List.getElem?_concat_length ha
        rcases getElem?_concat_eq_some_iff.mp hb with h | ⟨rfl, -⟩
        · exact absurd (List.getElem?_eq_some_iff.mp h).1 (Nat.not_lt.mpr this)
        · rfl
    | false =>
      -- the new element makes no difference
      have same {j : Nat} {b : α} (fb : f b = true) :
          (l ++ [a])[j]? = some b ↔ l[j]? = some b := by
        rw [getElem?_concat_eq_some_iff]
        refine or_iff_left ?_
        rintro ⟨-, rfl⟩
        rw [ha] at fb
        cases fb
      simp only
      rw [ih]
      constructor
      · rintro ⟨⟨b, hb, fb⟩, le⟩
        exact ⟨⟨b, (same fb).mpr hb, fb⟩, fun j c hj fc => le j c ((same fc).mp hj) fc⟩
      · rintro ⟨⟨b, hb, fb⟩, le⟩
        exact ⟨⟨b, (same fb).mp hb, fb⟩, fun j c hj fc => le j c ((same fc).mpr hj) fc⟩

theorem last_zipIdx_eq_none_iff {α : Type} {f : α → Bool} {l : List α} :
    (l.zipIdx.reverse.find? fun e => f e.1).map (·.2) = none ↔
      ∀ (j : Nat) (a : α), l[j]? = some a → f a = false := by
  rw [Option.map_eq_none_iff, List.find?_eq_none]
  constructor
  · intro h j a hj
    have := h (a, j) (by simp [List.mem_zipIdx_iff_getElem?, hj])
    simpa using this
  · rintro h ⟨a, j⟩ hm
    rw [List.mem_reverse, List.mem_zipIdx_iff_getElem?] at hm
    simp [h j a hm]

/-- The slot can be found under the name at the sequence. -/
def Shows (x : CodeUnit) (name : Key) (sigil : Sigil) (sequence : UInt32) (i : Nat) : Prop :=
  ∃ n, x.slots[i]? = some (some n) ∧ n.answersTo name sigil = true ∧
    (n.isCaptured = true ∨ n.DeclaredAt sequence)

variable {x : CodeUnit} {name : Key} {sigil : Sigil} {s : UInt32} {i : Nat}

theorem Declares.shows (h : x.Declares name sigil s i) : x.Shows name sigil s i := by
  obtain ⟨n, hn, -, an, dn⟩ := h
  exact ⟨n, hn, an, .inr dn⟩

theorem shows_iff (x : CodeUnit) (name : Key) (sigil : Sigil) (s : UInt32) (i : Nat) :
    (∃ n, x.slots[i]? = some n ∧
      (n.map fun n => n.answersTo name sigil && n.visibleAt s).getD false = true) ↔
      x.Shows name sigil s i := by
  unfold Shows
  simp only [← PadName.visibleAt_iff]
  constructor
  · rintro ⟨_ | n, hn, h⟩
    · cases h
    · exact ⟨n, hn, by simpa using h⟩
  · rintro ⟨n, hn, h⟩
    exact ⟨some n, hn, by simpa using h⟩

/-- The slot found is the last one that shows. -/
theorem visibleSlot?_eq_some_iff :
    x.visibleSlot? name sigil s = some i ↔
      x.Shows name sigil s i ∧ ∀ j, x.Shows name sigil s j → j ≤ i := by
  unfold visibleSlot?
  rw [last_zipIdx_eq_some_iff (f := fun n : Option PadName =>
    (n.map fun n => n.answersTo name sigil && n.visibleAt s).getD false), shows_iff]
  simp only [← shows_iff x name sigil s, forall_exists_index,
    and_imp]

theorem visibleSlot?_eq_none_iff :
    x.visibleSlot? name sigil s = none ↔ ∀ i, ¬ x.Shows name sigil s i := by
  unfold visibleSlot?
  rw [last_zipIdx_eq_none_iff (f := fun n : Option PadName =>
    (n.map fun n => n.answersTo name sigil && n.visibleAt s).getD false)]
  simp only [← shows_iff x name sigil s, not_exists, not_and,
    Bool.not_eq_true]

/-- A slot that was found and is the unit's own is the last of its own. -/
theorem ownAt_of_visibleSlot? {n : PadName} (h : x.visibleSlot? name sigil s = some i)
    (hn : x.slots[i]? = some (some n)) (own : n.isCaptured = false) :
    x.OwnAt name sigil s i := by
  obtain ⟨⟨m, hm, am, vm⟩, le⟩ := visibleSlot?_eq_some_iff.mp h
  rw [hn, Option.some.injEq, Option.some.injEq] at hm
  subst hm
  exact ⟨⟨n, hn, own, am, vm.resolve_left (by simp [own])⟩, fun j hj => le j hj.shows⟩

theorem capturedSlot?_eq_some {k : Nat} (h : x.capturedSlot? name sigil k = some i) :
    ∃ n, x.slots[i]? = some (some n) ∧ n.outerSlot? = some k ∧
      n.answersTo name sigil = true := by
  obtain ⟨lt, hi, -⟩ := List.findIdx?_eq_some_iff_getElem.mp h
  cases hx : x.slots[i] with
  | none => rw [hx] at hi; cases hi
  | some n =>
    rw [hx] at hi
    exact ⟨n, by rw [List.getElem?_eq_getElem lt, hx], by simpa using hi⟩

/-! ### Adding a slot -/

theorem becomes_addSlot (c : UInt32) (x : CodeUnit) (n : Option PadName) (captures : Bool)
    (h : ∀ m, n = some m → m.isCaptured = false → ∀ s ≤ c, ¬ m.DeclaredAt s) :
    x.Becomes c { x.addSlot n with captures } where
  outer := rfl
  outerSequence := rfl
  old := retains_addSlot (fun _ => .refl c) x n captures
  added j m le hm own s hs := by
    rcases getElem?_concat_eq_some_iff.mp hm with old | ⟨-, hn⟩
    · exact absurd (List.getElem?_eq_some_iff.mp old).1 (Nat.not_lt.mpr le)
    · exact h m hn.symm own s hs

/-- The last slot after one was added. -/
theorem getElem?_addSlot {n : Option PadName} {j : Nat}
    {m : Option PadName} (le : x.slots.length ≤ j) (h : (x.addSlot n).slots[j]? = some m) :
    j = x.slots.length ∧ m = n := by
  rcases getElem?_concat_eq_some_iff.mp h with old | new
  · exact absurd (List.getElem?_eq_some_iff.mp old).1 (Nat.not_lt.mpr le)
  · exact new

end CodeUnit

namespace Pads

/-! ### The invariant of scopes -/

/-- A slot of the unit `x` under the name `n` stands for slot `k` of the unit around it. -/
def Aliases (p : Pads) (x : CodeUnit) (n : PadName) (k : Nat) : Prop :=
  ∃ o y m, x.outer = some o ∧ p.units[o]? = some y ∧ y.slots[k]? = some (some m) ∧
    m.name = n.name ∧ m.sigil = n.sigil

/-- Units are nested in earlier ones, and captured slots stand for what they are named after. -/
structure WellNested (p : Pads) : Prop where
  nested : ∀ (u : Nat) (x : CodeUnit) (o : Nat), p.units[u]? = some x → x.outer = some o → o < u
  aliased : ∀ (u : Nat) (x : CodeUnit) (i : Nat) (n : PadName) (k : Nat),
    p.units[u]? = some x → x.slots[i]? = some (some n) → n.outerSlot? = some k → p.Aliases x n k

/-- If slot `k` of the unit around `x` is that unit's own, it is the one in force under the name `n`
as of the opening of `x`. -/
def InForce (p : Pads) (x : CodeUnit) (n : PadName) (k : Nat) : Prop :=
  ∀ o y m, x.outer = some o → p.units[o]? = some y → y.slots[k]? = some (some m) →
    m.isCaptured = false → y.OwnAt n.name n.sigil x.outerSequence k

/-- No unit was opened later than now, and what captured slots stand for was in force when the unit
was opened. -/
structure WellScoped (p : Pads) : Prop extends WellNested p where
  opened : ∀ (u : Nat) (x : CodeUnit) (o : Nat), p.units[u]? = some x → x.outer = some o →
    x.outerSequence ≤ p.clock
  inForce : ∀ (u : Nat) (x : CodeUnit) (i : Nat) (n : PadName) (k : Nat),
    p.units[u]? = some x → x.slots[i]? = some (some n) → n.outerSlot? = some k → p.InForce x n k

/-- What a captured slot stands for stays. -/
theorem Aliases.becomes {p q : Pads} {x y : CodeUnit} {n n' : PadName} {k : Nat} {c : UInt32}
    (h : p.Aliases x n k) (b : p.Becomes c q) (hx : x.Becomes c y) (hn : n.Becomes c n') :
    q.Aliases y n' k := by
  obtain ⟨o, z, m, ho, hz, hm, name, sigil⟩ := h
  obtain ⟨z', hz', bz⟩ := b.unit o z hz
  obtain ⟨m', hm', bm⟩ := bz.slot hm
  exact ⟨o, z', m', hx.outer.trans ho, hz', hm', bm.name.trans (name.trans hn.name.symm),
    bm.sigil.trans (sigil.trans hn.sigil.symm)⟩

/-- It stays in force. -/
theorem InForce.becomes {p q : Pads} {x y : CodeUnit} {n n' : PadName} {k : Nat} {c : UInt32}
    (h : p.InForce x n k) (stands : p.Aliases x n k) (b : p.Becomes c q) (hx : x.Becomes c y)
    (hn : n.Becomes c n') (le : x.outerSequence ≤ c) : q.InForce y n' k := by
  intro o z' m' ho' hz' hm' own
  obtain ⟨_, z, m, ho, hz, hm, -⟩ := stands
  obtain rfl := Option.some.inj ((hx.outer.trans ho).symm.trans ho')
  obtain ⟨_, hz'', bz⟩ := b.unit _ z hz
  cases hz'.symm.trans hz''
  obtain ⟨_, hm'', bm⟩ := bz.slot hm
  cases hm'.symm.trans hm''
  rw [hx.outerSequence, hn.name, hn.sigil]
  exact (bz.ownAt_iff le).mpr (h _ z m ho hz hm (bm.isCaptured ▸ own))

/-- Where a slot of a later unit comes from: it was there, or it was added. -/
theorem Becomes.slot_cases {p q : Pads} {c : UInt32} (b : p.Becomes c q) {u i : Nat} {y : CodeUnit}
    {n : PadName} (hy : q.units[u]? = some y) (hn : y.slots[i]? = some (some n)) :
    (∃ x m, p.units[u]? = some x ∧ x.slots[i]? = some (some m) ∧ x.Becomes c y ∧ m.Becomes c n) ∨
      ∀ x, p.units[u]? = some x → x.slots.length ≤ i := by
  cases hx : p.units[u]? with
  | none => exact .inr nofun
  | some x =>
    obtain ⟨_, hy', bx⟩ := b.unit u x hx
    cases hy.symm.trans hy'
    by_cases lt : i < x.slots.length
    · obtain ⟨m, hm, bm⟩ := bx.slot_inv lt hn
      exact .inl ⟨x, m, rfl, hm, bx, bm⟩
    · refine .inr fun x' hx' => ?_
      cases hx'
      exact Nat.not_lt.mp lt

/-- The invariant of units at a later time: it is to be shown only of what was added. -/
theorem WellNested.becomes {p q : Pads} (h : p.WellNested) {c : UInt32} (b : p.Becomes c q)
    (nested : ∀ (u : Nat) (y : CodeUnit) (o : Nat), p.units[u]? = none → q.units[u]? = some y →
      y.outer = some o → o < u)
    (aliased : ∀ (u : Nat) (y : CodeUnit) (i : Nat) (n : PadName) (k : Nat),
      q.units[u]? = some y → y.slots[i]? = some (some n) → n.outerSlot? = some k →
      (∀ x, p.units[u]? = some x → x.slots.length ≤ i) → q.Aliases y n k) : q.WellNested where
  nested u y o hy ho := by
    cases hx : p.units[u]? with
    | none => exact nested u y o hx hy ho
    | some x =>
      obtain ⟨_, hy', bx⟩ := b.unit u x hx
      cases hy.symm.trans hy'
      exact h.nested u x o hx (bx.outer.symm.trans ho)
  aliased u y i n k hy hn hk := by
    rcases b.slot_cases hy hn with ⟨x, m, hx, hm, bx, bm⟩ | new
    · exact (h.aliased u x i m k hx hm (bm.outerSlot? ▸ hk)).becomes b bx bm
    · exact aliased u y i n k hy hn hk new

/-- The invariant of scopes at a later time. -/
theorem WellScoped.becomes {p q : Pads} (h : p.WellScoped) (b : p.Becomes p.clock q)
    (clock : p.clock ≤ q.clock) (nests : q.WellNested)
    (opened : ∀ (u : Nat) (y : CodeUnit) (o : Nat), p.units[u]? = none → q.units[u]? = some y →
      y.outer = some o → y.outerSequence ≤ q.clock)
    (inForce : ∀ (u : Nat) (y : CodeUnit) (i : Nat) (n : PadName) (k : Nat),
      q.units[u]? = some y → y.slots[i]? = some (some n) → n.outerSlot? = some k →
      (∀ x, p.units[u]? = some x → x.slots.length ≤ i) → q.InForce y n k) : q.WellScoped where
  toWellNested := nests
  opened u y o hy ho := by
    cases hx : p.units[u]? with
    | none => exact opened u y o hx hy ho
    | some x =>
      obtain ⟨_, hy', bx⟩ := b.unit u x hx
      cases hy.symm.trans hy'
      exact bx.outerSequence ▸ (h.opened u x o hx (bx.outer.symm.trans ho)).trans clock
  inForce u y i n k hy hn hk := by
    rcases b.slot_cases hy hn with ⟨x, m, hx, hm, bx, bm⟩ | new
    · have slot := bm.outerSlot? ▸ hk
      have stands := h.aliased u x i m k hx hm slot
      obtain ⟨o, -, -, ho, -⟩ := id stands
      exact (h.inForce u x i m k hx hm slot).becomes stands b bx bm (h.opened u x o hx ho)
    · exact inForce u y i n k hy hn hk new

/-- The pads in which one unit was taken further. -/
theorem becomes_set {p : Pads} {u : Nat} {x y : CodeUnit} {c : UInt32} (hx : p.units[u]? = some x)
    (hy : x.Becomes c y) : p.Becomes c { p with units := p.units.setIfInBounds u y } where
  seed := rfl
  unit _ _ := units_set (R := fun _ x y => x.Becomes c y) hx hy fun _ z => .refl _ z

section
variable {p : Pads} {u : Nat} {x y : CodeUnit} {c : UInt32}

/-- A slot that came to one unit. -/
theorem added_set (hx : p.units[u]? = some x) {v i : Nat} {z : CodeUnit} {n : PadName}
    (hz : (p.units.setIfInBounds u y)[v]? = some z) (hn : z.slots[i]? = some (some n))
    (new : ∀ x, p.units[v]? = some x → x.slots.length ≤ i) :
    v = u ∧ z = y ∧ x.slots.length ≤ i := by
  rcases units_set_cases hz with ⟨rfl, rfl⟩ | hz'
  · exact ⟨rfl, rfl, new x hx⟩
  · exact absurd (List.getElem?_eq_some_iff.mp hn).1 (Nat.not_lt.mpr (new z hz'))

theorem units_set_none {v : Nat} {z : CodeUnit} (hv : p.units[v]? = none) :
    (p.units.setIfInBounds u y)[v]? ≠ some z := by
  intro hz
  have lt := (Array.getElem?_eq_some_iff.mp hz).1
  rw [Array.size_setIfInBounds] at lt
  exact absurd lt (Nat.not_lt.mpr (Array.getElem?_eq_none_iff.mp hv))

theorem WellNested.set (h : p.WellNested) (hx : p.units[u]? = some x) (hy : x.Becomes c y)
    (new : ∀ (i : Nat) (n : PadName) (k : Nat), x.slots.length ≤ i →
      y.slots[i]? = some (some n) → n.outerSlot? = some k →
      Aliases { p with units := p.units.setIfInBounds u y } y n k) :
    WellNested { p with units := p.units.setIfInBounds u y } := by
  refine h.becomes (becomes_set hx hy) (fun v z o hv hz _ => absurd hz (units_set_none hv))
    fun v z i n k hz hn hk old => ?_
  obtain ⟨rfl, rfl, le⟩ := added_set hx hz hn old
  exact new i n k le hn hk

theorem WellScoped.set (h : p.WellScoped) (hx : p.units[u]? = some x) (hy : x.Becomes p.clock y)
    (nests : WellNested { p with units := p.units.setIfInBounds u y })
    (new : ∀ (i : Nat) (n : PadName) (k : Nat), x.slots.length ≤ i →
      y.slots[i]? = some (some n) → n.outerSlot? = some k →
      InForce { p with units := p.units.setIfInBounds u y } y n k) :
    WellScoped { p with units := p.units.setIfInBounds u y } := by
  refine h.becomes (becomes_set hx hy) le_rfl nests
    (fun v z o hv hz _ => absurd hz (units_set_none hv)) fun v z i n k hz hn hk old => ?_
  obtain ⟨rfl, rfl, le⟩ := added_set hx hz hn old
  exact new i n k le hn hk

end

/-! ### Capturing -/

/-- What capturing does to pads: they get slots that stand for outer ones, and stay well nested and
well scoped. -/
structure Captured (p q : Pads) : Prop where
  widens : p.Widens q
  nests : q.WellNested
  scopes : p.WellScoped → q.WellScoped

theorem Captured.refl {p : Pads} (h : p.WellNested) : p.Captured p := ⟨.refl p, h, id⟩

theorem Captured.trans {p q r : Pads} (h : p.Captured q) (h' : q.Captured r) : p.Captured r :=
  ⟨h.widens.trans h'.widens, h'.nests, h'.scopes ∘ h.scopes⟩

section
variable {p q : Pads} {name : Key} {sigil : Sigil} {u i : Nat}

/-- **A slot for an outer one.**  When slot `slot` of the unit around `u` answers to the name,
and is the one in force if it is that unit's own, `standIn` gives a slot of `u` that stands for
it, and every slot there was stays. -/
theorem WellNested.standIn (h : p.WellNested) {o slot : Nat} {x y : CodeUnit} {m : PadName}
    (hx : p.units[u]? = some x) (ho : x.outer = some o) (hy : p.units[o]? = some y)
    (hm : y.slots[slot]? = some (some m)) (am : m.answersTo name sigil = true)
    (own : m.isCaptured = false → y.OwnAt name sigil x.outerSequence slot) :
    ∃ i q z n, p.standIn u o name sigil slot = some (i, q) ∧ p.Captured q ∧
      q.units[u]? = some z ∧ z.slots[i]? = some (some n) ∧
      n.answersTo name sigil = true ∧ n.isCaptured = true := by
  unfold Pads.standIn
  cases hc : x.capturedSlot? name sigil slot with
  | some i =>
    obtain ⟨n, hn, hk, an⟩ := CodeUnit.capturedSlot?_eq_some hc
    exact ⟨i, p, x, n, by simp [hx, hy, hm, hc], .refl h, hx, hn, an,
      PadName.isCaptured_iff.mpr ⟨slot, hk⟩⟩
  | none =>
    -- a new slot at the end of `u`
    have lt : u < p.units.size := (Array.getElem?_eq_some_iff.mp hx).1
    have out : u ≠ o := Nat.ne_of_gt (h.nested u x o hx ho)
    let z : CodeUnit := { x.addSlot (some (m.captured slot)) with captures := true }
    have b (c : UInt32) : x.Becomes c z := CodeUnit.becomes_addSlot _ _ _ _ fun n hn own => by
      obtain rfl : m.captured slot = n := Option.some.inj hn
      cases own
    have around : (p.units.setIfInBounds u z)[o]? = some y := by simp [out, hy]
    have nests := h.set hx (b 0) fun j n k le hn hk => by
      obtain ⟨-, e⟩ := CodeUnit.getElem?_addSlot le hn
      obtain rfl : n = m.captured slot := Option.some.inj e
      obtain rfl : slot = k := Option.some.inj hk
      exact ⟨o, y, m, ho, around, hm, rfl, rfl⟩
    have scopes (h : p.WellScoped) := h.set hx (b p.clock) nests fun j n k le hn hk => by
      obtain ⟨-, e⟩ := CodeUnit.getElem?_addSlot le hn
      obtain rfl : n = m.captured slot := Option.some.inj e
      obtain rfl : slot = k := Option.some.inj hk
      intro o' y' m' ho' hy' hm' own'
      cases ho.symm.trans ho'
      cases around.symm.trans hy'
      cases hm.symm.trans hm'
      exact (CodeUnit.ownAt_name_iff am).mpr (own own')
    exact ⟨x.slots.length, { p with units := p.units.setIfInBounds u z }, z, m.captured slot,
      by simp [hx, hy, hm, hc, z], ⟨⟨rfl, fun c => becomes_set hx (b c)⟩, nests, scopes⟩,
      by simp [lt], by simp [z, CodeUnit.addSlot], am, rfl⟩

/-- The slot of unit `u` stands for an outer one of the name. -/
def StandsIn (p : Pads) (name : Key) (sigil : Sigil) (u i : Nat) : Prop :=
  ∃ x n, p.units[u]? = some x ∧ x.slots[i]? = some (some n) ∧ n.answersTo name sigil = true ∧
    n.isCaptured = true

/-- **Capturing.**  A name that means something around `u` gets a slot of `u` that stands for an
outer one; capturing fails only for a name that means nothing there. -/
theorem WellNested.captureWithin (h : p.WellNested) {levels : Nat} (lt : u < levels) :
    match Pads.captureWithin name sigil levels p u with
    | some (i, q) => p.Captured q ∧ q.StandsIn name sigil u i
    | none => ∀ x o t, p.units[u]? = some x → x.outer = some o →
      ¬ p.Resolves name sigil o x.outerSequence t := by
  -- the units around `u` are earlier, so there are levels enough for them
  induction levels generalizing u with
  | zero => omega
  | succ levels ih =>
    unfold Pads.captureWithin
    cases hx : p.units[u]? with
    | none => simp
    | some x =>
      cases ho : x.outer with
      | none =>
        simp only [ho, Option.bind_eq_bind, Option.bind_some, Option.bind_none]
        intro x' o t hx' ho'
        obtain rfl := Option.some.inj hx'
        rw [ho] at ho'
        cases ho'
      | some o =>
        have out := h.nested u x o hx ho
        have lt' : o < p.units.size := by
          have := (Array.getElem?_eq_some_iff.mp hx).1
          omega
        have hy := Array.getElem?_eq_getElem lt'
        generalize p.units[o] = y at hy
        simp only [ho, hy, Option.bind_eq_bind, Option.bind_some]
        cases hv : y.visibleSlot? name sigil x.outerSequence with
        | some slot =>
          -- the next unit has a slot to stand for
          obtain ⟨⟨m, hm, am, -⟩, -⟩ := CodeUnit.visibleSlot?_eq_some_iff.mp hv
          obtain ⟨i, q, z, n, e, captured, hz, hn, an, cn⟩ := h.standIn hx ho hy hm am
            (CodeUnit.ownAt_of_visibleSlot? hv hm)
          simp only [e]
          exact ⟨captured, z, n, hz, hn, an, cn⟩
        | none =>
          -- the next unit captures first
          have ih := ih (u := o) (by omega)
          cases hc : Pads.captureWithin name sigil levels p o with
          | none =>
            rw [hc] at ih
            simp only [Option.bind_none]
            rintro x' o' t hx' ho' r
            obtain rfl := Option.some.inj hx'
            obtain rfl := Option.some.inj (ho.symm.trans ho')
            cases r with
            | own hy' own =>
              obtain rfl := Option.some.inj (hy.symm.trans hy')
              exact CodeUnit.visibleSlot?_eq_none_iff.mp hv _ own.1.shows
            | outer hy' _ ho'' r => exact ih _ _ _ hy' ho'' r
          | some found =>
            obtain ⟨slot, p'⟩ := found
            rw [hc] at ih
            obtain ⟨inner, y', m, hy', hm, am, cm⟩ := ih
            obtain ⟨x', hx', bx⟩ := (inner.widens.becomes 0).unit u x hx
            obtain ⟨i, q, z, n, e, captured, hz, hn, an, cn⟩ := inner.nests.standIn hx'
              (bx.outer.trans ho) hy' hm am fun own => by rw [cm] at own; cases own
            simp only [Option.bind_some, e]
            exact ⟨inner.trans captured, z, n, hz, hn, an, cn⟩

theorem WellNested.of_captureWithin (h : p.WellNested) {levels : Nat} (lt : u < levels)
    (e : Pads.captureWithin name sigil levels p u = some (i, q)) :
    p.Captured q ∧ q.StandsIn name sigil u i := by
  have captured := @h.captureWithin _ name sigil _ _ lt
  rwa [e] at captured

/-- Nothing is captured in a unit that does not exist. -/
theorem capture_of_vacant (hx : p.units[u]? = none) (text : String) :
    p.capture u text sigil = none := by
  unfold Pads.capture
  cases p.units.size <;> simp [Pads.captureWithin, hx]

theorem WellNested.capture (h : p.WellNested) (u : Nat) (text : String) (sigil : Sigil) :
    match p.capture u text sigil with
    | some (i, q) => p.Captured q ∧ q.StandsIn (p.keyOf text) sigil u i
    | none => ∀ x o t, p.units[u]? = some x → x.outer = some o →
      ¬ p.Resolves (p.keyOf text) sigil o x.outerSequence t := by
  by_cases lt : u < p.units.size
  · exact h.captureWithin lt
  · have hx : p.units[u]? = none := Array.getElem?_eq_none (by omega)
    simp [capture_of_vacant hx, hx]

end

/-! ### What captures keep -/

section
variable {P : Pads → Prop} {p : Pads} {u o slot levels : Nat} {name : Key} {sigil : Sigil}
  {found : Nat × Pads}

/-- To stand in for an outer slot is to find a slot that does, or to add one. -/
theorem pads_of_standIn (e : p.standIn u o name sigil slot = some found) :
    found.2 = p ∨ ∃ (x : CodeUnit) (m : PadName), p.units[u]? = some x ∧ found.2 = { p with
      units := p.units.setIfInBounds u
        { x.addSlot (some (m.captured slot)) with captures := true } } := by
  unfold Pads.standIn at e
  obtain ⟨x, hx, e⟩ := Option.bind_eq_some_iff.mp e
  obtain ⟨y, -, e⟩ := Option.bind_eq_some_iff.mp e
  obtain ⟨m, -, e⟩ := Option.bind_eq_some_iff.mp e
  dsimp only at e
  split at e <;> cases e
  · exact .inl rfl
  · exact .inr ⟨x, m, hx, rfl⟩

/-- **Capturing** keeps what standing in for an outer slot keeps. -/
theorem captureWithin_keeps
    (stands : ∀ {p : Pads} {u o slot : Nat} {found : Nat × Pads}, P p →
      p.standIn u o name sigil slot = some found → P found.2)
    (h : P p) (e : captureWithin name sigil levels p u = some found) : P found.2 := by
  induction levels generalizing u found with
  | zero => cases e
  | succ levels ih =>
    unfold captureWithin at e
    obtain ⟨x, -, e⟩ := Option.bind_eq_some_iff.mp e
    obtain ⟨o, -, e⟩ := Option.bind_eq_some_iff.mp e
    obtain ⟨y, -, e⟩ := Option.bind_eq_some_iff.mp e
    split at e
    · exact stands h e
    · obtain ⟨captured, here, e⟩ := Option.bind_eq_some_iff.mp e
      exact stands (ih here) e

/-- So does looking a name up. -/
theorem lookup_keeps
    (stands : ∀ {p : Pads} {u o slot : Nat} {name : Key} {found : Nat × Pads}, P p →
      p.standIn u o name sigil slot = some found → P found.2)
    (h : P p) {text : String} (e : p.lookup u text sigil = some found) : P found.2 := by
  unfold Pads.lookup at e
  split at e
  · cases e
    exact h
  · exact captureWithin_keeps stands h e

end

end Pads

end ScriptCore
