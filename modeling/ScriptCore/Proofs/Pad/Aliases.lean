import ScriptCore.Proofs.Pad.Directives
import ScriptCore.Proofs.Pad.Resolution

/-!
# Pad — slots that stand for outer ones

What is true of captured slots in all pads that compiling reaches (`Captures`), and what stays so
when more is compiled (`Persists`).

* `WellNested.capture_again`: to capture a name again gives the same slot and adds none.  The first
  capture adds a slot to every unit between the name and the one that asks; the second finds the
  slot of the unit next to that one and goes no further.
* `compile_captures`: captured slots are well formed at any time, and stay what they are.
-/

namespace ScriptCore

/-- The mark of a unit tells whether it has captured slots, and no two of them stand for the same
slot under the same name. -/
structure CodeUnit.TellsCaptures (x : CodeUnit) : Prop where
  mark : x.captures = true ↔
    ∃ (i : Nat) (n : PadName), x.slots[i]? = some (some n) ∧ n.isCaptured = true
  distinct : ∀ (i j : Nat) (n m : PadName) (k : Nat), x.slots[i]? = some (some n) →
    x.slots[j]? = some (some m) → n.outerSlot? = some k → m.outerSlot? = some k →
    n.name.same m.name = true → n.sigil = m.sigil → i = j

/-- What is true of captured slots.  Each stands for a slot of the enclosing unit under the same
name and leads to one that is not captured; the marks of units tell of them; there are no two of a
kind; and to capture a name again at once gives the same slot and changes nothing. -/
structure Pads.Captures (p : Pads) : Prop where
  aliased : ∀ (u : Nat) (x : CodeUnit) (i : Nat) (n : PadName) (k : Nat),
    p.units[u]? = some x → x.slots[i]? = some (some n) → n.outerSlot? = some k →
    ∃ o y m, x.outer = some o ∧ p.units[o]? = some y ∧ y.slots[k]? = some (some m) ∧
      m.name = n.name ∧ m.sigil = n.sigil
  ends : ∀ (u : Nat) (x : CodeUnit) (i : Nat) (n : PadName), p.units[u]? = some x →
    x.slots[i]? = some (some n) → n.isCaptured = true → ∃ t, p.EndsAt u i t
  tells : ∀ (u : Nat) (x : CodeUnit), p.units[u]? = some x → x.TellsCaptures
  again : ∀ (u : Nat) (text : String) (sigil : Sigil) (i : Nat) (q : Pads),
    p.capture u text sigil = some (i, q) → q.capture u text sigil = some (i, q)

namespace CodeUnit
variable {x y : CodeUnit} {n : Option PadName} {m : PadName} {name : Key} {sigil : Sigil}
  {slot i : Nat}

/-! ### One unit -/

theorem TellsCaptures.empty (slots : x.slots = []) (captures : x.captures = false) :
    x.TellsCaptures := by
  refine ⟨?_, fun i j n m k hn => ?_⟩
  · rw [captures]
    refine ⟨nofun, ?_⟩
    rintro ⟨i, n, hn, -⟩
    rw [slots] at hn
    cases hn
  · rw [slots] at hn
    cases hn

theorem TellsCaptures.redeclared (t : x.TellsCaptures) (same : x.Redeclares y) :
    y.TellsCaptures := by
  refine ⟨?_, fun i j n m k hn hm hk hk' name sigil => ?_⟩
  · rw [same.captures, t.mark]
    constructor
    · rintro ⟨i, n, hn, captured⟩
      obtain ⟨n', hn', alike⟩ := same.toPersists.slot hn
      exact ⟨i, n', hn', alike.isCaptured.trans captured⟩
    · rintro ⟨i, n', hn', captured⟩
      obtain ⟨n, hn, alike⟩ := same.slot_inv hn'
      exact ⟨i, n, hn, alike.isCaptured.symm.trans captured⟩
  · obtain ⟨n', hn', alike⟩ := same.slot_inv hn
    obtain ⟨m', hm', alike'⟩ := same.slot_inv hm
    refine t.distinct i j n' m' k hn' hm' (alike.outerSlot? ▸ hk) (alike'.outerSlot? ▸ hk') ?_ ?_
    · rwa [← alike.name, ← alike'.name]
    · rwa [← alike.sigil, ← alike'.sigil]

theorem TellsCaptures.addSlot (t : x.TellsCaptures) (own : PadName.IsOwn n) :
    (x.addSlot n).TellsCaptures := by
  -- the new slot is not captured
  have old {i : Nat} {m : PadName} (hm : (x.addSlot n).slots[i]? = some (some m))
      (captured : m.isCaptured = true) : x.slots[i]? = some (some m) := by
    refine (getElem?_addSlot_iff.mp hm).resolve_right ?_
    rintro ⟨-, e⟩
    rw [(own m e.symm).1] at captured
    cases captured
  refine ⟨?_, fun i j n m k hn hm hk hk' => ?_⟩
  · show x.captures = true ↔ _
    rw [t.mark]
    constructor
    · rintro ⟨i, m, hm, captured⟩
      exact ⟨i, m, getElem?_addSlot_iff.mpr (.inl hm), captured⟩
    · rintro ⟨i, m, hm, captured⟩
      exact ⟨i, m, old hm captured, captured⟩
  · exact t.distinct i j n m k (old hn (PadName.isCaptured_iff.mpr ⟨k, hk⟩))
      (old hm (PadName.isCaptured_iff.mpr ⟨k, hk'⟩)) hk hk'

theorem capturedSlot?_eq_none (absent : x.capturedSlot? name sigil slot = none)
    (hm : x.slots[i]? = some (some m)) (stands : m.outerSlot? = some slot) :
    m.answersTo name sigil = false := by
  have no := List.findIdx?_eq_none_iff.mp absent (some m) (List.mem_of_getElem? hm)
  simpa [stands] using no

/-- A slot that stands for one that none stood for is the only one of its kind. -/
theorem TellsCaptures.standingFor (t : x.TellsCaptures) (an : m.answersTo name sigil = true)
    (absent : x.capturedSlot? name sigil slot = none) :
    (x.standingFor m slot).TellsCaptures := by
  have slots {j : Nat} {a : PadName} (ha : (x.standingFor m slot).slots[j]? = some (some a)) :
      x.slots[j]? = some (some a) ∨ j = x.slots.length ∧ a = m.captured slot := by
    refine (getElem?_addSlot_iff.mp ha).imp_right fun new => ⟨new.1, ?_⟩
    exact Option.some.inj new.2
  -- a slot there was that stands for the same one has another name
  have other {j : Nat} {a : PadName} (ha : x.slots[j]? = some (some a))
      (stands : a.outerSlot? = some slot) (name : a.name.same m.name = true)
      (sigil : a.sigil = m.sigil) : False := by
    have no := capturedSlot?_eq_none absent ha stands
    rw [(PadName.answersTo_name_iff an).mp (PadName.answersTo_iff.mpr ⟨sigil, name⟩)] at no
    cases no
  refine ⟨iff_of_true rfl ⟨x.slots.length, m.captured slot, ?_, rfl⟩, ?_⟩
  · exact getElem?_addSlot_iff.mpr (.inr ⟨rfl, rfl⟩)
  intro i j a b k ha hb hk hk' name sigil
  rcases slots ha with ha | ⟨rfl, rfl⟩ <;> rcases slots hb with hb | ⟨rfl, rfl⟩
  · exact t.distinct i j a b k ha hb hk hk' name sigil
  · cases hk'
    exact (other ha hk name sigil).elim
  · cases hk
    exact (other hb hk' (Key.same_symm name) sigil.symm).elim
  · rfl

end CodeUnit

namespace Pads
open Beside

/-- The marks tell of captured slots whatever is compiled. -/
theorem compiles_tells : Compiles fun p =>
    ∀ (u : Nat) (x : CodeUnit), p.units[u]? = some x → x.TellsCaptures :=
  compiles_units (fun _ => .empty) (fun _ _ => .redeclared) (fun _ _ => .addSlot)
    fun _ _ _ _ _ => .standingFor

/-! ### To capture again -/

section
variable {p q : Pads} {name : Key} {sigil : Sigil} {u o v slot levels i j : Nat} {x y z : CodeUnit}
  {m : PadName}

/-- A slot that stands for an outer one is found if it is there, and added if it is not. -/
theorem standIn_cases (hx : p.units[u]? = some x) (hy : p.units[o]? = some y)
    (hm : y.slots[slot]? = some (some m))
    (e : p.standIn u o name sigil slot = some (i, q)) :
    x.capturedSlot? name sigil slot = some i ∧ q = p ∨
      x.capturedSlot? name sigil slot = none ∧ i = x.slots.length ∧
        q = { p with units := p.units.setIfInBounds u (x.standingFor m slot) } := by
  unfold Pads.standIn at e
  rw [hx, hy] at e
  simp only [Option.bind_eq_bind, Option.bind_some, hm, Option.join_some] at e
  split at e
  · rename_i there
    cases e
    exact .inl ⟨there, rfl⟩
  · rename_i absent
    cases e
    exact .inr ⟨absent, rfl, rfl⟩

/-- The slot that was just found or added is found. -/
theorem standIn_again (apart : u ≠ o) (hx : p.units[u]? = some x) (hy : p.units[o]? = some y)
    (hm : y.slots[slot]? = some (some m)) (an : m.answersTo name sigil = true)
    (e : p.standIn u o name sigil slot = some (i, q)) :
    q.standIn u o name sigil slot = some (i, q) := by
  rcases standIn_cases hx hy hm e with ⟨-, rfl⟩ | ⟨absent, rfl, rfl⟩
  · exact e
  have lt := (Array.getElem?_eq_some_iff.mp hx).1
  have found : (x.standingFor m slot).capturedSlot? name sigil slot = some x.slots.length := by
    unfold CodeUnit.capturedSlot? at absent ⊢
    unfold CodeUnit.standingFor CodeUnit.addSlot
    dsimp only
    rw [List.findIdx?_append, absent]
    have answers : (m.captured slot).answersTo name sigil = true := an
    simp [PadName.captured, PadName.outerSlot?] at answers ⊢
    exact answers
  unfold Pads.standIn
  simp [lt, apart, hy, hm, found]

/-- What capturing leaves of the units: those that come later are as they were, and the one that
asks has the slot that was found, which is its last if it was added. -/
structure Asked (p q : Pads) (u i : Nat) : Prop where
  size : q.units.size = p.units.size
  later : ∀ v, u < v → q.units[v]? = p.units[v]?
  last : ∀ x y, p.units[u]? = some x → q.units[u]? = some y → ∀ j, x.slots.length ≤ j →
    j < y.slots.length → j = i

theorem asked_standIn (hx : p.units[u]? = some x) (hy : p.units[o]? = some y)
    (hm : y.slots[slot]? = some (some m))
    (e : p.standIn u o name sigil slot = some (i, q)) : Asked p q u i := by
  rcases standIn_cases hx hy hm e with ⟨-, rfl⟩ | ⟨-, rfl, rfl⟩
  · refine ⟨rfl, fun _ _ => rfl, fun x y hx hy j le lt => ?_⟩
    cases hx.symm.trans hy
    exact absurd lt (Nat.not_lt.mpr le)
  · refine ⟨Array.size_setIfInBounds .., fun v lt => ?_, fun x' y' hx' hy' j le lt => ?_⟩
    · exact Array.getElem?_setIfInBounds_ne (Nat.ne_of_lt lt)
    · cases hx.symm.trans hx'
      have there : some y' = some (x.standingFor m slot) := by
        rw [← hy']
        exact Array.getElem?_setIfInBounds_self_of_lt (Array.getElem?_eq_some_iff.mp hx).1
      cases there
      have width : (x.standingFor m slot).slots.length = x.slots.length + 1 :=
        List.length_append
      omega

/-- What was captured by the unit around another is left when that one captures it. -/
theorem Asked.standIn {p' : Pads} (a : Asked p p' o slot) (lt : o < u) (a' : Asked p' q u i) :
    Asked p q u i where
  size := a'.size.trans a.size
  later v lt' := (a'.later v lt').trans (a.later v (Nat.lt_trans lt lt'))
  last x' y hx' hy := a'.last x' y (by rw [a.later u lt, hx']) hy

theorem WellNested.asked (nests : p.WellNested) (lt : u < levels)
    (e : Pads.captureWithin name sigil levels p u = some (i, q)) : Asked p q u i := by
  induction levels generalizing u i q with
  | zero => cases e
  | succ levels ih =>
    unfold Pads.captureWithin at e
    obtain ⟨x, hx, e⟩ := Option.bind_eq_some_iff.mp e
    obtain ⟨o, ho, e⟩ := Option.bind_eq_some_iff.mp e
    obtain ⟨y, hy, e⟩ := Option.bind_eq_some_iff.mp e
    have out := nests.nested u x o hx ho
    split at e
    · rename_i slot found
      obtain ⟨⟨m, hm, -, -⟩, -⟩ := CodeUnit.visibleSlot?_eq_some_iff.mp found
      exact asked_standIn hx hy hm e
    · obtain ⟨⟨slot, p'⟩, here, e⟩ := Option.bind_eq_some_iff.mp e
      obtain ⟨-, y', m, hy', hm, -, -⟩ := nests.of_captureWithin (by omega) here
      have asked := ih (by omega) here
      exact asked.standIn out (asked_standIn ((asked.later u out).trans hx) hy' hm e)

/-- A captured slot shows at any sequence, and those that showed before come earlier. -/
theorem visibleSlot?_of_captured {s : UInt32} (hx : p.units[u]? = some x) (w : p.Widens q)
    (none : x.visibleSlot? name sigil s = none) (asked : Asked p q u i)
    (hy : q.units[u]? = some y) (stands : q.StandsIn name sigil u i) :
    y.visibleSlot? name sigil s = some i := by
  obtain ⟨_, n, hy', hn, an, captured⟩ := stands
  cases hy.symm.trans hy'
  obtain ⟨_, hy'', becomes⟩ := (w.becomes s).unit u x hx
  cases hy.symm.trans hy''
  refine CodeUnit.visibleSlot?_eq_some_iff.mpr ⟨⟨n, hn, an, .inl captured⟩, ?_⟩
  rintro j ⟨n', hn', an', shows⟩
  by_cases old : j < x.slots.length
  · -- it would have been found before
    obtain ⟨n₀, hn₀, bn⟩ := becomes.slot_inv old hn'
    refine absurd ⟨n₀, hn₀, ?_, ?_⟩ (CodeUnit.visibleSlot?_eq_none_iff.mp none j)
    · rwa [← bn.answersTo]
    · rwa [← bn.isCaptured, ← bn.declared s le_rfl]
  · exact Nat.le_of_eq (asked.last x y hx hy j (Nat.not_lt.mp old)
      (List.getElem?_eq_some_iff.mp hn').1)

/-- A unit that finds the slot in the unit around it goes no further. -/
theorem captureWithin_near (hx : q.units[u]? = some x) (ho : x.outer = some o)
    (hy : q.units[o]? = some y)
    (near : y.visibleSlot? name sigil x.outerSequence = some slot) :
    Pads.captureWithin name sigil (levels + 1) q u = q.standIn u o name sigil slot := by
  unfold Pads.captureWithin
  simp [hx, ho, hy, near]

/-- What stands for a slot that shows in the unit around is what capturing gives then. -/
theorem captureWithin_of_standIn (apart : u ≠ o) (hx : p.units[u]? = some x)
    (ho : x.outer = some o) (hy : p.units[o]? = some y)
    (near : y.visibleSlot? name sigil x.outerSequence = some slot)
    (e : p.standIn u o name sigil slot = some (i, q)) :
    Pads.captureWithin name sigil (levels + 1) q u = some (i, q) := by
  obtain ⟨⟨m, hm, an, -⟩, -⟩ := CodeUnit.visibleSlot?_eq_some_iff.mp near
  rw [← standIn_again apart hx hy hm an e]
  rcases standIn_cases hx hy hm e with ⟨-, rfl⟩ | ⟨-, -, rfl⟩
  · exact captureWithin_near hx ho hy near
  · refine captureWithin_near (x := x.standingFor m slot) ?_ ho ?_ near
    · exact Array.getElem?_setIfInBounds_self_of_lt (Array.getElem?_eq_some_iff.mp hx).1
    · rwa [Array.getElem?_setIfInBounds_ne apart]

theorem WellNested.captureWithin_again (nests : p.WellNested) (lt : u < levels)
    (e : Pads.captureWithin name sigil levels p u = some (i, q)) :
    Pads.captureWithin name sigil levels q u = some (i, q) := by
  cases levels with
  | zero => cases e
  | succ levels =>
    unfold Pads.captureWithin at e
    obtain ⟨x, hx, e⟩ := Option.bind_eq_some_iff.mp e
    obtain ⟨o, ho, e⟩ := Option.bind_eq_some_iff.mp e
    obtain ⟨y, hy, e⟩ := Option.bind_eq_some_iff.mp e
    have out := nests.nested u x o hx ho
    have inner : o < levels := by omega
    split at e
    · rename_i slot near
      exact captureWithin_of_standIn (Nat.ne_of_gt out) hx ho hy near e
    · -- the unit around had to capture the name first, and shows it now
      rename_i absent
      obtain ⟨⟨slot, p'⟩, here, e⟩ := Option.bind_eq_some_iff.mp e
      obtain ⟨captured, stands⟩ := nests.of_captureWithin inner here
      have asked := nests.asked inner here
      obtain ⟨y', -, hy', -⟩ := id stands
      have near := visibleSlot?_of_captured hy captured.widens absent asked hy' stands
      exact captureWithin_of_standIn (Nat.ne_of_gt out) ((asked.later u out).trans hx) ho hy' near e

/-- **To capture a name again** gives the same slot and changes nothing. -/
theorem WellNested.capture_again (nests : p.WellNested) {text : String}
    (e : p.capture u text sigil = some (i, q)) : q.capture u text sigil = some (i, q) := by
  by_cases lt : u < p.units.size
  · have captured := nests.capture u text sigil
    rw [e] at captured
    have again := nests.captureWithin_again lt e
    have same : q.keyOf text = p.keyOf text := by
      unfold keyOf
      rw [(captured.1.widens.becomes 0).seed]
    unfold Pads.capture
    rwa [same, (nests.asked lt e).size]
  · rw [capture_of_vacant (Array.getElem?_eq_none (Nat.not_lt.mp lt))] at e
    cases e

end

/-! ### All that compiling reaches -/

theorem WellNested.captures {p : Pads} (nests : p.WellNested)
    (tells : ∀ (u : Nat) (x : CodeUnit), p.units[u]? = some x → x.TellsCaptures) :
    p.Captures where
  aliased := nests.aliased
  ends _ _ _ _ hx hn _ := nests.exists_endsAt hx hn
  tells := tells
  again _ _ _ _ _ := nests.capture_again

/-- **Captured slots** are well formed in all pads that compiling reaches, and no name of a slot
changes when more is compiled: neither the name itself nor what it stands for. -/
theorem compile_captures (heap : Heap) (pool : Nat) (ds more : List Directive) :
    let s := compile ds ⟨heap, inPool heap.ring pool⟩
    s.own.Captures ∧ s.own.Persists (compile more s).own := by
  intro s
  have start := wellNested_inPool heap.ring pool
  have nests : s.own.WellNested := wellNested_compile ds start
  have tells := compiles_tells.compile ds (s := ⟨heap, inPool heap.ring pool⟩) start nofun
  exact ⟨nests.captures tells, (compiles_persists s.own).compile more nests (.refl _)⟩

end Pads

end ScriptCore
