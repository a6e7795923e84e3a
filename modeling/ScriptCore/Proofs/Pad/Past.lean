import ScriptCore.Proofs.Pad.Clock
import ScriptCore.Proofs.Pad.Resolution

/-!
# Pad — the past of the compile clock

Names are introduced and closed at the present sequence, and visible only after the one and up to
the other.  So nothing that is compiled changes what a unit declares at a sequence that has passed.

* `compile_keeps_past`: at any time of any run, the slots of a unit's own that are visible at a
  sequence up to the present one stay, and so does what a name means around a unit.  Whether the
  name can be captured is settled thereby; what the captured slot ends at is what the name means
  exactly when no slot on the way was `Overlaid`.
* `not_capture_keeps`: slots do get overlaid.  When a unit captures a name of which it declared
  another before, the units inside that one find the captured slot instead from then on.
-/

namespace ScriptCore

/-- A name that is not captured is visible while it is in force. -/
theorem PadName.visibleAt_iff_of_own {n : PadName} {s : UInt32} (own : n.isCaptured = false) :
    n.visibleAt s = true ↔ n.DeclaredAt s := by
  rw [visibleAt_iff, own, or_iff_right Bool.false_ne_true]

namespace CodeUnit
variable {c s : UInt32} {i : Nat} {x y : CodeUnit} {name : Key} {sigil : Sigil}

/-- The slots of a unit's own that are visible at a sequence, with their names. -/
def ownVisible (x : CodeUnit) (sequence : UInt32) : Set (Nat × Key × Sigil) :=
  {e | ∃ n, x.slots[e.1]? = some (some n) ∧ n.isCaptured = false ∧ n.visibleAt sequence = true ∧
    (n.name, n.sigil) = e.2}

/-- **What was visible at a sequence that has passed** stays visible, and nothing comes. -/
theorem Becomes.ownVisible (b : x.Becomes c y) (le : s ≤ c) : y.ownVisible s = x.ownVisible s := by
  ext ⟨i, key⟩
  constructor
  · rintro ⟨n, hn, own, visible, named⟩
    rw [PadName.visibleAt_iff_of_own own] at visible
    by_cases lt : i < x.slots.length
    · obtain ⟨m, hm, same⟩ := b.slot_inv lt hn
      have own' : m.isCaptured = false := same.isCaptured ▸ own
      have before := (same.declared s le).mp visible
      refine ⟨m, hm, own', (PadName.visibleAt_iff_of_own own').mpr before, ?_⟩
      rw [← named, same.name, same.sigil]
    · exact absurd visible (b.added i n (Nat.not_lt.mp lt) hn own s le)
  · rintro ⟨m, hm, own, visible, named⟩
    rw [PadName.visibleAt_iff_of_own own] at visible
    obtain ⟨n, hn, same⟩ := b.slot hm
    have own' : n.isCaptured = false := same.isCaptured.trans own
    have after := (same.declared s le).mpr visible
    refine ⟨n, hn, own', (PadName.visibleAt_iff_of_own own').mpr after, ?_⟩
    rw [← named, same.name, same.sigil]

/-- At the beginning nothing is declared. -/
theorem not_ownAt_zero : ¬ x.OwnAt name sigil 0 i := by
  rintro ⟨⟨n, -, -, -, first, -, lt, -⟩, -⟩
  exact UInt32.not_lt_zero lt

end CodeUnit

namespace Pads
open Beside

section
variable {p q : Pads} {u o : Nat} {x : CodeUnit}

/-- What a name means around a unit stays. -/
theorem WellScoped.resolves_around (h : p.WellScoped) (b : p.Becomes p.clock q)
    (hx : p.units[u]? = some x) (ho : x.outer = some o) (name : Key) (sigil : Sigil)
    (t : Nat × Nat) : q.Resolves name sigil o x.outerSequence t ↔
      p.Resolves name sigil o x.outerSequence t := by
  have lt := h.nested u x o hx ho
  have le := h.opened u x o hx ho
  have lt' : o < p.units.size := lt.trans (Array.getElem?_eq_some_iff.mp hx).1
  exact h.resolves_becomes_iff b le (Array.getElem?_eq_getElem lt')

/-- **What is captured.**  A name is captured exactly if it means something around the unit.  The
slot ends at a declaration, and this is what the name means there exactly when no slot on the way
is overlaid.  At sequence 0 the unit itself declares nothing. -/
theorem WellScoped.capture_resolves (h : p.WellScoped) (hx : p.units[u]? = some x)
    (ho : x.outer = some o) (text : String) (sigil : Sigil) :
    match p.capture u text sigil with
    | none => ∀ t, ¬ p.Resolves (p.keyOf text) sigil o x.outerSequence t
    | some (i, q) => ∃ t, q.EndsAt u i t ∧
      (∃ r, p.Resolves (p.keyOf text) sigil o x.outerSequence r) ∧
      (p.Resolves (p.keyOf text) sigil o x.outerSequence t ↔
        ¬ q.Overlaid (p.keyOf text) sigil u 0 i) := by
  have captured := h.capture u text sigil
  cases e : p.capture u text sigil with
  | none =>
    rw [e] at captured
    exact fun t => captured x o t hx ho
  | some found =>
    obtain ⟨i, q⟩ := found
    rw [e] at captured
    obtain ⟨later, z, n, hz, hn, an, cn⟩ := captured
    have b : p.Becomes p.clock q := later.widens.becomes _
    obtain ⟨t, ends, -, means, iff⟩ :=
      (later.scopes h).exists_endsAt (s := 0) hz hn an (.inl cn)
    -- what the name means to the unit at the beginning is what it means around it
    have around (t : Nat × Nat) : q.Resolves (p.keyOf text) sigil u 0 t ↔
        p.Resolves (p.keyOf text) sigil o x.outerSequence t := by
      obtain ⟨z', hz', later⟩ := b.unit u x hx
      cases hz.symm.trans hz'
      rw [resolves_outer_iff hz (fun _ => CodeUnit.not_ownAt_zero) (later.outer.trans ho),
        later.outerSequence, h.resolves_around b hx ho]
    simp only [around] at means iff
    exact ⟨t, ends, means, iff⟩

/-- **What is captured later** is told by what the name meant before. -/
theorem WellScoped.capture_later (h : p.WellScoped) (h' : q.WellScoped)
    (b : p.Becomes p.clock q)
    (hx : p.units[u]? = some x) (ho : x.outer = some o) (text : String) (sigil : Sigil) :
    match q.capture u text sigil with
    | none => ∀ t, ¬ p.Resolves (p.keyOf text) sigil o x.outerSequence t
    | some (i, r) => ∃ t, r.EndsAt u i t ∧
      (∃ m, p.Resolves (p.keyOf text) sigil o x.outerSequence m) ∧
      (p.Resolves (p.keyOf text) sigil o x.outerSequence t ↔
        ¬ r.Overlaid (p.keyOf text) sigil u 0 i) := by
  obtain ⟨y, hy, later⟩ := b.unit u x hx
  have keyOf : q.keyOf text = p.keyOf text := by rw [Pads.keyOf, Pads.keyOf, b.seed]
  have captured := h'.capture_resolves hy (later.outer.trans ho) text sigil
  rw [keyOf, later.outerSequence] at captured
  simpa only [h.resolves_around b hx ho] using captured

end

/-- **The past of the compile clock is fixed**, until the clock comes round.  At any time of any
run, whatever is compiled next, the slots of a unit's own that are visible at a sequence up to the
present one are the same.  What a name means around the unit stays as well.  The unit captures the
name afterwards exactly if it means something there, and what it gets ends at that exactly when no
slot on the way is overlaid. -/
theorem compile_keeps_past (seeds : Array Seed) (supply : Supply) (pool : Nat) (ops : List Op)
    (ds : List Directive) (rare : 1 + opTicks ops + ticks ds < 2 ^ 32) :
    let p := (reached seeds supply pool ops).own
    let q := (compile ds (reached seeds supply pool ops)).own
    ∀ u x, p.units[u]? = some x → ∃ y, q.units[u]? = some y ∧ y.outer = x.outer ∧
      y.outerSequence = x.outerSequence ∧ (∀ s ≤ p.clock, y.ownVisible s = x.ownVisible s) ∧
      ∀ o, x.outer = some o → ∀ text sigil,
        (∀ t, q.Resolves (p.keyOf text) sigil o x.outerSequence t ↔
          p.Resolves (p.keyOf text) sigil o x.outerSequence t) ∧
        match q.capture u text sigil with
        | none => ∀ t, ¬ p.Resolves (p.keyOf text) sigil o x.outerSequence t
        | some (i, r) => ∃ t, r.EndsAt u i t ∧
          (∃ m, p.Resolves (p.keyOf text) sigil o x.outerSequence m) ∧
          (p.Resolves (p.keyOf text) sigil o x.outerSequence t ↔
            ¬ r.Overlaid (p.keyOf text) sigil u 0 i) := by
  have balanced := (balanced_start seeds supply pool).run ops
  change Balanced _ _ (reached seeds supply pool ops) at balanced
  have till := (timed_reached seeds supply pool ops).toScopedTill
  generalize reached seeds supply pool ops = s at *
  intro p q u x hx
  have scopes : p.WellScoped :=
    (till.scopes (Nat.lt_of_le_of_lt (Nat.le_add_right _ _) rare)).1
  have later : q.WellScoped := ((scopedTill_compile ds till).scopes rare).1
  have becomes : p.Becomes p.clock q := balanced.becomes_compile till ds rare
  obtain ⟨y, hy, b⟩ := becomes.unit u x hx
  refine ⟨y, hy, b.outer, b.outerSequence, fun s le => b.ownVisible le, fun o ho text sigil => ?_⟩
  exact ⟨scopes.resolves_around becomes hx ho _ sigil,
    scopes.capture_later later becomes hx ho text sigil⟩

/-! ### Captures that change -/

/-- The declaration that a slot ends at, at most `levels` units out. -/
def endsAt? (p : Pads) : Nat → Nat → Nat → Option (Nat × Nat)
  | 0, _, _ => none
  | levels + 1, u, i => do
    let x ← p.units[u]?
    let n ← x.slots[i]?.join
    match n.outerSlot? with
    | none => return (u, i)
    | some k => endsAt? p levels (← x.outer) k

theorem endsAt_of_endsAt? {p : Pads} {levels u i : Nat} {t : Nat × Nat}
    (h : p.endsAt? levels u i = some t) : p.EndsAt u i t := by
  induction levels generalizing u i with
  | zero => cases h
  | succ levels ih =>
    unfold endsAt? at h
    obtain ⟨x, hx, h⟩ := Option.bind_eq_some_iff.mp h
    obtain ⟨n, hn, h⟩ := Option.bind_eq_some_iff.mp h
    rw [Option.join_eq_some_iff] at hn
    split at h
    · rename_i own
      cases h
      exact .own hx hn (PadName.isCaptured_eq_false.mpr own)
    · rename_i k hk
      obtain ⟨o, ho, h⟩ := Option.bind_eq_some_iff.mp h
      exact .outer hx hn hk ho (ih h)

/-- `my $x; sub { { my $x; sub { … } } … }`, up to where the innermost unit was opened. -/
def closing : List Op :=
  [.compile (.openUnit none none), .compile (.declare 0 "x" .scalar .my), .compile (.introduce 0),
    .compile (.openUnit none (some 0)), .compile (.enterScope 1),
    .compile (.declare 1 "x" .scalar .my), .compile (.introduce 1),
    .compile (.openUnit none (some 1))]

/-- Unit 2 captures `$x`; then the scope of the `$x` of unit 1 is left, and unit 1 captures the
outer one. -/
def recapturing : List Directive :=
  [.capture 2 "x" .scalar, .leaveScope ⟨1, 0, 1⟩, .lookup 1 "x" .scalar]

/-- Unit 1 still declares at every sequence that has passed what it declared there. -/
theorem compile_keeps_past_closing : ∃ x y,
    (reached #[] {} 0 closing).own.units[1]? = some x ∧
    (compile recapturing (reached #[] {} 0 closing)).own.units[1]? = some y ∧
    ∀ s ≤ (reached #[] {} 0 closing).own.clock, y.ownVisible s = x.ownVisible s := by
  have there : ((reached #[] {} 0 closing).own.units[1]?).isSome := by decide +kernel
  obtain ⟨x, hx⟩ := Option.isSome_iff_exists.mp there
  obtain ⟨y, hy, -, -, same, -⟩ :=
    compile_keeps_past #[] {} 0 closing recapturing (by decide) 1 x hx
  exact ⟨x, y, hx, hy, same⟩

/-- A name that is captured twice need not end at one declaration: here unit 1 captures the outer
`$x` between, once the scope of its own is left. -/
theorem not_capture_keeps :
    ¬ ∀ (seeds : Array Seed) (supply : Supply) (pool : Nat) (ops : List Op) (ds : List Directive)
      (u : Nat) (text : String) (sigil : Sigil) (i j : Nat) (q r : Pads) (t t' : Nat × Nat),
      (reached seeds supply pool ops).own.capture u text sigil = some (i, q) →
      (compile ds (reached seeds supply pool ops)).own.capture u text sigil = some (j, r) →
      q.EndsAt u i t → r.EndsAt u j t' → t' = t := by
  intro h
  let p := (reached #[] {} 0 closing).own
  let later := (compile recapturing (reached #[] {} 0 closing)).own
  have ends : (p.capture 2 "x" .scalar).bind (fun f => f.2.endsAt? 3 2 f.1) = some (1, 0) := by
    decide +kernel
  have ends' : (later.capture 2 "x" .scalar).bind (fun f => f.2.endsAt? 3 2 f.1) = some (0, 0) := by
    decide +kernel
  obtain ⟨⟨i, q⟩, captured, ends⟩ := Option.bind_eq_some_iff.mp ends
  obtain ⟨⟨j, r⟩, captured', ends'⟩ := Option.bind_eq_some_iff.mp ends'
  have same := h #[] {} 0 closing _ 2 "x" .scalar i j q r (1, 0) (0, 0) captured captured'
    (endsAt_of_endsAt? ends) (endsAt_of_endsAt? ends')
  cases same

end Pads

end ScriptCore
