import ScriptCore.Proofs.Pad.Compile

/-!
# Pad — what a name that was looked up stands for

`EndsAt` follows captured slots outwards to the declaration they stand for in the end, and
`Resolves` says what the declarations alone make of a name.

* `lookup_resolves_iff`: in all pads that compiling reaches before the clock comes round, looking
  a name up fails exactly when the name means nothing; else the slot it gives ends at a
  declaration, and that is the one the name means exactly when no slot on the way was `Overlaid`.
* `not_lookup_resolves`: `my $x = $x` in an inner unit overlays.  The slot that the right-hand
  `$x` captured is found before the one declared, also after that was introduced.

A captured slot is visible at every sequence and the last slot wins, so a slot that was captured
after a declaration hides it for good.
-/

namespace ScriptCore.Pads

/-- Slot `i` of unit `u` is a unit's own, or stands for an outer slot that ends at `t`. -/
inductive EndsAt (p : Pads) : Nat → Nat → Nat × Nat → Prop
  | own {u i : Nat} {x : CodeUnit} {n : PadName} : p.units[u]? = some x →
    x.slots[i]? = some (some n) → n.isCaptured = false → EndsAt p u i (u, i)
  | outer {u i o k : Nat} {x : CodeUnit} {n : PadName} {t : Nat × Nat} : p.units[u]? = some x →
    x.slots[i]? = some (some n) → n.outerSlot? = some k → x.outer = some o → EndsAt p o k t →
    EndsAt p u i t

/-- Slot `i` of unit `u`, or a slot it stands for, is captured in a unit that itself declares the
name at the sequence in question. -/
inductive Overlaid (p : Pads) (name : Key) (sigil : Sigil) : Nat → UInt32 → Nat → Prop
  | here {u i j : Nat} {s : UInt32} {x : CodeUnit} {n : PadName} : p.units[u]? = some x →
    x.slots[i]? = some (some n) → n.isCaptured = true → x.OwnAt name sigil s j →
    Overlaid p name sigil u s i
  | outer {u i o k : Nat} {s : UInt32} {x : CodeUnit} {n : PadName} : p.units[u]? = some x →
    x.slots[i]? = some (some n) → n.outerSlot? = some k → x.outer = some o →
    Overlaid p name sigil o x.outerSequence k → Overlaid p name sigil u s i

section
variable {p q : Pads} {name : Key} {sigil : Sigil} {u i : Nat} {s : UInt32} {x : CodeUnit}
  {n : PadName} {t : Nat × Nat}

theorem overlaid_own (hx : p.units[u]? = some x) (hn : x.slots[i]? = some (some n))
    (own : n.isCaptured = false) : ¬ p.Overlaid name sigil u s i := by
  have none := PadName.isCaptured_eq_false.mp own
  rintro (⟨hx', hn', c, -⟩ | ⟨hx', hn', k, -, -⟩) <;>
    obtain rfl := Option.some.inj (hx.symm.trans hx') <;>
    obtain rfl := Option.some.inj (Option.some.inj (hn.symm.trans hn'))
  · rw [own] at c; cases c
  · rw [none] at k; cases k

theorem overlaid_outer_iff {o k : Nat} (hx : p.units[u]? = some x)
    (hn : x.slots[i]? = some (some n)) (hk : n.outerSlot? = some k) (ho : x.outer = some o) :
    p.Overlaid name sigil u s i ↔
      (∃ j, x.OwnAt name sigil s j) ∨ p.Overlaid name sigil o x.outerSequence k := by
  constructor
  · rintro (⟨hx', -, -, own⟩ | ⟨hx', hn', hk', ho', r⟩) <;>
      obtain rfl := Option.some.inj (hx.symm.trans hx')
    · exact .inl ⟨_, own⟩
    · obtain rfl := Option.some.inj (Option.some.inj (hn.symm.trans hn'))
      obtain rfl := Option.some.inj (hk.symm.trans hk')
      obtain rfl := Option.some.inj (ho.symm.trans ho')
      exact .inr r
  · rintro (⟨j, own⟩ | r)
    · exact .here hx hn (PadName.isCaptured_iff.mpr ⟨k, hk⟩) own
    · exact .outer hx hn hk ho r

/-- A captured slot leads to one that is not captured. -/
theorem WellNested.exists_endsAt (h : p.WellNested) (hx : p.units[u]? = some x)
    (hn : x.slots[i]? = some (some n)) : ∃ t, p.EndsAt u i t := by
  -- it stands for one in an earlier unit
  induction u using Nat.strongRecOn generalizing x n i with
  | _ u ih =>
    cases cn : n.isCaptured with
    | false => exact ⟨_, .own hx hn cn⟩
    | true =>
      obtain ⟨k, hk⟩ := PadName.isCaptured_iff.mp cn
      obtain ⟨o, y, m, ho, hy, hm, -⟩ := h.aliased u x i n k hx hn hk
      obtain ⟨t, ends⟩ := ih o (h.nested u x o hx ho) hy hm
      exact ⟨t, .outer hx hn hk ho ends⟩

/-- **Where a slot ends.**  A slot that answers to a name, captured or the one in force, ends at a
declaration no further in than itself; the name means something; and it means that declaration
exactly when no slot on the way is overlaid. -/
theorem WellScoped.exists_endsAt (h : p.WellScoped) (hx : p.units[u]? = some x)
    (hn : x.slots[i]? = some (some n)) (an : n.answersTo name sigil = true)
    (force : n.isCaptured = true ∨ x.OwnAt name sigil s i) :
    ∃ t, p.EndsAt u i t ∧ t.1 ≤ u ∧ (∃ r, p.Resolves name sigil u s r) ∧
      (p.Resolves name sigil u s t ↔ ¬ p.Overlaid name sigil u s i) := by
  -- a captured slot stands for one in an earlier unit
  induction u using Nat.strongRecOn generalizing x n i s with
  | _ u ih =>
    cases cn : n.isCaptured with
    | false =>
      have own := force.resolve_left (by simp [cn])
      refine ⟨(u, i), .own hx hn cn, le_rfl, ⟨_, .own hx own⟩, ?_⟩
      simp only [resolves_own_iff hx own, overlaid_own hx hn cn, not_false_eq_true]
    | true =>
      obtain ⟨k, hk⟩ := PadName.isCaptured_iff.mp cn
      obtain ⟨o, y, m, ho, hy, hm, name_eq, sigil_eq⟩ := h.aliased u x i n k hx hn hk
      have own := h.inForce u x i n k hx hn hk o y m ho hy hm
      have lt := h.nested u x o hx ho
      have am : m.answersTo name sigil = true := by
        rw [PadName.answersTo_iff] at an ⊢
        rwa [name_eq, sigil_eq]
      have force : m.isCaptured = true ∨ y.OwnAt name sigil x.outerSequence k := by
        cases cm : m.isCaptured with
        | true => exact .inl rfl
        | false => exact .inr ((CodeUnit.ownAt_name_iff an).mp (own cm))
      obtain ⟨t, ends, le, ⟨r, hr⟩, iff⟩ := ih o lt hy hm am force
      refine ⟨t, .outer hx hn hk ho ends, le.trans lt.le, ?_⟩
      rw [overlaid_outer_iff hx hn hk ho]
      by_cases declared : ∃ j, x.OwnAt name sigil s j
      · obtain ⟨j, own⟩ := declared
        refine ⟨⟨_, .own hx own⟩, ?_⟩
        rw [resolves_own_iff hx own]
        refine iff_of_false ?_ (not_not_intro (.inl ⟨j, own⟩))
        rintro rfl
        exact absurd le (Nat.not_le.mpr lt)
      · have none : ∀ j, ¬ x.OwnAt name sigil s j := fun j own => declared ⟨j, own⟩
        refine ⟨⟨r, .outer hx none ho hr⟩, ?_⟩
        rw [resolves_outer_iff hx none ho, iff, or_iff_right declared]

/-- What a name means at a sequence that has passed stays. -/
theorem WellScoped.resolves_becomes_iff (h : p.WellScoped) (b : p.Becomes p.clock q)
    (hs : s ≤ p.clock) (hx : p.units[u]? = some x) :
    q.Resolves name sigil u s t ↔ p.Resolves name sigil u s t := by
  induction u using Nat.strongRecOn generalizing x s with
  | _ u ih =>
    obtain ⟨y, hy, bx⟩ := b.unit u x hx
    by_cases declared : ∃ j, x.OwnAt name sigil s j
    · obtain ⟨j, own⟩ := declared
      rw [resolves_own_iff hx own, resolves_own_iff hy ((bx.ownAt_iff hs).mpr own)]
    · have none : ∀ j, ¬ x.OwnAt name sigil s j := fun j own => declared ⟨j, own⟩
      have none' : ∀ j, ¬ y.OwnAt name sigil s j := fun j own =>
        none j ((bx.ownAt_iff hs).mp own)
      cases ho : x.outer with
      | none =>
        refine iff_of_false ?_ ?_
        · rintro (⟨hy', own⟩ | ⟨hy', -, ho', -⟩) <;>
            obtain rfl := Option.some.inj (hy.symm.trans hy')
          · exact none' _ own
          · rw [bx.outer, ho] at ho'; cases ho'
        · rintro (⟨hx', own⟩ | ⟨hx', -, ho', -⟩) <;>
            obtain rfl := Option.some.inj (hx.symm.trans hx')
          · exact none _ own
          · rw [ho] at ho'; cases ho'
      | some o =>
        have lt := h.nested u x o hx ho
        have le := h.opened u x o hx ho
        have lt' : o < p.units.size := lt.trans (Array.getElem?_eq_some_iff.mp hx).1
        rw [resolves_outer_iff hx none ho, resolves_outer_iff hy none' (bx.outer.trans ho),
          bx.outerSequence]
        exact ih o lt le (Array.getElem?_eq_getElem lt')

theorem WellScoped.lookup_resolves (h : p.WellScoped) (u : Nat) (text : String) (sigil : Sigil) :
    match p.lookup u text sigil with
    | none => ∀ t, ¬ p.Resolves (p.keyOf text) sigil u p.clock t
    | some (i, q) => ∃ t, q.EndsAt u i t ∧
      (∃ r, p.Resolves (p.keyOf text) sigil u p.clock r) ∧
      (p.Resolves (p.keyOf text) sigil u p.clock t ↔
        ¬ q.Overlaid (p.keyOf text) sigil u p.clock i) := by
  unfold Pads.lookup find findAt
  cases hv : p.units[u]?.bind (·.visibleSlot? (p.keyOf text) sigil p.clock) with
  | some i =>
    obtain ⟨x, hx, hv⟩ := Option.bind_eq_some_iff.mp hv
    obtain ⟨⟨n, hn, an, -⟩, -⟩ := CodeUnit.visibleSlot?_eq_some_iff.mp hv
    have force : n.isCaptured = true ∨ x.OwnAt (p.keyOf text) sigil p.clock i := by
      cases cn : n.isCaptured with
      | true => exact .inl rfl
      | false => exact .inr (CodeUnit.ownAt_of_visibleSlot? hv hn cn)
    obtain ⟨t, ends, -, r⟩ := h.exists_endsAt hx hn an force
    exact ⟨t, ends, r⟩
  | none =>
    have hc := h.capture u text sigil
    cases e : p.capture u text sigil with
    | some found =>
      obtain ⟨i, q⟩ := found
      rw [e] at hc
      obtain ⟨captured, y, n, hy, hn, an, cn⟩ := hc
      obtain ⟨t, ends, -, r⟩ := (captured.scopes h).exists_endsAt (s := p.clock) hy hn an (.inl cn)
      have lt : u < p.units.size := by
        by_contra le
        rw [capture_of_vacant (Array.getElem?_eq_none (by omega))] at e
        cases e
      have iff : ∀ t, q.Resolves (p.keyOf text) sigil u p.clock t ↔
          p.Resolves (p.keyOf text) sigil u p.clock t := fun t =>
        h.resolves_becomes_iff (captured.widens.becomes _) le_rfl (Array.getElem?_eq_getElem lt)
      simp only [iff] at r
      exact ⟨t, ends, r⟩
    | none =>
      rw [e] at hc
      rintro t (⟨hx, own⟩ | ⟨hx, -, ho, r⟩)
      · rw [hx, Option.bind_some] at hv
        exact CodeUnit.visibleSlot?_eq_none_iff.mp hv _ own.1.shows
      · exact hc _ _ _ hx ho r

end

/-- **What a name that was looked up stands for.**  In all pads that compiling reaches before the
clock comes round, looking up fails exactly for a name that means nothing.  Else the slot it gives
ends at a declaration, and this is the one the name means exactly when no slot on the way is
overlaid. -/
theorem lookup_resolves_iff (heap : Heap) (pool : Nat) (ds : List Directive)
    (rare : ticks ds + 1 < 2 ^ 32) (u : Nat) (text : String) (sigil : Sigil) :
    let p := (compile ds ⟨heap, inPool heap.ring pool⟩).own
    match p.lookup u text sigil with
    | none => ∀ t, ¬ p.Resolves (p.keyOf text) sigil u p.clock t
    | some (i, q) => ∃ t, q.EndsAt u i t ∧
      (∃ r, p.Resolves (p.keyOf text) sigil u p.clock r) ∧
      (p.Resolves (p.keyOf text) sigil u p.clock t ↔
        ¬ q.Overlaid (p.keyOf text) sigil u p.clock i) := by
  have start := scopedTill_inPool heap.ring pool
  have till := scopedTill_compile ds (s := ⟨heap, inPool heap.ring pool⟩) start
  exact (till.scopes (Nat.add_comm .. ▸ rare)).1.lookup_resolves u text sigil

/-- `my $x; sub { my $x = $x; … }`, where the right-hand `$x` is looked up before the inner one is
introduced. -/
def shadowing : List Directive :=
  [.openUnit none none, .declare 0 "x" .scalar .my, .introduce 0, .openUnit none (some 0),
    .declare 1 "x" .scalar .my, .lookup 1 "x" .scalar, .introduce 1]

/-- The slot that is found there ends at some declaration, and the name means something. -/
theorem lookup_shadowing :
    let p := (compile shadowing ⟨{}, inPool {} 0⟩).own
    p.lookup 1 "x" .scalar = some (1, p) ∧ ∃ t, p.EndsAt 1 1 t ∧
      (∃ r, p.Resolves (p.keyOf "x") .scalar 1 p.clock r) ∧
      (p.Resolves (p.keyOf "x") .scalar 1 p.clock t ↔
        ¬ p.Overlaid (p.keyOf "x") .scalar 1 p.clock 1) := by
  have means := lookup_resolves_iff {} 0 shadowing (by decide) 1 "x" .scalar
  generalize e : (compile shadowing ⟨{}, inPool _ 0⟩).own = p at means
  have found : p.lookup 1 "x" .scalar = some (1, p) := by
    subst e
    rfl
  dsimp only at means
  rw [found] at means
  subst e
  exact ⟨found, means⟩

/-- The slot that a lookup gives need not end at what the name means. -/
theorem not_lookup_resolves :
    ¬ ∀ (heap : Heap) (pool : Nat) (ds : List Directive) (u : Nat) (text : String) (sigil : Sigil),
      let p := (compile ds ⟨heap, inPool heap.ring pool⟩).own
      match p.lookup u text sigil with
      | none => ∀ t, ¬ p.Resolves (p.keyOf text) sigil u p.clock t
      | some (i, q) => ∃ t, q.EndsAt u i t ∧ p.Resolves (p.keyOf text) sigil u p.clock t := by
  intro h
  have h := h {} 0 shadowing 1 "x" .scalar
  generalize e : (compile shadowing ⟨{}, inPool _ 0⟩).own = p at h
  obtain ⟨y, hy, hyo⟩ : ∃ y, p.units[0]? = some y ∧ y.outer = none := by
    subst e
    exact ⟨_, rfl, rfl⟩
  obtain ⟨x, n, m, hx, hxo, hs, own, an, at', captured⟩ : ∃ x n m, p.units[1]? = some x ∧
      x.outer = some 0 ∧ x.slots = [some n, some m] ∧ n.isCaptured = false ∧
      n.answersTo (p.keyOf "x") .scalar = true ∧
      (n.introduced = some 2 ∧ n.closed = none ∧ p.clock = 3) ∧ m.isCaptured = true := by
    subst e
    exact ⟨_, _, _, rfl, rfl, rfl, rfl, rfl, ⟨rfl, rfl, rfl⟩, rfl⟩
  have ownAt : x.OwnAt (p.keyOf "x") .scalar p.clock 0 := by
    obtain ⟨hi, hc, clock⟩ := at'
    refine ⟨⟨n, by simp [hs], own, an, 2, hi, by rw [clock]; decide, by simp [hc]⟩, ?_⟩
    rintro j ⟨k, hk, own, -⟩
    match j with
    | 0 => rfl
    | 1 =>
      obtain rfl : m = k := by simpa [hs] using hk
      rw [captured] at own
      cases own
    | j + 2 => simp [hs] at hk
  have found : p.lookup 1 "x" .scalar = some (1, p) := by
    subst e
    rfl
  dsimp only at h
  rw [found] at h
  obtain ⟨t, ends, means⟩ := h
  -- the name means slot 0 of the inner unit, and slot 1 leads out of it
  obtain rfl := (resolves_own_iff hx ownAt).mp means
  cases ends with
  | outer hx' _ _ ho ends =>
    obtain rfl := Option.some.inj (hx.symm.trans hx')
    obtain rfl := Option.some.inj (hxo.symm.trans ho)
    cases ends with
    | outer hy' _ _ ho' _ =>
      obtain rfl := Option.some.inj (hy.symm.trans hy')
      rw [hyo] at ho'
      cases ho'

end ScriptCore.Pads
