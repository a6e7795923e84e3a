import ScriptCore.Proofs.Key.Spelling
import ScriptCore.Proofs.Pad.Clock

/-!
# Pad — leaving a scope

There is no tree of scopes.  What is compiled inside a scope of a unit leaves the names that the
unit had as they were, but for their types (`Inside`): names come at the end, pending ones are
those that came inside, and the scopes that are left inside begin there too.

* `leaveScope_restores`: so, when the scope is left, every name is found where it was found before
  the scope was entered, and the names that were declared inside are closed for good.

This is of names that were not pending, found without a capture in the scope: pending ones are
introduced along with those inside, and a captured slot is never closed.  Prototypes, which are
introduced at the present sequence, come into sight as the clock moves on.
-/

namespace ScriptCore

namespace PadName
variable {c d : UInt32} {n : PadName} {sigil : Sigil} {key : Key} {text : String}

/-- A name without its type. -/
def untyped (n : PadName) : PadName := { n with typeName := none }

/-- A program finds no prototypes. -/
theorem not_isAnonymous (an : n.answersTo key sigil = true)
    (letters : key.letters = (Spelling.ofText text).letters) (spelt : text ≠ "__ANON__") :
    ¬ n.IsAnonymous := by
  intro anonymous
  refine spelt (Spelling.ofText_letters_inj ?_)
  have same := Key.same_iff.mp (answersTo_iff.mp an).2
  exact letters.symm.trans ((congrArg Key.letters same.symm).trans anonymous)

end PadName

namespace CodeUnit
variable {c d : UInt32} {closes : Nat → Prop} {x y z : CodeUnit}

/-- The names of a unit, without their types. -/
def names (x : CodeUnit) : List (Option PadName) := x.slots.map (Option.map PadName.untyped)

/-- No name of the unit is pending. -/
def Settled (x : CodeUnit) : Prop := ∀ o ∈ x.slots, ∀ n ∈ o, n.isPending = false

/-- From a slot on, none of the unit is captured. -/
def OwnFrom (x : CodeUnit) (start : Nat) : Prop :=
  ∀ o ∈ x.slots.drop start, ∀ n ∈ o, n.isCaptured = false

instance (x : CodeUnit) : Decidable x.Settled :=
  inferInstanceAs (Decidable (∀ o ∈ x.slots, ∀ n ∈ o, n.isPending = false))

instance (x : CodeUnit) (start : Nat) : Decidable (x.OwnFrom start) :=
  inferInstanceAs (Decidable (∀ o ∈ x.slots.drop start, ∀ n ∈ o, n.isCaptured = false))

theorem OwnFrom.own {start i : Nat} {n : PadName} (h : x.OwnFrom start) (le : start ≤ i)
    (hn : x.slots[i]? = some (some n)) : n.isCaptured = false := by
  refine h (some n) (List.mem_of_getElem? (i := i - start) ?_) n rfl
  rwa [List.getElem?_drop, Nat.add_sub_cancel' le]

theorem length_names (x : CodeUnit) : x.names.length = x.slots.length := List.length_map ..

theorem getElem?_names (x : CodeUnit) (i : Nat) :
    x.names[i]? = (x.slots[i]?).map (Option.map PadName.untyped) := List.getElem?_map ..

theorem getElem?_names_eq_some_iff {i : Nat} {n : PadName} : x.names[i]? = some (some n) ↔
    ∃ m, x.slots[i]? = some (some m) ∧ m.untyped = n := by
  rw [getElem?_names, Option.map_eq_some_iff]
  constructor
  · rintro ⟨_ | m, hm, e⟩
    · cases e
    · exact ⟨m, hm, Option.some.inj e⟩
  · rintro ⟨m, hm, rfl⟩
    exact ⟨some m, hm, rfl⟩

theorem names_of_prefix (h : x.names <+: y.names) {i : Nat} (lt : i < x.slots.length) :
    y.names[i]? = x.names[i]? := by
  rw [← length_names] at lt
  rw [List.prefix_iff_getElem?.mp h i lt, List.getElem?_eq_getElem lt]

/-- **A directive keeps the names** that a settled unit began with, unless it leaves a scope that
one of them is in. -/
theorem Tick.names (t : y.Tick c d closes z) (settled : x.Settled) (h : x.names <+: y.names)
    (stays : ∀ i, i < x.slots.length → ¬ closes i) : x.names <+: z.names := by
  rw [List.prefix_iff_getElem?]
  intro i lt
  have lt' : i < x.slots.length := x.length_names ▸ lt
  have there : y.names[i]? = x.names[i]? := names_of_prefix h lt'
  rw [← List.getElem?_eq_getElem lt, ← there, getElem?_names, getElem?_names]
  rw [List.getElem?_eq_getElem lt, getElem?_names] at there
  obtain ⟨n, hn, e⟩ := Option.map_eq_some_iff.mp there
  obtain ⟨n', hn', r⟩ := t.old i n hn
  rw [hn, hn']
  cases r with
  | none => rfl
  | @some n n' r =>
    have named : x.names[i]? = some (some n.untyped) := by
      rw [List.getElem?_eq_getElem lt, ← e]
      rfl
    obtain ⟨m, hm, same⟩ := getElem?_names_eq_some_iff.mp named
    have pending : n.isPending = false :=
      (congrArg PadName.isPending same).symm.trans (settled _ (List.mem_of_getElem? hm) m rfl)
    obtain ⟨_, rfl⟩ := r.typed_of_settled pending (stays i lt')
    rfl

/-- What is closed with a scope is captured, or closed for good. -/
theorem closed_of_close {start i : Nat} {n : PadName} (le : start ≤ i)
    (hn : (x.close start c).slots[i]? = some (some n)) :
    ∃ m, x.slots[i]? = some (some m) ∧ n.isCaptured = m.isCaptured ∧
      (n.isCaptured = true ∨ ∃ last, n.closed = some last) := by
  rw [slots_close, Option.map_eq_some_iff] at hn
  obtain ⟨_ | m, hm, e⟩ := hn
  · cases e
  rw [Option.map_some, Option.some.injEq, if_neg (Nat.not_lt.mpr le)] at e
  subst e
  refine ⟨m, hm, (becomes_closeName (c := c) m).isCaptured, ?_⟩
  rcases closeName_cases c m with ⟨same, shut⟩ | ⟨-, -, shut⟩
  · rwa [same]
  · rw [shut]
    exact .inr ⟨c, rfl⟩

end CodeUnit

namespace Pads
open Beside

/-! ### Entering and leaving -/

section
variable {s t : Beside Pads} {u : Nat} {x : CodeUnit} {mark : ScopeMark}

theorem enterScope_eq (hx : s.own.units[u]? = some x) :
    enterScope u s = .ok ⟨u, x.slots.length, x.scopes.length + 1⟩
      { s with own := { s.own with
        units := s.own.units.modify u fun x =>
          { x with scopes := x.scopes ++ [x.slots.length] } } } :=
  bind_ok (unit_eq hx)

/-- A scope that is entered begins after the slots that there are. -/
theorem of_enterScope (h : enterScope u s = .ok mark t) :
    ∃ x, s.own.units[u]? = some x ∧ mark.unit = u ∧ mark.start = x.slots.length := by
  cases hx : s.own.units[u]? with
  | some x =>
    cases (enterScope_eq hx).symm.trans h
    exact ⟨x, rfl, rfl, rfl⟩
  | none => cases (bind_error (unit_missing hx)).symm.trans h

theorem leaveScope_eq (hx : s.own.units[mark.unit]? = some x) :
    leaveScope mark s = .ok () { s with own := { s.own with
      clock := s.own.clock + 1
      units := s.own.units.modify mark.unit fun x =>
        { x with scopes := x.scopes.take (mark.depth - 1) }.close mark.start s.own.clock } } := by
  have found : discard (unit mark.unit) s = .ok () s := bind_ok (unit_eq hx)
  exact bind_ok found

/-- The state in which a scope was entered. -/
theorem after_enterScope (h : enterScope u s = .ok mark t) :
    after (Directive.enterScope u).perform s = t := by
  have e : (Directive.enterScope u).perform s = .ok () t := bind_ok h
  unfold after
  rw [e]

/-- The state in which a scope was left. -/
theorem after_leaveScope (h : leaveScope mark s = .ok () t) :
    after (Directive.leaveScope mark).perform s = t := by
  have e : (Directive.leaveScope mark).perform s = .ok () t := h
  unfold after
  rw [e]

end

/-! ### Inside a scope -/

/-- What is compiled inside a scope of a unit, from one state to another: the scopes of the unit
that are left were entered inside.  They may be entered and never left. -/
inductive Within (u : Nat) : List Directive → Beside Pads → Beside Pads → Prop
  | done (s : Beside Pads) : Within u [] s s
  | step {s t : Beside Pads} {d : Directive} {ds : List Directive} :
    (∀ mark, d = .leaveScope mark → mark.unit ≠ u) → Within u ds (after d.perform s) t →
    Within u (d :: ds) s t
  | scope {s s₁ s₂ s₃ t : Beside Pads} {mark : ScopeMark} {ds ds' : List Directive} :
    enterScope u s = .ok mark s₁ → Within u ds s₁ s₂ → leaveScope mark s₂ = .ok () s₃ →
    Within u ds' s₃ t → Within u (.enterScope u :: ds ++ .leaveScope mark :: ds') s t

/-- From `p`, where unit `u` was `x`, one has come to a state in which it still begins with the
names that it had, and the clock may have gone on `m` times. -/
structure Inside (h₀ : Heap) (held : List CellId) (p : Pads) (u : Nat) (x : CodeUnit) (m : Nat)
    (s : Beside Pads) : Prop where
  balanced : Balanced h₀ held s
  timed : s.own.TimedTill m
  clock : m < 2 ^ 32 → p.clock ≤ s.own.clock
  seed : s.own.seed = p.seed
  unit : ∃ y, s.own.units[u]? = some y ∧ x.names <+: y.names

section
variable {h₀ : Heap} {held : List CellId} {p : Pads} {s t : Beside Pads} {u : Nat} {x : CodeUnit}
  {mark : ScopeMark} {m : Nat} {ds : List Directive}

/-- One directive. -/
theorem Inside.perform (w : Inside h₀ held p u x m s) (settled : x.Settled) (d : Directive)
    (stays : ∀ mark, d = .leaveScope mark → mark.unit = u → x.slots.length ≤ mark.start) :
    Inside h₀ held p u x (m + d.ticks) (after d.perform s) := by
  have tick := tick_perform w.balanced.kept.sound.ring d
  have scopes := (leads_perform d).after w.timed.toScopedTill (fun _ => id) id
  refine ⟨(keeps_directive d).after w.balanced, w.timed.ticked tick scopes, fun few => ?_,
    tick.seed.trans w.seed, ?_⟩
  · have before := w.clock (Nat.lt_of_le_of_lt (Nat.le_add_right m _) few)
    exact before.trans (tick.clock (w.timed.room few))
  obtain ⟨y, hy, same⟩ := w.unit
  obtain ⟨z, hz, t⟩ := tick.unit u y hy
  refine ⟨z, hz, t.names settled same fun i lt leaves => ?_⟩
  cases d with
  | leaveScope mark =>
    obtain ⟨here, le⟩ := leaves
    exact absurd ((stays mark rfl here).trans le) (Nat.not_le.mpr lt)
  | _ => exact leaves

/-- A scope that is entered begins after the names that there were. -/
theorem Inside.start_le (w : Inside h₀ held p u x m s) (h : enterScope u s = .ok mark t) :
    x.slots.length ≤ mark.start := by
  obtain ⟨y, hy, same⟩ := w.unit
  obtain ⟨y', hy', -, start⟩ := of_enterScope h
  cases hy.symm.trans hy'
  rw [start]
  simpa only [CodeUnit.length_names] using same.length_le

/-- **Inside a scope** the unit keeps the names that it had. -/
theorem Within.inside (h : Within u ds s t) (settled : x.Settled)
    (w : Inside h₀ held p u x m s) : Inside h₀ held p u x (m + ticks ds) t := by
  induction h generalizing m with
  | done => exact w
  | @step s t d ds elsewhere _ ih =>
    rw [ticks_cons, ← Nat.add_assoc]
    exact ih (w.perform settled d fun mark e here => absurd here (elsewhere mark e))
  | @scope s s₁ s₂ s₃ t mark ds ds' enters _ leaves _ inner rest =>
    have start := w.start_le enters
    have entered := w.perform settled (.enterScope u) nofun
    rw [after_enterScope enters] at entered
    have left := (inner entered).perform settled (.leaveScope mark) fun mark' e _ => by
      cases e
      exact start
    rw [after_leaveScope leaves] at left
    have done := rest left
    rwa [List.cons_append, ticks_cons, ticks_append, ticks_cons, ← Nat.add_assoc,
      ← Nat.add_assoc, ← Nat.add_assoc]

/-- **Leaving the scope.**  What came since it was entered is closed, if it is the unit's own. -/
theorem Inside.leave (w : Inside h₀ held p u x m t) (few : m + 1 < 2 ^ 32) (settled : x.Settled)
    (here : mark.unit = u) (start : mark.start = x.slots.length)
    (own : ∀ y ∈ t.own.units[u]?, y.OwnFrom mark.start) :
    ∃ t' z, leaveScope mark t = .ok () t' ∧ Inside h₀ held p u x (m + 1) t' ∧
      t'.own.units[u]? = some z ∧ ∀ i n, mark.start ≤ i → z.slots[i]? = some (some n) →
        n.isCaptured = false ∧ ∃ last, n.closed = some last ∧ last < t'.own.clock := by
  subst here
  obtain ⟨y, hy, same⟩ := w.unit
  have leaves := leaveScope_eq hy
  have left := w.perform settled (.leaveScope mark) fun mark' e _ => by
    cases e
    exact start.ge
  rw [after_leaveScope leaves] at left
  let shut (x : CodeUnit) : CodeUnit :=
    { x with scopes := x.scopes.take (mark.depth - 1) }.close mark.start t.own.clock
  have hz : (t.own.units.modify mark.unit shut)[mark.unit]? = some (shut y) := by
    rw [Array.getElem?_modify, if_pos rfl, hy]
    rfl
  refine ⟨_, _, leaves, left, hz, fun i n le hn => ?_⟩
  obtain ⟨m, hm, captured, shut⟩ := CodeUnit.closed_of_close le hn
  have own : n.isCaptured = false := captured.trans ((own y hy).own le hm)
  obtain ⟨last, shut⟩ := shut.resolve_left (by simp [own])
  exact ⟨own, last, shut, (left.timed.timed few mark.unit i _ n hz hn).closed last shut⟩

end

end Pads

end ScriptCore
