import ScriptCore.Proofs.Pad.Directives
import ScriptCore.Proofs.Pad.Sweeping

/-!
# Pad — activations from one operation to the next

An activation that is there before and after an operation has the cells that it had (`Abides`),
unless the operation ended the last call on it (`Op.Renews`, `Renewed`).  One that is new sees the
cells of the activation it was made in (`Births`).  `Ages` says so of one operation, and every
operation is like that (`ages_act`, `Balanced.ages`).

What compiling keeps, every run keeps (`Compiles.run`).
-/

namespace ScriptCore

theorem PadName.Same.isPlain {n n' : PadName} (h : n.Same n') : n'.isPlain = n.isPlain := by
  simp [PadName.isPlain, PadName.sharedByFrames, h.isCaptured, h.declarator, h.nested?]

namespace Pads
open Beside

/-- The operation ends the last call on an activation that is no frame. -/
def Op.Renews (p : Pads) (op : Op) (id : ActivationId) : Prop :=
  op = .pop id ∧ ∃ a, p.activation? id = some a ∧ a.base = none ∧ a.depth ≤ 1

/-- The activation has the cells it had, in slots of the same names. -/
structure Abides (p q : Pads) (z : ActivationId) : Prop where
  names : ∀ k i, q.cellAt? z k = some i →
    Option.Rel PadName.Same (p.nameAt? z k) (q.nameAt? z k)
  cells : ∀ k, q.cellAt? z k = p.cellAt? z k

/-- What an operation does to activations. -/
structure Ages (op : Op) (s t : Beside Pads) : Prop where
  units : (∀ d, op ≠ .compile d) → t.own.units = s.own.units
  origin : ∀ z a b, s.own.activation? z = some a → t.own.activation? z = some b →
    b.origin = a.origin
  abides : ∀ z a b, s.own.activation? z = some a → t.own.activation? z = some b →
    ¬ op.Renews s.own z → Abides s.own t.own z
  renewed : ∀ z, op.Renews s.own z → Renewed s t z ∧
    ∀ k, s.own.cellAt? z k = none → t.own.cellAt? z k = none
  births : Births s.own t.own

section
variable {p q : Pads} {s t : Beside Pads} {op : Op} {z : ActivationId} {a b : Activation}
  {h₀ : Heap} {held : List CellId}

theorem Op.not_renews (other : ∀ id, op ≠ .pop id) (z : ActivationId) : ¬ op.Renews p z :=
  fun renews => other z renews.1

theorem Op.renews_pop_iff {id : ActivationId} (ha : p.activation? id = some a) :
    (Op.pop id).Renews p z ↔ z = id ∧ a.base = none ∧ a.depth ≤ 1 := by
  constructor
  · rintro ⟨e, b, hb, last⟩
    cases e
    cases ha.symm.trans hb
    exact ⟨rfl, last⟩
  · rintro ⟨rfl, last⟩
    exact ⟨rfl, a, ha, last⟩

theorem Alike.abides (h : Alike p q z) : Abides p q z where
  names k i _ := by
    rw [h.names k]
    cases p.nameAt? z k with
    | none => exact .none
    | some n => exact .some (.refl n)
  cells := h.cells

/-- The slots of an activation are named like before, however many its unit has got since. -/
theorem Persists.abides (h : p.Persists q) (fits : p.Fits a) (ha : p.activation? z = some a)
    (hb : q.activation? z = some a) : Abides p q z where
  names k i hi := by
    obtain ⟨x, hx, len⟩ := fits
    obtain ⟨y, hy, same⟩ := h a.unit x hx
    rw [cellAt?_eq hb] at hi
    have lt := Nat.lt_of_lt_of_le (List.getElem?_eq_some_iff.mp hi).1 len
    obtain ⟨n, hn, rel⟩ := same.old k _ (List.getElem?_eq_getElem lt)
    rw [nameAt?_eq ha, nameAt?_eq hb, hx, hy, Option.bind_some, Option.bind_some]
    unfold CodeUnit.nameAt?
    rw [hn, List.getElem?_eq_getElem lt]
    exact rel
  cells k := by rw [cellAt?_eq ha, cellAt?_eq hb]

theorem births_of_none (none : ∀ z, p.activation? z = none → q.activation? z = none) :
    Births p q := fun z _ _ hp hq => by cases (none z hp).symm.trans hq

/-- Activations change in other ways than in their cells, or go. -/
theorem Ages.of_same (units : t.own.units = s.own.units)
    (same : ∀ z a b, s.own.activation? z = some a → t.own.activation? z = some b →
      b.origin = a.origin ∧ b.cells = a.cells)
    (not : ∀ z, ¬ op.Renews s.own z) (births : Births s.own t.own) : Ages op s t where
  units _ := units
  origin z a b ha hb := (same z a b ha hb).1
  abides z a b ha hb _ := by
    obtain ⟨origin, cells⟩ := same z a b ha hb
    exact (alike_of_live units ha hb (congrArg Activation.Origin.unit origin) cells).abides
  renewed z renews := absurd renews (not z)
  births := births

theorem Ages.of_own (same : t.own = s.own) (not : ∀ z, ¬ op.Renews s.own z) : Ages op s t := by
  refine .of_same (by rw [same]) (fun z a b ha hb => ?_) not (births_of_none fun z none => ?_)
  · rw [same] at hb
    cases ha.symm.trans hb
    exact ⟨rfl, rfl⟩
  · rwa [same]

/-- What is there stays, and what comes sees the cells of what it was made in. -/
theorem Ages.of_live (units : t.own.units = s.own.units)
    (live : ∀ z a, s.own.activation? z = some a → t.own.activation? z = some a)
    (not : ∀ z, ¬ op.Renews s.own z) (births : Births s.own t.own) : Ages op s t := by
  refine .of_same units (fun z a b ha hb => ?_) not births
  cases (live z a ha).symm.trans hb
  exact ⟨rfl, rfl⟩

/-- Activations go, and the others are as they were. -/
theorem Ages.of_fewer (units : t.own.units = s.own.units)
    (goes : ∀ z, t.own.activation? z = s.own.activation? z ∨ t.own.activation? z = none)
    (not : ∀ z, ¬ op.Renews s.own z) : Ages op s t := by
  refine .of_same units (fun z a b ha hb => ?_) not (births_of_none fun z none => ?_)
  · rcases goes z with same | gone
    · cases (same.trans ha).symm.trans hb
      exact ⟨rfl, rfl⟩
    · cases gone.symm.trans hb
  · exact (goes z).elim (fun same => same.trans none) id

/-- Compiling touches no activation. -/
theorem Persists.ages {d : Directive} (h : s.own.Persists t.own)
    (formed : s.own.Formed) (places : t.own.places = s.own.places) : Ages (.compile d) s t := by
  have same (z : ActivationId) : t.own.activation? z = s.own.activation? z := by
    rw [activation?_eq, activation?_eq, places]
  refine ⟨fun other => absurd rfl (other d), fun z a c ha hc => ?_, fun z a c ha hc _ => ?_,
    fun z renews => ?_, births_of_none fun z none => (same z).trans none⟩
  · cases ((same z).trans ha).symm.trans hc
    rfl
  · exact h.abides (formed.fits z a ha) ha ((same z).trans ha)
  · cases renews.1

/-- **The beginning of a call.** -/
theorem Pushed.ages {base id : ActivationId} (pushed : Pushed s t base id) :
    Ages (.push base) s t := by
  refine .of_same pushed.units (fun z a c ha hc => ?_) (Op.not_renews nofun) pushed.births
  obtain ⟨d, hd, after, -⟩ := pushed.runs
  by_cases here : z = base
  · subst here
    cases hd.symm.trans ha
    cases after.symm.trans hc
    exact ⟨rfl, rfl⟩
  · cases (pushed.others z a here ha).symm.trans hc
    exact ⟨rfl, rfl⟩

/-- Ending a call makes no activation. -/
theorem empties_absent (p : Pads) : Empties (fun _ => True)
    fun s => ∀ z, p.activation? z = none → s.own.activation? z = none where
  heap _ _ _ h := h
  change id f _ := Keeps.of_ends fun s h => by
    cases ha : s.own.activation? id with
    | none => exact (changeActivation_stale ha f).imp (fun _ t e => e ▸ h) fun _ e => e
    | some a =>
      refine (ends_changeActivation ha f).imp (fun _ t q z none => ?_) fun _ e => e
      have other : z ≠ id := by
        rintro rfl
        cases ha.symm.trans (h z none)
      exact (q.2.others z other).trans (h z none)
  remove id _ := Keeps.of_ends fun s h => by
    refine (ends_remove id s).imp ?_ fun _ e => e.1 ▸ h
    rintro _ t ⟨-, a, -, w⟩ z none
    by_cases here : z = id
    · exact here ▸ w.after
    · exact (w.others z here).trans (h z none)

/-- The end of the last call on an activation. -/
theorem Renewed.ages {id : ActivationId} (renewed : Renewed s t id)
    (none : ∀ k, s.own.cellAt? id k = none → t.own.cellAt? id k = none)
    (ha : s.own.activation? id = some a) (last : a.base = Option.none ∧ a.depth ≤ 1)
    (units : t.own.units = s.own.units)
    (others : ∀ z c, z ≠ id → s.own.activation? z = some c → t.own.activation? z = some c)
    (births : Births s.own t.own) : Ages (.pop id) s t := by
  refine ⟨fun _ => units, fun z d e hd he => ?_, fun z d e hd he not => ?_,
    fun z renews => ?_, births⟩
  · by_cases here : z = id
    · subst here
      obtain ⟨_, c, ha', hc, origin, -⟩ := renewed.live
      cases ha'.symm.trans hd
      cases hc.symm.trans he
      exact origin
    · cases (others z d here hd).symm.trans he
      rfl
  · have other : z ≠ id := fun here => not ((Op.renews_pop_iff ha).mpr ⟨here, last⟩)
    exact (alike_of_same units ((others z d other hd).trans hd.symm)).abides
  · obtain ⟨rfl, -⟩ := (Op.renews_pop_iff ha).mp renews
    exact ⟨renewed, none⟩

/-- **The end of a call.** -/
theorem Balanced.ages_pop (b : Balanced h₀ held s) (id : ActivationId) :
    Ends (pop id) s (fun _ => Ages (.pop id) s) (Ages (.pop id) s) := by
  cases ha : s.own.activation? id with
  | none =>
    unfold Ends
    rw [(isStale ha).pop]
    refine .of_own rfl ?_
    rintro z ⟨e, a, there, -⟩
    cases e
    cases ha.symm.trans there
  | some a =>
    have gone : Ends (pop id) s (fun _ t => Births s.own t.own) fun _ => True :=
      ((empties_absent s.own).pop (fun _ none => none) fun _ _ _ => trivial).imp
        (fun _ _ => births_of_none) fun _ _ => trivial
    cases frame : a.base with
    | some base =>
      refine ((ends_pop_frame (E := fun _ => False) b ha frame).and gone).imp ?_ fun _ e => e.1.elim
      rintro _ t ⟨⟨-, units, none, others⟩, births⟩
      refine .of_same units (fun z c d hc hd => ?_) (fun z renews => ?_) births
      · have other : z ≠ id := by
          rintro rfl
          cases none.symm.trans hd
        cases (others z c other hc).symm.trans hd
        split <;> exact ⟨rfl, rfl⟩
      · cases frame.symm.trans ((Op.renews_pop_iff ha).mp renews).2.1
    | none =>
      refine ((ends_pop_base (E := fun _ => False) b ha frame).and gone).imp ?_ fun _ e => e.1.elim
      rintro _ t ⟨⟨-, units, others, more, last⟩, births⟩
      by_cases le : a.depth ≤ 1
      · exact (last le).1.ages (last le).2 ha ⟨frame, le⟩ units others births
      · refine .of_same units (fun z c d hc hd => ?_)
          (fun z renews => le ((Op.renews_pop_iff ha).mp renews).2.2) births
        by_cases here : z = id
        · subst here
          cases ha.symm.trans hc
          cases (more (Nat.not_le.mp le)).symm.trans hd
          exact ⟨rfl, rfl⟩
        · cases (others z c here hc).symm.trans hd
          exact ⟨rfl, rfl⟩

/-- **One operation.** -/
theorem Balanced.ages_act (b : Balanced h₀ held s) (tallies : s.own.Tallies) (op : Op) :
    Ends (op.act held) s (fun _ => Ages op s) (Ages op s) := by
  have own {α : Type} {x : OnPads α} (not : ∀ z, ¬ op.Renews s.own z)
      (keeps : Keeps (fun s' => s'.own = s.own) x) :
      Ends x s (fun _ => Ages op s) (Ages op s) :=
    (keeps.ends rfl).imp (fun _ _ same => .of_own same not) fun _ same => .of_own same not
  cases op with
  | compile d =>
    have names := ((compiles_persists s.own).perform d).ends ⟨b.formed.nested, .refl s.own⟩
    exact ends_only (((furthers_directive b d).and names).imp
      (fun _ _ q => q.2.2.ages b.formed q.1.1.places) fun _ e => e.2.2.ages b.formed e.1.1.places)
  | activate u outer =>
    refine ends_only ((ends_activate b u outer).imp (fun _ t q => ?_) fun _ e => ?_)
    · refine .of_live q.2.grown.units q.2.grown.live (Op.not_renews nofun) ?_
      exact fun z a o hs ha _ ho => q.2.grown.sees z a o hs ha ho
    · exact .of_own (by rw [e.2]) (Op.not_renews nofun)
  | makeClosure u outer =>
    refine Ends.bind ((ends_makeClosure b u outer).imp (fun _ t q => ?_) fun _ e => ?_)
      fun _ _ q => q
    · exact .of_live q.2.1 q.2.2.1 (Op.not_renews nofun) q.2.2.2.1
    · exact .of_own (by rw [e]) (Op.not_renews nofun)
  | push base =>
    refine ends_only ((ends_push b base).imp (fun _ _ q => q.2.ages) fun _ e => ?_)
    exact .of_own (by rw [e.1]) (Op.not_renews nofun)
  | pop id => exact ends_only (b.ages_pop id)
  | release id =>
    refine ends_only (Ends.bind ((ends_remove id s).imp (fun _ _ q => q) fun _ e => ?_) ?_)
    · exact .of_own (by rw [e.1]) (Op.not_renews nofun)
    · rintro cells t ⟨-, a, -, w⟩
      refine .of_fewer w.units (fun z => ?_) (Op.not_renews nofun)
      by_cases here : z = id
      · exact .inr (here ▸ w.after)
      · exact .inl (w.others z here)
  | sweep =>
    obtain ⟨gone, t, e, sweeps, -⟩ := b.sweeps tallies
    refine ends_only (.of_ok e (.of_fewer sweeps.units (fun z => ?_) (Op.not_renews nofun)))
    rw [sweeps.activations]
    split
    · exact .inr rfl
    · exact .inl rfl
  | cell id slot => exact own (Op.not_renews nofun) (keeps_cell s.own id slot)
  | onHeap op =>
    exact own (Op.not_renews nofun) (Keeps.onHeap (P := fun p => p = s.own) _)

theorem Balanced.ages {s : Host} (b : Balanced h₀ s.held s.pads) (tallies : s.pads.own.Tallies)
    (op : Op) : Ages op s.pads (s.step op).pads := by
  refine Host.of_step (P := fun _ => Ages op s.pads) (fun _ => b.ages_act tallies op)
    fun unnamed => .of_own rfl fun z renews => unnamed ?_
  rw [renews.1]
  nofun

/-! ### What units are -/

/-- **Compiling is all** that changes units. -/
theorem Compiles.step {P : Pads → Prop} (c : Compiles P) {s : Host}
    (b : Balanced h₀ s.held s.pads) (tallies : s.pads.own.Tallies) (h : P s.pads.own) (op : Op) :
    P (s.step op).pads.own := by
  have others (other : ∀ d, op ≠ .compile d) : P (s.step op).pads.own :=
    c.same h ((b.ages tallies op).units other)
  cases op with
  | compile d =>
    have performed := (c.perform d).ends ⟨b.formed.nested, h⟩
    exact Host.of_step (P := fun _ t => P t.own)
      (fun _ => ends_only (performed.imp (fun _ _ q => q.2) fun _ e => e.2)) fun _ => h
  | activate | makeClosure | push | pop | release | sweep | cell | onHeap => exact others nofun

theorem Compiles.run {P : Pads → Prop} (c : Compiles P) {s : Host}
    (b : Balanced h₀ s.held s.pads) (tallies : s.pads.own.Tallies) (h : P s.pads.own)
    (ops : List Op) : P (s.run ops).pads.own := by
  induction ops generalizing s with
  | nil => exact h
  | cons op ops ih => exact ih (b.step op) (b.moved tallies op).1 (c.step b tallies h op)

end

end Pads

end ScriptCore
