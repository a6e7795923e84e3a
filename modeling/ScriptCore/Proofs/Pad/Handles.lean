import ScriptCore.Pad.Describe
import ScriptCore.Proofs.Pad.Seats

/-!
# Pad — handles

A handle names a place and a generation of it.  In the course of a run the generation of a place is
the number of times it was vacated (`generation_eq`), as a number of 32 bits; so as long as no place
is vacated 2³² times, a handle that was live once and is not any more never will be
(`gone_for_good`), and one that is live was so all along (`seat_eq_of_live`).

* `run_handles`: the handles of a run.  They are listed, counted and given back rightly at any time;
  one that is live names the activation it was given out for, until an operation that may remove it
  (`Op.Removes`) does; from then on it is stale, and whatever is asked of it fails and changes
  nothing (`IsStale`).
-/

namespace ScriptCore.Pads
open Beside

/-- Between two moments an activation went from the place. -/
def Vacates (p q : Pads) (i : Nat) : Prop := ∃ id ∈ p.handles, id.index = i ∧ id ∉ q.handles

instance (p q : Pads) (i : Nat) : Decidable (Vacates p q i) :=
  inferInstanceAs (Decidable (∃ id ∈ p.handles, _))

/-- How often the place is vacated up to a moment. -/
def vacations (p : Nat → Pads) (i : Nat) : Nat → Nat
  | 0 => 0
  | n + 1 => vacations p i n + if Vacates (p n) (p (n + 1)) i then 1 else 0

/-- The origin of the activation of a handle. -/
def origin? (p : Pads) (id : ActivationId) : Option Activation.Origin :=
  (p.activation? id).map (·.origin)

/-- Whatever is asked of the handle fails, as it is stale, and changes nothing. -/
structure IsStale (s : Beside Pads) (id : ActivationId) : Prop where
  activation : activation id s = .error (.stale id) s
  cell : ∀ slot, cell id slot s = .error (.stale id) s
  activate : ∀ u x, s.own.units[u]? = some x → activate u (some id) s = .error (.stale id) s
  makeClosure : ∀ u x, s.own.units[u]? = some x →
    makeClosure u (some id) s = .error (.stale id) s
  push : push id s = .error (.stale id) s
  pop : pop id s = .error (.stale id) s
  release : release id s = .error (.stale id) s
  listing : activationListing id s = .error (.stale id) s

/-- A handle that is given out is live, and new, unless a call runs on the activation itself. -/
structure Issues (s : Beside Pads) : Prop where
  activate : ∀ u outer id t, activate u outer s = .ok id t →
    id ∉ s.own.handles ∧ id ∈ t.own.handles
  makeClosure : ∀ u outer i t, makeClosure u outer s = .ok i t → ∃ name id,
    t.heap.Holds i (closureCell name u id) ∧ id ∉ s.own.handles ∧ id ∈ t.own.handles
  push : ∀ base id t, push base s = .ok id t →
    (id = base ∨ id ∉ s.own.handles) ∧ id ∈ t.own.handles

/-- The handles in the course of operations that lead from one state to the next. -/
structure Generational (ops : List Op) (state : Nat → Beside Pads) : Prop where
  distinct : ∀ n, (state n).own.handles.Nodup
  listed : ∀ n id, id ∈ (state n).own.handles ↔ ∃ a, (state n).own.activation? id = some a
  tallies : ∀ n, (state n).own.Tallies
  issues : ∀ n, Issues (state n)
  same : ∀ id m n, m ≤ n → id ∈ (state m).own.handles → id ∈ (state n).own.handles →
    (state n).own.origin? id = (state m).own.origin? id
  removed : ∀ id n, id ∈ (state n).own.handles → id ∉ (state (n + 1)).own.handles →
    ∃ op, ops[n]? = some op ∧ op.Removes (state n).own id
  removes : ∀ id n op, ops[n]? = some op → op ≠ .sweep → op.Removes (state n).own id →
    id ∉ (state (n + 1)).own.handles
  stale : ∀ id m k n, m ≤ k → k ≤ n → id ∈ (state m).own.handles →
    id ∉ (state k).own.handles → IsStale (state n) id

/-! ### Stale handles -/

section
variable {s : Beside Pads} {id : ActivationId}

theorem activation_stale (none : s.own.activation? id = none) :
    activation id s = .error (.stale id) s := by
  unfold activation
  rw [self_bind, none]
  rfl

theorem unit_eq {u : Nat} {x : CodeUnit} (hx : s.own.units[u]? = some x) :
    unit u s = .ok x s := by
  unfold unit
  rw [self_bind, hx]
  rfl

theorem unit_missing {u : Nat} (none : s.own.units[u]? = none) :
    unit u s = .error (.mismatch .foreignUnit) s := by
  unfold unit
  rw [self_bind, none]
  rfl

theorem activate_stale (none : s.own.activation? id = none) {u : Nat} {x : CodeUnit}
    (hx : s.own.units[u]? = some x) : activate u (some id) s = .error (.stale id) s := by
  have some : 0 < s.own.units.size := Nat.zero_lt_of_lt (Array.getElem?_eq_some_iff.mp hx).1
  obtain ⟨levels, size⟩ := Nat.exists_eq_add_of_lt some
  unfold activate
  rw [self_bind, size, Nat.zero_add, activateWithin, bind_ok (unit_eq hx)]
  exact bind_error (activation_stale none)

theorem isStale (none : s.own.activation? id = none) : IsStale s id where
  activation := activation_stale none
  cell _ := bind_error (activation_stale none)
  activate _ _ hx := activate_stale none hx
  makeClosure _ _ hx := bind_error (activate_stale none hx)
  push := bind_error (activation_stale none)
  pop := bind_error (activation_stale none)
  release := bind_error (bind_error (activation_stale none))
  listing := bind_error (activation_stale none)

end

/-! ### One operation -/

section
variable {h₀ : Heap} {held : List CellId} {s : Beside Pads} {id : ActivationId}

/-- What an operation may do to places. -/
def Moved (op : Op) (s t : Beside Pads) : Prop :=
  t.own.Tallies ∧ Turned (op.Removes s.own) s.own t.own

/-- Asking for a cell of an activation leaves activations as they are. -/
theorem keeps_cell (p : Pads) (id : ActivationId) (slot : Nat) :
    Keeps (fun s' => s'.own = p) ((Op.cell id slot).act held) := by
  refine Keeps.bind ((keeps_activation id).bind fun a => ?_) fun i => ?_
  · cases a.cells[slot]? with
    | none => exact Keeps.throw _
    | some i => exact Keeps.pure i
  · exact Keeps.onHeap (P := fun own => own = p) _

theorem ends_only {α : Type} {P : Beside Pads → Prop} {x : OnPads α}
    (h : Ends x s (fun _ => P) P) : Ends (Op.only held x) s (fun _ => P) P :=
  h.discard.bind fun _ _ q => q

/-- **One operation** takes seats, or vacates those of activations that it may remove. -/
theorem moved_act (b : Balanced h₀ held s) (t : s.own.Tallies) (op : Op) :
    Ends (op.act held) s (fun _ => Moved op s) (Moved op s) := by
  have idle : Moved op s s := ⟨t, .inl (.refl _)⟩
  -- what makes activations either succeeds or leaves everything as it is
  have fills {α : Type} {x : OnPads α}
      (walk : Leads (fun s' => s'.own.Tallies ∧ Filled s.own s'.own) x
        (fun _ s' => s'.own.Tallies ∧ Filled s.own s'.own) fun _ => True)
      (fails : Ends x s (fun _ _ => True) (· = s)) :
      Ends x s (fun _ => Moved op s) (Moved op s) :=
    ((walk.ends ⟨t, .refl _⟩).and fails).imp (fun _ _ q => ⟨q.1.1, .inl q.1.2⟩)
      fun _ e => e.2 ▸ idle
  have empties {α : Type} {x : OnPads α} {S : ActivationId → Prop}
      (goes : ∀ id, S id → op.Removes s.own id)
      (walk : Ends x s (fun _ s' => s'.own.Tallies ∧ Emptied S s.own s'.own)
        fun s' => s'.own.Tallies ∧ Emptied S s.own s'.own) :
      Ends x s (fun _ => Moved op s) (Moved op s) := by
    have moved {u : Beside Pads} (w : u.own.Tallies ∧ Emptied S s.own u.own) : Moved op s u :=
      ⟨w.1, .inr fun i => (w.2 i).imp id fun ⟨g, d, old, new, hS⟩ => ⟨g, d, old, new, goes _ hS⟩⟩
    exact walk.imp (fun _ _ => moved) fun _ => moved
  have start {S : ActivationId → Prop} : s.own.Tallies ∧ Emptied S s.own s.own := ⟨t, .refl _⟩
  have same {α : Type} {x : OnPads α} (keeps : Keeps (fun s' => s'.own = s.own) x) :
      Ends x s (fun _ => Moved op s) (Moved op s) := by
    have moved {u : Beside Pads} (e : u.own = s.own) : Moved op s u := by
      unfold Moved
      rw [e]
      exact idle
    exact (keeps.ends rfl).imp (fun _ _ => moved) fun _ => moved
  cases op with
  | compile d =>
    have moved {u : Beside Pads} (w : Furthers s.own u.own) : Moved (.compile d) s u := by
      have seats : u.own.seat = s.own.seat := funext fun i => by rw [seat, seat, w.places]
      have handles : u.own.handles = s.own.handles := by rw [handles, handles, w.places]
      refine ⟨⟨w.vacant ▸ t.distinct, ?_, by rw [w.live, handles, t.live]⟩, .inl fun i => ?_⟩
      · rw [w.vacant, w.places]
        exact t.vacant
      · exact .inl (congrFun seats i)
    exact ends_only ((furthers_directive b d).imp (fun _ _ q => moved q.1) fun _ e => moved e.1)
  | activate u outer =>
    refine ends_only (fills ((fills_seats s.own).activate u outer) ?_)
    exact (ends_activate b u outer).imp (fun _ _ _ => trivial) fun _ e => e.2
  | makeClosure u outer =>
    refine Ends.bind (fills ((fills_seats s.own).makeClosure u outer) ?_) fun _ _ q => q
    exact (ends_makeClosure b u outer).imp (fun _ _ _ => trivial) fun _ e => e
  | push base =>
    refine ends_only (fills ((fills_seats s.own).push base) ?_)
    exact (ends_push b base).imp (fun _ _ _ => trivial) fun _ e => e.1
  | pop id =>
    refine ends_only (empties (S := (Op.pop id).Removes s.own) (fun _ h => h) ?_)
    exact (empties_seats _ s.own).pop start fun a ha frame => ⟨rfl, a, ha, frame⟩
  | release id =>
    refine ends_only (empties (S := fun x => x = id) (fun _ h => h) ?_)
    exact ((empties_seats (fun x => x = id) s.own).release rfl).ends start
  | sweep =>
    refine ends_only (empties (S := fun _ => True) (fun _ h => h) ?_)
    exact ((empties_seats _ s.own).sweep fun _ => trivial).ends start
  | cell id slot => exact same (keeps_cell s.own id slot)
  | onHeap op => exact same (Keeps.onHeap (P := fun p => p = s.own) _)

theorem Balanced.moved {s : Host} (b : Balanced h₀ s.held s.pads) (t : s.pads.own.Tallies)
    (op : Op) : Moved op s.pads (s.step op).pads :=
  Host.of_step (P := fun _ => Moved op s.pads) (fun _ => moved_act b t op)
    fun _ => ⟨t, .inl (.refl _)⟩

/-- **Handles that are given out** are live. -/
theorem Balanced.issues (b : Balanced h₀ held s) : Issues s where
  activate u outer id t e := by
    obtain ⟨-, activates⟩ := Ends.result (ends_activate b u outer) e
    obtain ⟨child, clone⟩ := activates.cloned.clone
    obtain ⟨a, -, ha, -⟩ := clone.live
    refine ⟨fun mem => ?_, mem_handles.mpr ⟨a, ha⟩⟩
    obtain ⟨_, there⟩ := mem_handles.mp mem
    cases clone.new.symm.trans there
  makeClosure u outer i t e := by
    obtain ⟨-, -, -, -, name, id, holds, new, live⟩ := Ends.result (ends_makeClosure b u outer) e
    refine ⟨name, id, holds, fun mem => ?_, mem_handles.mpr live⟩
    obtain ⟨_, there⟩ := mem_handles.mp mem
    cases new.symm.trans there
  push base id t e := by
    obtain ⟨-, pushed⟩ := Ends.result (ends_push b base) e
    obtain ⟨a, ha, after, first, more⟩ := pushed.runs
    by_cases idle : a.depth = 0
    · obtain rfl := first idle
      exact ⟨.inl rfl, mem_handles.mpr ⟨_, after⟩⟩
    · have frame := more idle
      obtain ⟨_, c, -, hc, -⟩ := frame.live
      refine ⟨.inr fun mem => ?_, mem_handles.mpr ⟨c, hc⟩⟩
      obtain ⟨_, there⟩ := mem_handles.mp mem
      cases frame.new.symm.trans there

/-- What is released, and the frame whose call ends, goes. -/
theorem Balanced.removes {s : Host} (b : Balanced h₀ s.held s.pads) {op : Op} (not : op ≠ .sweep)
    (removes : op.Removes s.pads.own id) : id ∉ (s.step op).pads.own.handles := by
  have gone {t : Beside Pads} (none : t.own.activation? id = none) : id ∉ t.own.handles := by
    rw [mem_handles]
    rintro ⟨a, ha⟩
    cases none.symm.trans ha
  have carried (named : op.named = []) (ended : Ends (op.act s.held) s.pads
      (fun _ t => t.own.activation? id = none) fun t => t.own.activation? id = none) :
      id ∉ (s.step op).pads.own.handles :=
    Host.of_step (P := fun _ t => id ∉ t.own.handles)
      (fun _ => ended.imp (fun _ _ => gone) fun _ => gone)
      fun unnamed => absurd (by rw [named]; nofun) unnamed
  cases op with
  | sweep => exact absurd rfl not
  | compile | activate | makeClosure | push | cell | onHeap => exact removes.elim
  | release x =>
    obtain rfl : id = x := removes
    refine carried rfl (ends_only (Ends.bind ((ends_remove id s.pads).imp (fun _ _ q => q) ?_) ?_))
    · rintro t ⟨rfl, none⟩
      exact none
    · rintro cells t ⟨-, a, -, w⟩
      exact w.after
  | pop x =>
    obtain ⟨rfl, a, ha, frame⟩ := removes
    obtain ⟨base, frame⟩ := Option.ne_none_iff_exists'.mp frame
    refine carried rfl (ends_only ?_)
    exact (ends_pop_frame b ha frame).imp (fun _ _ q => q.2.2.1) fun _ e => e

end

/-! ### In the course of time -/

section
variable {p : Nat → Pads} {q r : Pads} {S : ActivationId → Prop} {i k m n : Nat} {g : UInt32}
  {d : Activation.Origin} {id : ActivationId}

theorem Filled.not_vacates (w : Filled q r) : ¬ Vacates q r i := by
  rintro ⟨x, live, rfl, gone⟩
  rw [mem_handles_iff_seat] at live gone
  obtain ⟨d, taken⟩ := live
  refine gone ⟨d, ?_⟩
  rcases w x.index with same | ⟨_, _, vacant, -⟩
  · rw [same, taken]
  · cases congrArg Prod.snd (taken.symm.trans vacant)

/-- A seat that is not vacated stays taken. -/
theorem Turned.stays (w : Turned S q r) (not : ¬ Vacates q r i) (taken : q.seat i = (g, some d)) :
    r.seat i = (g, some d) := by
  rcases w with w | w
  · rcases w i with same | ⟨_, _, vacant, -⟩
    · rw [same, taken]
    · cases congrArg Prod.snd (taken.symm.trans vacant)
  · rcases w i with same | ⟨g', d', old, new, -⟩
    · rw [same, taken]
    · refine absurd ⟨⟨i, g'⟩, mem_handles_iff_seat.mpr ⟨d', old⟩, rfl, fun live => ?_⟩ not
      obtain ⟨_, there⟩ := mem_handles_iff_seat.mp live
      cases congrArg Prod.snd (new.symm.trans there)

/-- A place moves on by one generation when it is vacated. -/
theorem Turned.generation (w : Turned S q r) (i : Nat) :
    (r.seat i).1 = (q.seat i).1 + if Vacates q r i then 1 else 0 := by
  rcases w with w | w
  · rw [if_neg w.not_vacates]
    rcases w i with same | ⟨_, _, old, new⟩
    · rw [same, UInt32.add_zero]
    · rw [old, new, UInt32.add_zero]
  · rcases w i with same | ⟨g', d', old, new, -⟩
    · rw [if_neg, same, UInt32.add_zero]
      rintro ⟨x, live, rfl, gone⟩
      obtain ⟨d, taken⟩ := mem_handles_iff_seat.mp live
      exact gone (mem_handles_iff_seat.mpr ⟨d, same.trans taken⟩)
    · rw [if_pos, old, new]
      refine ⟨⟨i, g'⟩, mem_handles_iff_seat.mpr ⟨d', old⟩, rfl, fun live => ?_⟩
      obtain ⟨_, there⟩ := mem_handles_iff_seat.mp live
      cases congrArg Prod.snd (new.symm.trans there)

theorem vacations_le (p : Nat → Pads) (i n : Nat) : vacations p i n ≤ n := by
  induction n with
  | zero => exact Nat.le_refl 0
  | succ n ih =>
    unfold vacations
    split <;> omega

theorem vacations_mono (le : m ≤ n) : vacations p i m ≤ vacations p i n := by
  induction le with
  | refl => exact Nat.le_refl _
  | step _ ih => exact Nat.le_trans ih (Nat.le_add_right _ _)

variable (turned : ∀ n, ∃ S, Turned S (p n) (p (n + 1)))
include turned

/-- **Generations count vacations.** -/
theorem generation_eq (i n : Nat) :
    ((p n).seat i).1 = ((p 0).seat i).1 + UInt32.ofNat (vacations p i n) := by
  induction n with
  | zero => exact (UInt32.add_zero _).symm
  | succ n ih =>
    obtain ⟨S, w⟩ := turned n
    rw [w.generation, ih, vacations, UInt32.ofNat_add, UInt32.add_assoc]
    split <;> rfl

/-- Two moments at which a place has the same generation have seen as many vacations. -/
theorem vacations_eq (rare : vacations p i n < 2 ^ 32) (le : m ≤ n)
    (same : ((p m).seat i).1 = ((p n).seat i).1) : vacations p i m = vacations p i n := by
  rw [generation_eq turned i m, generation_eq turned i n, UInt32.add_right_inj] at same
  have numbers := congrArg UInt32.toNat same
  have before := vacations_mono (p := p) (i := i) le
  rw [UInt32.toNat_ofNat', UInt32.toNat_ofNat'] at numbers
  rwa [Nat.mod_eq_of_lt (Nat.lt_of_le_of_lt before rare), Nat.mod_eq_of_lt rare] at numbers

/-- A seat that is taken stays so as long as it is not vacated. -/
theorem seat_stays (le : m ≤ n) (same : vacations p i m = vacations p i n)
    (taken : (p m).seat i = (g, some d)) : (p n).seat i = (g, some d) := by
  induction le with
  | refl => exact taken
  | @step n le ih =>
    have before := vacations_mono (p := p) (i := i) le
    rw [vacations] at same
    have not : ¬ Vacates (p n) (p (n + 1)) i := fun vacates => by
      rw [if_pos vacates] at same
      omega
    rw [if_neg not] at same
    obtain ⟨S, w⟩ := turned n
    exact w.stays not (ih same)

/-- A handle that is live was live all along since it was, and names the same activation. -/
theorem seat_eq_of_live (rare : vacations p id.index n < 2 ^ 32) (first : m ≤ k) (le : k ≤ n)
    (live : id ∈ (p m).handles) (still : id ∈ (p n).handles) :
    (p k).seat id.index = (p m).seat id.index ∧ (p n).seat id.index = (p m).seat id.index := by
  obtain ⟨d, taken⟩ := mem_handles_iff_seat.mp live
  obtain ⟨d', taken'⟩ := mem_handles_iff_seat.mp still
  have same := vacations_eq turned rare (first.trans le) (by rw [taken, taken'])
  have between : vacations p id.index m = vacations p id.index k :=
    Nat.le_antisymm (vacations_mono first) (same ▸ vacations_mono le)
  rw [taken]
  exact ⟨seat_stays turned first between taken, seat_stays turned (first.trans le) same taken⟩

/-- **A handle that went** does not come back. -/
theorem gone_for_good (rare : vacations p id.index n < 2 ^ 32) (first : m ≤ k) (le : k ≤ n)
    (live : id ∈ (p m).handles) (gone : id ∉ (p k).handles) : id ∉ (p n).handles := by
  intro still
  obtain ⟨d, taken⟩ := mem_handles_iff_seat.mp live
  have same := (seat_eq_of_live turned rare first le live still).1
  exact gone (mem_handles_iff_seat.mpr ⟨d, same.trans taken⟩)

end

/-! ### Runs -/

theorem foldl_take_of_getElem? {α β : Type} {f : β → α → β} {b : β} {l : List α} {a : α} {n : Nat}
    (ha : l[n]? = some a) : (l.take (n + 1)).foldl f b = f ((l.take n).foldl f b) a := by
  rw [List.take_add_one, ha, List.foldl_append]
  rfl

theorem take_of_none {α : Type} {l : List α} {n : Nat} (past : l[n]? = none) :
    l.take (n + 1) = l.take n := by
  rw [List.take_add_one, past, Option.toList_none, List.append_nil]

section
variable {h₀ : Heap} {s : Host} {ops : List Op}

theorem Host.run_take_of_getElem? {op : Op} {n : Nat} (hop : ops[n]? = some op) :
    s.run (ops.take (n + 1)) = (s.run (ops.take n)).step op := foldl_take_of_getElem? hop

theorem Host.run_take_of_none {n : Nat} (past : ops[n]? = none) :
    s.run (ops.take (n + 1)) = s.run (ops.take n) := congrArg s.run (take_of_none past)

theorem Balanced.tallies_run (b : Balanced h₀ s.held s.pads) (t : s.pads.own.Tallies)
    (ops : List Op) : (s.run ops).pads.own.Tallies := by
  induction ops generalizing s with
  | nil => exact t
  | cons op ops ih => exact ih (b.step op) (b.moved t op).1

/-- **Every step** of a host takes seats or vacates them. -/
theorem turned_of_steps (host : Nat → Host) (b : Balanced h₀ (host 0).held (host 0).pads)
    (t : (host 0).pads.own.Tallies)
    (steps : ∀ n, host (n + 1) = host n ∨ ∃ op, host (n + 1) = (host n).step op) (n : Nat) :
    ∃ S, Turned S (host n).pads.own (host (n + 1)).pads.own := by
  have kept (n : Nat) :
      Balanced h₀ (host n).held (host n).pads ∧ (host n).pads.own.Tallies := by
    induction n with
    | zero => exact ⟨b, t⟩
    | succ n ih =>
      rcases steps n with same | ⟨op, stepped⟩
      · rwa [same]
      · rw [stepped]
        exact ⟨ih.1.step op, (ih.1.moved ih.2 op).1⟩
  rcases steps n with same | ⟨op, stepped⟩
  · rw [same]
    exact ⟨fun _ => True, .inl (.refl _)⟩
  · rw [stepped]
    exact ⟨_, ((kept n).1.moved (kept n).2 op).2⟩

theorem Host.run_steps (n : Nat) : s.run (ops.take (n + 1)) = s.run (ops.take n) ∨
    ∃ op, s.run (ops.take (n + 1)) = (s.run (ops.take n)).step op := by
  cases hop : ops[n]? with
  | none => exact .inl (run_take_of_none hop)
  | some op => exact .inr ⟨op, run_take_of_getElem? hop⟩

/-- Nothing is vacated after the last operation. -/
theorem vacations_run_le (i n : Nat) :
    vacations (fun n => (s.run (ops.take n)).pads.own) i n ≤
      vacations (fun n => (s.run (ops.take n)).pads.own) i ops.length := by
  induction n with
  | zero => exact vacations_mono (Nat.zero_le _)
  | succ n ih =>
    by_cases lt : n < ops.length
    · exact vacations_mono lt
    · have past : ops[n]? = none := List.getElem?_eq_none (Nat.not_lt.mp lt)
      rw [vacations, Host.run_take_of_none past, if_neg (Filled.refl _).not_vacates]
      exact ih

/-- **The handles of a run.** -/
theorem Balanced.generational (b : Balanced h₀ s.held s.pads) (t : s.pads.own.Tallies)
    (rare : ∀ i, vacations (fun n => (s.run (ops.take n)).pads.own) i ops.length < 2 ^ 32) :
    Generational ops fun n => (s.run (ops.take n)).pads := by
  have turned := turned_of_steps (fun n => s.run (ops.take n)) b t fun _ => Host.run_steps _
  have balanced (n : Nat) := b.run (ops.take n)
  have rare (i n : Nat) := Nat.lt_of_le_of_lt (vacations_run_le i n) (rare i)
  refine ⟨fun n => nodup_handles _, fun n id => mem_handles, fun n => b.tallies_run t _,
    fun n => (balanced n).issues, fun id m n le live still => ?_, fun id n live gone => ?_,
    fun id n op hop not removes => ?_, fun id m k n first le live gone => ?_⟩
  · obtain ⟨a, ha⟩ := mem_handles.mp live
    obtain ⟨c, hc⟩ := mem_handles.mp still
    have same := (seat_eq_of_live turned (rare _ n) (Nat.le_refl m) le live still).2
    rw [seat_of_activation? ha, seat_of_activation? hc] at same
    rw [origin?, origin?, ha, hc]
    exact congrArg Prod.snd same
  · cases hop : ops[n]? with
    | none => exact absurd (Host.run_take_of_none hop ▸ live) gone
    | some op =>
      rw [Host.run_take_of_getElem? hop] at gone
      refine ⟨op, rfl, ?_⟩
      obtain ⟨d, taken⟩ := mem_handles_iff_seat.mp live
      rcases ((balanced n).moved (b.tallies_run t _) op).2 with w | w
      · exact absurd ⟨id, live, rfl, gone⟩ w.not_vacates
      · rcases w id.index with same | ⟨g, _, old, -, goes⟩
        · exact absurd (mem_handles_iff_seat.mpr ⟨d, same.trans taken⟩) gone
        · cases congrArg Prod.fst (taken.symm.trans old)
          exact goes
  · rw [Host.run_take_of_getElem? hop]
    exact (balanced n).removes not removes
  · have never := gone_for_good turned (rare _ n) first le live gone
    refine isStale (Option.eq_none_iff_forall_ne_some.mpr fun a ha => ?_)
    exact never (mem_handles.mpr ⟨a, ha⟩)

theorem tallies_start (seeds : Array Seed) (supply : Supply) (pool : Nat) :
    (Host.start seeds supply pool).pads.own.Tallies where
  distinct := .nil
  vacant i := by
    refine ⟨nofun, ?_⟩
    rintro ⟨_, e, -⟩
    cases e
  live := rfl

/-- **Handles, at any time of any run** in which no place is vacated 2³² times. -/
theorem run_handles (seeds : Array Seed) (supply : Supply) (pool : Nat) (ops : List Op)
    (rare : ∀ i, vacations (fun n => (reached seeds supply pool (ops.take n)).own) i ops.length <
      2 ^ 32) :
    Generational ops fun n => reached seeds supply pool (ops.take n) :=
  (balanced_start seeds supply pool).generational (tallies_start seeds supply pool) rare

/-- A handle whose place was taken again is stale all the same. -/
theorem run_handles_again :
    let ops : List Op := [.compile (.openUnit none none), .activate 0 none, .release ⟨0, 0⟩,
      .activate 0 none]
    (reached #[] {} 0 ops).own.handles = [⟨0, 1⟩] ∧
      IsStale (reached #[] {} 0 ops) ⟨0, 0⟩ := by
  intro ops
  refine ⟨by decide, ?_⟩
  have handled := run_handles #[] {} 0 ops fun i =>
    Nat.lt_of_le_of_lt (vacations_le _ i 4) (by decide)
  exact handled.stale ⟨0, 0⟩ 2 3 4 (by decide) (by decide) (by decide) (by decide)

end

end ScriptCore.Pads
