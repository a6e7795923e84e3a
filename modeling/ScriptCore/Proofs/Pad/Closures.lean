import ScriptCore.Proofs.Pad.Calls
import ScriptCore.Proofs.Pad.Renewal

/-!
# Pad — what closures see

A closure is made in an activation and has its cells in captured slots.  It keeps them; but the
plain slots of the activation get new cells whenever the last call on it ends (`Op.Renews`).  So a
closure sees the cells of the activation until then (`Sees`), and afterwards only those of its other
slots (`Outdated`), however often it is called.

* `run_closures`: a call during a call runs on a frame, which has a new closure for each prototype,
  and they see its cells.  For any other closure of what a call runs on it depends on whether the
  last call on that has ended since the closure was made (`Follows`).
* `renewal_outdates_closures`: a closure that was made for the first call is run by the second one,
  with the variables of the first.

What one operation does to a closure that sees the cells of an activation, or is outdated, is
`Ages.sees`, `Ages.renews` and `Ages.outdated`; `Balanced.follows` is the induction over a run.
-/

namespace ScriptCore

/-- No frame shares the slot of a prototype. -/
def CodeUnit.OwnsPrototypes (x : CodeUnit) : Prop :=
  ∀ (i : Nat) (n : PadName), x.slots[i]? = some (some n) → n.nested?.isSome = true →
    n.sharedByFrames = false

namespace PadName
variable {n n' : Option PadName}

theorem rel_outerSlot? (rel : Option.Rel Same n n') :
    n'.bind (·.outerSlot?) = n.bind (·.outerSlot?) := by
  cases rel with
  | none => rfl
  | some same => exact same.outerSlot?

theorem rel_nested? (rel : Option.Rel Same n n') :
    n'.bind (·.nested?) = n.bind (·.nested?) := by
  cases rel with
  | none => rfl
  | some same => exact same.nested?

theorem rel_isPlain (rel : Option.Rel Same n n') : n'.any (·.isPlain) = n.any (·.isPlain) := by
  cases rel with
  | none => rfl
  | some same => exact same.isPlain

end PadName

namespace CodeUnit
variable {x y : CodeUnit}

theorem OwnsPrototypes.redeclared (h : x.OwnsPrototypes) (same : x.Redeclares y) :
    y.OwnsPrototypes := by
  intro i n' hn' nested
  obtain ⟨n, hn, alike⟩ := same.slot_inv hn'
  have own := h i n hn (alike.nested? ▸ nested)
  unfold PadName.sharedByFrames at own ⊢
  rw [alike.isCaptured, alike.declarator, own]

theorem OwnsPrototypes.addSlot {n : Option PadName} (h : x.OwnsPrototypes)
    (new : ∀ m, n = some m → m.nested?.isSome = true → m.sharedByFrames = false) :
    (x.addSlot n).OwnsPrototypes := by
  intro i m hm nested
  rcases getElem?_addSlot_iff.mp hm with old | ⟨-, e⟩
  · exact h i m old nested
  · exact new m e.symm nested

theorem OwnsPrototypes.addOwn {n : Option PadName} (h : x.OwnsPrototypes)
    (own : PadName.IsOwn n) : (x.addSlot n).OwnsPrototypes :=
  h.addSlot fun m hm nested => by
    obtain ⟨free, my⟩ := own m hm
    simp [PadName.sharedByFrames, free, my nested, Declarator.isState, Declarator.isOur,
      Declarator.package?]

end CodeUnit

namespace Pads
open Beside

/-- Prototypes are declared for one activation, whatever is compiled. -/
theorem compiles_ownsPrototypes : Compiles fun p =>
    ∀ (u : Nat) (x : CodeUnit), p.units[u]? = some x → x.OwnsPrototypes :=
  compiles_units (fun x slots _ i n hn => by rw [slots] at hn; cases hn)
    (fun _ _ => .redeclared) (fun _ _ => .addOwn) fun x m _ _ slot h _ _ =>
      h.addSlot (n := some (m.captured slot)) fun _ e nested => by cases e; cases nested

/-- The captured slots of `y` have the cells of the slots of `o` that they stand for where those are
not plain, and other cells where they are, closures apart. -/
def Outdated (p : Pads) (y o : ActivationId) : Prop :=
  ∀ k m i j, (p.nameAt? y k).bind (·.outerSlot?) = some m →
    (p.nameAt? o m).bind (·.nested?) = none → p.cellAt? y k = some i → p.cellAt? o m = some j →
      (i = j ↔ (p.nameAt? o m).any (·.isPlain) = false)

/-- The activation that the code cell in a slot runs. -/
def runs? (s : Beside Pads) (id : ActivationId) (k : Nat) : Option ActivationId :=
  (s.own.cellAt? id k).bind fun i => (s.heap.cell? i).bind fun c =>
    match c.payload with
    | .code r => r.activation
    | _ => none

/-- A live activation that is run by the code cell in the slot of a prototype has the cells of the
plain slots that its captured slots stand for. -/
def ClosuresSee (s : Beside Pads) (f : ActivationId) : Prop :=
  ∀ k y l m i j, (s.own.nameAt? f k).any (·.nested?.isSome) = true → runs? s f k = some y →
    y ∈ s.own.handles → (s.own.nameAt? y l).bind (·.outerSlot?) = some m →
      (s.own.nameAt? f m).any (·.isPlain) = true → s.own.cellAt? y l = some i →
        s.own.cellAt? f m = some j → i = j

/-- The activation is there all along from the state after `m` to the state `n`. -/
def Serves (state : Nat → Beside Pads) (o : ActivationId) (m n : Nat) : Prop :=
  ∀ k, m < k → k ≤ n → o ∈ (state k).own.handles

/-- Between the states `m` and `n` the last call on the activation ended. -/
def RenewedIn (ops : List Op) (state : Nat → Beside Pads) (o : ActivationId) (m n : Nat) : Prop :=
  ∃ k op, m < k ∧ k < n ∧ ops[k]? = some op ∧ op.Renews (state k).own o

/-- The operation `m` made `y` in `o`, and `y` is there up to the state `n`.  If `o` is too, then
`y` sees its cells until the last call on it has ended. -/
structure Follows (ops : List Op) (state : Nat → Beside Pads) (y o : ActivationId) (m n : Nat) :
    Prop where
  lt : m < n
  new : y ∉ (state m).own.handles
  made : o ∈ (state (m + 1)).own.handles
  stays : Serves state y m n
  sees : Serves state o m n → ¬ RenewedIn ops state o m n → (state n).own.Sees y o
  outdated : Serves state o m n → RenewedIn ops state o m n → (state n).own.Outdated y o

/-! ### One operation -/

section
variable {s t : Beside Pads} {op : Op} {y o : ActivationId} {a b c d : Activation} {h₀ : Heap}
  {held : List CellId} {k m : Nat} {i j : CellId}

/-- **Captured slots keep their cells**, also when the last call on the closure ends. -/
theorem Ages.captured (w : Ages op s t) (ha : s.own.activation? y = some a)
    (hb : t.own.activation? y = some b) (slot : (t.own.nameAt? y k).bind (·.outerSlot?) = some m)
    (hi : t.own.cellAt? y k = some i) :
    (s.own.nameAt? y k).bind (·.outerSlot?) = some m ∧ s.own.cellAt? y k = some i := by
  by_cases renews : op.Renews s.own y
  · have units := w.units fun d e => by cases renews.1.symm.trans e
    have unit := congrArg Activation.Origin.unit (w.origin y a b ha hb)
    rw [nameAt?_of_unit units ha hb unit] at slot
    refine ⟨slot, ?_⟩
    rw [← (w.renewed y renews).1.kept k fun n hn => ?_, hi]
    rw [hn, Option.bind_some] at slot
    simp [PadName.isPlain, PadName.sharedByFrames, PadName.isCaptured, slot]
  · have abides := w.abides y a b ha hb renews
    exact ⟨PadName.rel_outerSlot? (abides.names k i hi) ▸ slot, abides.cells k ▸ hi⟩

/-- What sees the cells of an activation goes on to. -/
theorem Ages.sees (w : Ages op s t) (ha : s.own.activation? y = some a)
    (hb : t.own.activation? y = some b) (hc : s.own.activation? o = some c)
    (hd : t.own.activation? o = some d) (not : ¬ op.Renews s.own o) (h : s.own.Sees y o) :
    t.own.Sees y o := by
  have abides := w.abides o c d hc hd not
  refine h.mono (fun k m i => w.captured ha hb) fun m j plain hj => ?_
  exact ⟨PadName.rel_nested? (abides.names m j hj) ▸ plain, abides.cells m ▸ hj⟩

/-- What is outdated stays so. -/
theorem Ages.outdated (w : Ages op s t) (ha : s.own.activation? y = some a)
    (hb : t.own.activation? y = some b) (hc : s.own.activation? o = some c)
    (hd : t.own.activation? o = some d) (not : ¬ op.Renews s.own o) (h : s.own.Outdated y o) :
    t.own.Outdated y o := by
  have abides := w.abides o c d hc hd not
  intro k m i j slot closure hi hj
  obtain ⟨slot, hi⟩ := w.captured ha hb slot hi
  have names := abides.names m j hj
  rw [PadName.rel_isPlain names]
  exact h k m i j slot (PadName.rel_nested? names ▸ closure) hi (abides.cells m ▸ hj)

/-- **The last call ends**, and what was made in the activation is outdated. -/
theorem Ages.renews (w : Ages op s t) (bal : Balanced h₀ held s) (ha : s.own.activation? y = some a)
    (hb : t.own.activation? y = some b) (renews : op.Renews s.own o)
    (h : s.own.Sees y o ∨ s.own.Outdated y o) : t.own.Outdated y o := by
  obtain ⟨renewed, none⟩ := w.renewed o renews
  obtain ⟨c, d, hc, hd, origin, -⟩ := renewed.live
  have units := w.units fun d e => by cases renews.1.symm.trans e
  have name (m : Nat) : t.own.nameAt? o m = s.own.nameAt? o m :=
    nameAt?_of_unit units hc hd (congrArg Activation.Origin.unit origin) m
  intro k m i j slot closure hi hj
  obtain ⟨slot, hi⟩ := w.captured ha hb slot hi
  rw [name] at closure ⊢
  cases shown : (s.own.nameAt? o m).any (·.isPlain) with
  | true =>
    obtain ⟨n, hn, plain⟩ : ∃ n, s.own.nameAt? o m = some n ∧ n.isPlain = true := by
      cases hn : s.own.nameAt? o m with
      | none => rw [hn] at shown; cases shown
      | some n => exact ⟨n, rfl, by rw [hn] at shown; exact shown⟩
    refine iff_of_false ?_ Bool.noConfusion
    -- the cell in the slot is none that there was
    cases hp : s.own.cellAt? o m with
    | none => cases hj.symm.trans (none m hp)
    | some p =>
      obtain ⟨j', hj', -, new, -⟩ := renewed.plain m n p hn plain hp
      cases hj.symm.trans hj'
      exact Nat.ne_of_lt (Nat.lt_of_lt_of_le (bal.lt_size (mem_held_of_cellAt? hi)) new)
  | false =>
    rw [renewed.kept m fun n hn => by rw [hn] at shown; exact shown] at hj
    refine iff_of_true ?_ rfl
    rcases h with sees | outdated
    · exact sees k m i j slot closure hi hj
    · exact (outdated k m i j slot closure hi hj).mpr shown

end

/-! ### A frame -/

theorem ClosureAt.runs? {s t : Beside Pads} {f y : ActivationId} {k v : Nat}
    (h : ClosureAt s t f k v y) : runs? t f k = some y := by
  obtain ⟨i, name, hi, -, owners, holds⟩ := h
  unfold Pads.runs?
  rw [hi, Option.bind_some, holds]
  rfl

theorem closure_of_isPlain {n : Option PadName} (plain : n.any (·.isPlain) = true) :
    n.bind (·.nested?) = none := by
  cases n with
  | none => rfl
  | some n => exact (PadName.isPlain_iff.mp plain).2

theorem closuresSee_of_equips {s t : Beside Pads} {f : ActivationId}
    (equips : ∀ k n v, t.own.nameAt? f k = some n → n.nested? = some v → Equips s t f k v) :
    ClosuresSee t f := by
  intro k y l m i j prototype runs _ slot plain hi hj
  cases hn : t.own.nameAt? f k with
  | none => rw [hn] at prototype; cases prototype
  | some n =>
  rw [hn] at prototype
  obtain ⟨v, hv⟩ := Option.isSome_iff_exists.mp prototype
  obtain ⟨y', a, closure, -, -, -, sees⟩ := equips k n v hn hv
  cases closure.runs?.symm.trans runs
  exact sees l m i j slot (closure_of_isPlain plain) hi hj

/-! ### Runs -/

section
variable {ops : List Op} {state : Nat → Beside Pads} {y o : ActivationId} {m n : Nat}

theorem Serves.before (h : Serves state o m (n + 1)) : Serves state o m n :=
  fun k lt le => h k lt (Nat.le_succ_of_le le)

theorem Serves.succ (h : Serves state o m n) (last : o ∈ (state (n + 1)).own.handles) :
    Serves state o m (n + 1) := by
  intro k lt le
  rcases Nat.le_succ_iff.mp le with le | rfl
  · exact h k lt le
  · exact last

/-- The last call ended before, or with the last operation. -/
theorem renewedIn_succ {op : Op} (lt : m < n) (hop : ops[n]? = some op) :
    RenewedIn ops state o m (n + 1) ↔
      RenewedIn ops state o m n ∨ op.Renews (state n).own o := by
  constructor
  · rintro ⟨k, op', first, le, hop', renews⟩
    rcases Nat.lt_succ_iff_lt_or_eq.mp le with le | rfl
    · exact .inl ⟨k, op', first, le, hop', renews⟩
    · cases hop.symm.trans hop'
      exact .inr renews
  · rintro (⟨k, op', first, le, hop', renews⟩ | renews)
    · exact ⟨k, op', first, Nat.lt_succ_of_lt le, hop', renews⟩
    · exact ⟨n, op, lt, Nat.lt_succ_self n, hop, renews⟩

end

section
variable {h₀ : Heap} {s : Host} {ops : List Op} {y o : ActivationId} {a : Activation} {m n : Nat}

/-- What is new follows from now on. -/
theorem Ages.follows {op : Op} (state : Nat → Beside Pads) (w : Ages op (state n) (state (n + 1)))
    (new : (state n).own.activation? y = none)
    (ha : (state (n + 1)).own.activation? y = some a) (own : a.base = none)
    (outer : a.outer = some o) : Follows ops state y o n (n + 1) := by
  obtain ⟨there, sees⟩ := w.births y a o new ha own outer
  refine ⟨Nat.lt_succ_self n, fun mem => ?_, mem_handles.mpr there, fun k lt le => ?_,
    fun _ _ => sees, fun _ renewed => ?_⟩
  · obtain ⟨_, e⟩ := mem_handles.mp mem
    cases new.symm.trans e
  · obtain rfl : k = n + 1 := by omega
    exact mem_handles.mpr ⟨a, ha⟩
  · obtain ⟨k, _, lt, le, -⟩ := renewed
    omega

/-- One operation more. -/
theorem Follows.step {op : Op} {state : Nat → Beside Pads} {held : List CellId} {d : Activation}
    (f : Follows ops state y o m n) (w : Ages op (state n) (state (n + 1)))
    (b : Balanced h₀ held (state n)) (hop : ops[n]? = some op)
    (hd : (state n).own.activation? y = some d)
    (ha : (state (n + 1)).own.activation? y = some a) : Follows ops state y o m (n + 1) := by
  have before (served : Serves state o m (n + 1)) :
      (∃ c, (state n).own.activation? o = some c) ∧
        ∃ c, (state (n + 1)).own.activation? o = some c :=
    ⟨mem_handles.mp (served n f.lt (Nat.le_succ n)),
      mem_handles.mp (served (n + 1) (Nat.lt_succ_of_lt f.lt) (Nat.le_refl _))⟩
  refine ⟨Nat.lt_succ_of_lt f.lt, f.new, f.made, f.stays.succ (mem_handles.mpr ⟨a, ha⟩),
    fun served still => ?_, fun served renewed => ?_⟩
  · obtain ⟨⟨c, hc⟩, e, he⟩ := before served
    rw [renewedIn_succ f.lt hop, not_or] at still
    exact w.sees hd ha hc he still.2 (f.sees served.before still.1)
  · obtain ⟨⟨c, hc⟩, e, he⟩ := before served
    rw [renewedIn_succ f.lt hop] at renewed
    by_cases last : op.Renews (state n).own o
    · refine w.renews b hd ha last ?_
      by_cases earlier : RenewedIn ops state o m n
      · exact .inr (f.outdated served.before earlier)
      · exact .inl (f.sees served.before earlier)
    · exact w.outdated hd ha hc he last
        (f.outdated served.before (renewed.resolve_right last))

/-- **Every closure follows** the activation that it was made in, from the operation on that made
it. -/
theorem Balanced.follows (b : Balanced h₀ s.held s.pads) (tallies : s.pads.own.Tallies)
    (empty : ∀ z, s.pads.own.activation? z = none) (le : n ≤ ops.length)
    (ha : (s.run (ops.take n)).pads.own.activation? y = some a) (own : a.base = none)
    (outer : a.outer = some o) :
    ∃ m, Follows ops (fun n => (s.run (ops.take n)).pads) y o m n := by
  induction n generalizing a with
  | zero => cases (empty y).symm.trans ha
  | succ n ih =>
    have hop := List.getElem?_eq_getElem le
    have w : Ages ops[n] (s.run (ops.take n)).pads (s.run (ops.take (n + 1))).pads := by
      rw [Host.run_take_of_getElem? hop]
      exact (b.run _).ages (b.tallies_run tallies _) _
    cases hd : (s.run (ops.take n)).pads.own.activation? y with
    | none => exact ⟨n, Ages.follows (fun n => (s.run (ops.take n)).pads) w hd ha own outer⟩
    | some d =>
      have origin := w.origin y d a hd ha
      obtain ⟨m, f⟩ := ih (Nat.le_of_succ_le le) hd
        ((congrArg Activation.Origin.base origin).symm.trans own)
        ((congrArg Activation.Origin.outer origin).symm.trans outer)
      exact ⟨m, f.step w (b.run _) hop hd ha⟩

/-- An activation that something was made in is there all along, as its handle was not given out
again. -/
theorem Follows.serves {state : Nat → Beside Pads} (f : Follows ops state y o m n)
    (turned : ∀ n, ∃ S, Turned S (state n).own (state (n + 1)).own)
    (rare : vacations (fun n => (state n).own) o.index n < 2 ^ 32)
    (live : o ∈ (state n).own.handles) : Serves state o m n := by
  intro k lt le
  have seat := (seat_eq_of_live turned rare (Nat.succ_le_of_lt lt) le f.made live).1
  obtain ⟨d, taken⟩ := mem_handles_iff_seat.mp f.made
  exact mem_handles_iff_seat.mpr ⟨d, seat.trans taken⟩

end

/-- What a call leads to is reached by it. -/
theorem reached_push {seeds : Array Seed} {supply : Supply} {pool : Nat} {ops : List Op}
    {base f : ActivationId} {t : Beside Pads}
    (pushed : push base (reached seeds supply pool ops) = .ok f t) :
    reached seeds supply pool (ops ++ [.push base]) = t := by
  have stepped : ((Host.start seeds supply pool).run ops).step (.push base) = ⟨t, _⟩ :=
    Host.step_only rfl rfl pushed
  unfold reached Host.run at stepped ⊢
  rw [List.foldl_append, List.foldl_cons, List.foldl_nil, stepped]

/-- **Closures of a call.**  A call during a call runs on a frame, which has a new closure for each
prototype, and all of them see its cells.  Any closure of what a call runs on sees its cells as long
as the last call on that has not ended since the closure was made, and is outdated when it has; what
it was made in was there all along, unless the place of that was vacated 2³² times. -/
theorem run_closures (seeds : Array Seed) (supply : Supply) (pool : Nat) (ops : List Op)
    {base f : ActivationId} {t : Beside Pads}
    (pushed : push base (reached seeds supply pool ops) = .ok f t) :
    let all := ops ++ [.push base]
    let state n := reached seeds supply pool (all.take n)
    reached seeds supply pool all = t ∧
      (f ≠ base → ClosuresSee t f ∧ ∀ k n v, t.own.nameAt? f k = some n → n.nested? = some v →
        Equips (reached seeds supply pool ops) t f k v) ∧
      ∀ y a, t.own.activation? y = some a → a.base = none → a.outer = some f →
        ∃ m, Follows all state y f m all.length ∧
          (vacations (fun n => (state n).own) f.index all.length < 2 ^ 32 →
            Serves state f m all.length) := by
  intro all state
  have b := balanced_start seeds supply pool
  have tallies := tallies_start seeds supply pool
  have ended := Ends.result (ends_push (b.run ops) base) pushed
  have last : state all.length = t := by
    show reached seeds supply pool (all.take all.length) = t
    rw [List.take_length]
    exact reached_push pushed
  refine ⟨reached_push pushed, fun frame => ?_, fun y a ha own outer => ?_⟩
  · have equips : ∀ k n v, t.own.nameAt? f k = some n → n.nested? = some v →
        Equips (reached seeds supply pool ops) t f k v := by
      intro k n v hn nested
      refine ended.2.equips frame k n v hn ?_ nested
      have owns := compiles_ownsPrototypes.run b tallies nofun ops
      obtain ⟨a, -, hn⟩ := Option.bind_eq_some_iff.mp hn
      obtain ⟨x, hx, hn⟩ := Option.bind_eq_some_iff.mp hn
      rw [ended.2.units] at hx
      exact owns a.unit x hx k n (Option.join_eq_some_iff.mp hn) (by rw [nested]; rfl)
    exact ⟨closuresSee_of_equips equips, equips⟩
  · rw [← last] at ha
    obtain ⟨m, follows⟩ := b.follows tallies (fun z => rfl) (Nat.le_refl _) ha own outer
    refine ⟨m, follows, fun rare => ?_⟩
    have turned := turned_of_steps (fun n => (Host.start seeds supply pool).run (all.take n)) b
      tallies fun _ => Host.run_steps _
    refine follows.serves turned rare ?_
    show f ∈ (state all.length).own.handles
    rw [last]
    exact ((b.run ops).issues.push base f t pushed).2

/-- A unit with a variable, and in it one that captures it and has a prototype there. -/
def capturing : List Op :=
  [.compile (.openUnit none none), .compile (.declare 0 "x" .scalar .my),
    .compile (.introduce 0), .compile (.openUnit none (some 0)),
    .compile (.lookup 1 "x" .scalar), .compile (.addPrototype 0 1), .activate 0 none,
    .push ⟨0, 0⟩]

/-- The handle that a call would run on. -/
def called? (base : ActivationId) (s : Beside Pads) : Option ActivationId :=
  match push base s with
  | .ok id _ => some id
  | .error _ _ => none

theorem exists_of_called? {base f : ActivationId} {s : Beside Pads} (h : called? base s = some f) :
    ∃ t, push base s = .ok f t := by
  unfold called? at h
  split at h
  · rename_i t e
    cases h
    exact ⟨t, e⟩
  · cases h

/-- A call during a call, with a closure of its own. -/
theorem run_closures_frame :
    let s := reached #[] {} 0 capturing
    ∃ t, push ⟨0, 0⟩ s = .ok ⟨2, 0⟩ t ∧ Equips s t ⟨2, 0⟩ 1 1 := by
  intro s
  have called : called? ⟨0, 0⟩ s = some ⟨2, 0⟩ := by decide +kernel
  obtain ⟨t, pushed⟩ := exists_of_called? called
  obtain ⟨last, frame, -⟩ := run_closures #[] {} 0 capturing pushed
  have name : ((reached #[] {} 0 (capturing ++ [.push ⟨0, 0⟩])).own.nameAt? ⟨2, 0⟩ 1).bind
      (·.nested?) = some 1 := by decide +kernel
  rw [last] at name
  obtain ⟨n, hn, nested⟩ := Option.bind_eq_some_iff.mp name
  exact ⟨t, pushed, (frame (by decide)).2 1 n 1 hn nested⟩

/-- **The end of the last call outdates closures.**  The second call runs on the activation itself,
whose prototype slot still has the closure of the first; and that has the variable of the first. -/
theorem renewal_outdates_closures :
    ∃ t, push ⟨0, 0⟩ (reached #[] {} 0 (capturing ++ [.pop ⟨0, 0⟩])) = .ok ⟨0, 0⟩ t ∧
      ¬ ClosuresSee t ⟨0, 0⟩ := by
  have called : called? ⟨0, 0⟩ (reached #[] {} 0 (capturing ++ [.pop ⟨0, 0⟩])) = some ⟨0, 0⟩ := by
    decide +kernel
  obtain ⟨t, pushed⟩ := exists_of_called? called
  refine ⟨t, pushed, fun sees => ?_⟩
  rw [← reached_push pushed] at sees
  have same := sees 1 ⟨1, 0⟩ 0 0 0 3 (by decide +kernel) (by decide +kernel) (by decide +kernel)
    (by decide +kernel) (by decide +kernel) (by decide +kernel) (by decide +kernel)
  cases same

end Pads

end ScriptCore
