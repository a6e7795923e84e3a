import ScriptCore.Proofs.Heap.Host
import ScriptCore.Proofs.Pad.Frames
import ScriptCore.Proofs.Pad.Nesting

/-!
# Pad — hosts that compile and run

A host compiles units, activates them, calls them, and does to their cells and to others whatever
a host of a heap may do (`Host.step`).  Pads stay balanced along every run (`Balanced.run`).

* `run_activate`: at any time of any run, a unit can be activated exactly if it is there and the
  outer activation is none, or a live one of the unit around it.  The new activation is a clone,
  its cells are its own but for those it captures, and no other activation changes.
-/

namespace ScriptCore

namespace Pads
open Beside

/-! ### Calls -/

section
variable {h₀ : Heap} {out : List CellId}

theorem keeps_push (base : ActivationId) : Keeps (Balanced h₀ out) (push base) :=
  Keeps.of_ends fun _ b => (ends_push b base).imp (fun _ _ q => q.1) fun _ e => e.1 ▸ b

/-- **A closure** is handed over with an activation of its own, and the others stay.  All that is
new sees the cells of what it was made in. -/
theorem ends_makeClosure {s : Beside Pads} (b : Balanced h₀ out s) (u : Nat)
    (outer : Option ActivationId) :
    Ends (makeClosure u outer) s (fun i t => Balanced h₀ (i :: out) t ∧
      t.own.units = s.own.units ∧
      (∀ z a, s.own.activation? z = some a → t.own.activation? z = some a) ∧
      Births s.own t.own ∧ ∃ name id, t.heap.Holds i (closureCell name u id) ∧
        s.own.activation? id = none ∧ ∃ a, t.own.activation? id = some a) (· = s) := by
  refine ((ends_activate b u outer).imp (fun _ _ q => q.2) fun _ e => e.2).bind ?_
  intro id t activates
  obtain ⟨child, clone⟩ := activates.cloned.clone
  obtain ⟨a, x, ha, hx, -⟩ := clone.live
  refine (ends_closureOf activates.balanced hx ha).imp ?_ fun _ e => e
  rintro _ u ⟨rfl, heap, w, b⟩
  have alike := w.alike rfl rfl
  refine ⟨b, w.units.trans activates.grown.units, fun z c hz => ?_, fun z c o hs hc _ ho => ?_,
    x.name, id, ?_, clone.new, _, w.after⟩
  · rw [w.others z, activates.grown.live z c hz]
    rintro rfl
    cases clone.new.symm.trans hz
  · obtain ⟨d, hd, outer⟩ := w.outer_inv rfl hc
    obtain ⟨⟨e, he⟩, sees⟩ := activates.grown.sees z d o hs hd (outer.trans ho)
    obtain ⟨e', he'⟩ := w.live he
    exact ⟨⟨e', he'⟩, sees.of_alike (alike z) (alike o)⟩
  · rw [heap]
    exact Heap.holds_allocate _ _

theorem leads_makeClosure (u : Nat) (outer : Option ActivationId) :
    Leads (Balanced h₀ out) (makeClosure u outer) (fun i => Balanced h₀ (i :: out))
      (Balanced h₀ out) :=
  Leads.of_ends fun _ b => (ends_makeClosure b u outer).imp (fun _ _ q => q.1) fun _ e => e ▸ b

end

/-! ### Hosts -/

/-- What a host may do to pads and to the cells that it has handles on. -/
inductive Op
  | compile (d : Directive)
  | activate (u : Nat) (outer : Option ActivationId)
  | makeClosure (u : Nat) (outer : Option ActivationId)
  | push (base : ActivationId)
  | pop (id : ActivationId)
  | release (id : ActivationId)
  | sweep
  | cell (id : ActivationId) (slot : Nat)
  | onHeap (op : Heap.Op)

namespace Op

/-- The cells that an operation names. -/
def named : Op → List CellId
  | onHeap op => op.named
  | _ => []

/-- Does something that hands over no handle. -/
def only {α : Type} (held : List CellId) (x : OnPads α) : OnPads (List CellId) := do
  discard x
  return held

/-- Carries out an operation for a host with some handles, and gives the handles it has then. -/
def act (held : List CellId) : Op → OnPads (List CellId)
  | compile d => only held d.perform
  | activate u outer => only held (Pads.activate u outer)
  | makeClosure u outer => do return (← Pads.makeClosure u outer) :: held
  | push base => only held (Pads.push base)
  | pop id => only held (Pads.pop id)
  | release id => only held (Pads.release id)
  | sweep => only held Pads.sweep
  | cell id slot => do
    let i ← Pads.cell id slot
    Heap.Op.takeHold held (some i)
  | onHeap op => op.act held

end Op

/-- Pads beside a heap, and the handles of their host. -/
structure Host where
  pads : Beside Pads
  held : List CellId

namespace Host

/-- A host after an operation.  One that names a cell it has no handle on is not carried out, and
one that fails leaves it the handles it had. -/
def step (s : Host) (op : Op) : Host :=
  if ∀ i ∈ op.named, i ∈ s.held then
    match op.act s.held s.pads with
    | .ok held pads => ⟨pads, held⟩
    | .error _ pads => { s with pads }
  else s

/-- A host after operations, whether they failed or not. -/
def run (s : Host) (ops : List Op) : Host := ops.foldl step s

/-- A host with pools of the given seeds and no units, whose names go to one of the pools. -/
def start (seeds : Array Seed) (supply : Supply) (pool : Nat) : Host :=
  ⟨⟨{ ring := .ofSeeds seeds supply }, inPool (.ofSeeds seeds supply) pool⟩, []⟩

end Host

/-- The pads of a host that did this and that. -/
def reached (seeds : Array Seed) (supply : Supply) (pool : Nat) (ops : List Op) : Beside Pads :=
  ((Host.start seeds supply pool).run ops).pads

section
variable {h₀ : Heap} {held : List CellId} {s t : Beside Pads} {id : ActivationId} {u : Nat}
  {outer : Option ActivationId}

theorem leads_only {α : Type} {x : OnPads α} (hx : Keeps (Balanced h₀ held) x) :
    Leads (Balanced h₀ held) (Op.only held x) (fun held => Balanced h₀ held)
      (Balanced h₀ held) :=
  Leads.bind hx.discard fun _ => Leads.pure fun _ b => b

theorem keeps_activate (u : Nat) (outer : Option ActivationId) :
    Keeps (Balanced h₀ held) (activate u outer) :=
  Keeps.of_ends fun _ b =>
    (ends_activate b u outer).imp (fun _ _ q => q.2.balanced) fun _ e => e.2 ▸ b

/-- **One operation** keeps the balance. -/
theorem leads_act (op : Op) (named : ∀ i ∈ op.named, i ∈ held) :
    Leads (Balanced h₀ held) (op.act held) (fun held => Balanced h₀ held)
      (Balanced h₀ held) := by
  cases op with
  | compile d => exact leads_only (keeps_directive d)
  | activate u outer => exact leads_only (keeps_activate u outer)
  | makeClosure u outer =>
    exact (leads_makeClosure u outer).bind fun _ => Leads.pure fun _ b => b
  | push base => exact leads_only (keeps_push base)
  | pop id => exact leads_only (keeps_pop id)
  | release id => exact leads_only (keeps_release id)
  | sweep => exact leads_only keeps_sweep
  | cell id slot =>
    refine (leads_cell id slot).bind fun i => Leads.of_ends fun s ⟨b, hi⟩ => b.onHeap ?_
    refine b.kept.takeHold fun j hj => b.kept.alive (List.mem_append_right _ ?_)
    exact Option.some.inj hj ▸ hi
  | onHeap op => exact Leads.of_ends fun s b => b.onHeap ((Heap.leads_act _ op named).ends b.kept)

/-! ### Runs -/

theorem balanced_start (seeds : Array Seed) (supply : Supply) (pool : Nat) :
    Balanced (Host.start seeds supply pool).pads.heap (Host.start seeds supply pool).held
      (Host.start seeds supply pool).pads where
  formed :=
    { nested := wellNested_inPool _ pool
      nests := fun u x v hx => by cases hx
      fits := fun id a ha => by cases ha
      vacant := ⟨.nil, nofun⟩ }
  kept := Heap.kept_start seeds supply

/-- What an operation leaves is left by a host's step, if it holds where none is carried out. -/
theorem Host.of_step {s : Host} {op : Op} {P : List CellId → Beside Pads → Prop}
    (acts : (∀ i ∈ op.named, i ∈ s.held) → Ends (op.act s.held) s.pads P (P s.held))
    (idle : (¬ ∀ i ∈ op.named, i ∈ s.held) → P s.held s.pads) :
    P (s.step op).held (s.step op).pads := by
  unfold Host.step
  split
  · rename_i named
    have ended := acts named
    unfold Ends at ended
    split <;> rename_i e <;> rw [e] at ended <;> exact ended
  · rename_i unnamed
    exact idle unnamed

theorem Balanced.step {s : Host} (b : Balanced h₀ s.held s.pads) (op : Op) :
    Balanced h₀ (s.step op).held (s.step op).pads :=
  Host.of_step (P := Balanced h₀) (fun named => (leads_act op named).ends b) fun _ => b

/-- **Every run** keeps the balance. -/
theorem Balanced.run {s : Host} (b : Balanced h₀ s.held s.pads) (ops : List Op) :
    Balanced h₀ (s.run ops).held (s.run ops).pads := by
  induction ops generalizing s with
  | nil => exact b
  | cons op ops ih => exact ih (b.step op)

/-- What activating a unit makes of the pads: a new activation that is a clone, with the very
cells of the outer one in its captured slots.  The cell of a slot that is not captured is shared
with none but captured slots of new activations that lead to it.  What was there is as it was. -/
structure Activated (s t : Beside Pads) (u : Nat) (outer : Option ActivationId)
    (id : ActivationId) : Prop where
  cloned : Cloned s t u outer id
  captured : ∀ k n m o i, t.own.nameAt? id k = some n → n.outerSlot? = some m →
    outer = some o → s.own.cellAt? o m = some i → t.own.cellAt? id k = some i
  alone : ∀ x k i, s.own.activation? x = none → t.own.cellAt? x k = some i →
    (∀ n, t.own.nameAt? x k = some n → n.outerSlot? = none) →
      (∀ y m, t.own.cellAt? y m = some i → s.own.activation? y = none ∧ t.own.Traces y m x k) ∧
        (t.heap.cell i).owners = t.own.held.count i
  units : t.own.units = s.own.units
  activations : ∀ x a, s.own.activation? x = some a → t.own.activation? x = some a
  cells : ∀ i c, s.heap.Holds i c → t.heap.Holds i c

/-- **Activation.**  A unit can be activated exactly if it is there and the outer activation, if
there is one, is a live one of the unit around it.  That gives a clone, and where it fails nothing
changes. -/
theorem Balanced.activates (b : Balanced h₀ held s) (u : Nat) (outer : Option ActivationId) :
    ((∃ id t, activate u outer s = .ok id t) ↔ s.own.Admits u outer) ∧
      (∀ id t, activate u outer s = .ok id t → Activated s t u outer id) ∧
      ∀ e t, activate u outer s = .error e t → t = s := by
  have ended := ends_activate b u outer
  unfold Ends at ended
  cases result : activate u outer s with
  | ok id t =>
    rw [result] at ended
    obtain ⟨admits, a⟩ := ended
    refine ⟨⟨fun _ => admits, fun _ => ⟨id, t, rfl⟩⟩, fun id t e => ?_, fun f t e => ?_⟩
    · cases e
      exact ⟨a.cloned, a.lent, fun x k i new hi own => a.alone b new hi own, a.grown.units,
        a.grown.live, a.grown.heap.old⟩
    · cases e
  | error f t =>
    rw [result] at ended
    obtain ⟨refused, same⟩ := ended
    refine ⟨⟨fun ok => ?_, fun admits => absurd admits refused⟩, fun id t e => ?_, fun f t e => ?_⟩
    · obtain ⟨_, _, e⟩ := ok
      cases e
    · cases e
    · cases e
      exact same

/-- **Activation works** like that at any time of any run. -/
theorem run_activate (seeds : Array Seed) (supply : Supply) (pool : Nat) (ops : List Op) (u : Nat)
    (outer : Option ActivationId) :
    ((∃ id t, activate u outer (reached seeds supply pool ops) = .ok id t) ↔
      (reached seeds supply pool ops).own.Admits u outer) ∧
    (∀ id t, activate u outer (reached seeds supply pool ops) = .ok id t →
      Activated (reached seeds supply pool ops) t u outer id) ∧
    ∀ e t, activate u outer (reached seeds supply pool ops) = .error e t →
      t = reached seeds supply pool ops :=
  ((balanced_start seeds supply pool).run ops).activates u outer

end

end Pads

end ScriptCore
