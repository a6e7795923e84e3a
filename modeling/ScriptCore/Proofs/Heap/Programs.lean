import ScriptCore.Proofs.Heap.Bystanders

/-!
# Heap — hooks that come back to their cell

A hook is a program over its own cell: it reads and writes it, attaches and detaches, has hooks
called, and goes on as what came of that tells it, or fails.  What it does to its cell it does as
any host would, so it has hooks run again, or would have.

`Runs conduct run` says that `run` runs the hooks of cells, where `conduct` gives the program of
every attachment: the mark is set, each program is carried out with `run` itself for whatever it
does, and the mark is taken off.

* `Runs.eq_runBy`: on a marked cell nothing runs hooks, so such a `run` comes to the one whose
  programs run no hooks; and that one is such a `run` (`runs_runBy`).
* `Runs.keeps`: running the hooks of a cell spares every other one, and leaves no mark.
-/

namespace ScriptCore

namespace Heap
open Cell

/-! ### Operations that run hooks -/

/-- A way to run the hooks of a cell. -/
abbrev Runner := Phase → CellId → OnHeap Unit

/-- Runs no hook. -/
def silent : Runner := fun _ _ => pure ()

namespace Read

/-- The read converts the value, and runs hooks before it does. -/
def converts : Read → Bool
  | int _ | float _ | bytes _ | text _ | truth => true
  | numeric | defined | referent => false

/-- What a read takes from the cell, without hooks. -/
def take (i : CellId) : Read → OnHeap Sight
  | int sink => return .int (← readInt i sink)
  | float sink => return .float (← readFloat i sink)
  | bytes sink => return .bytes (← readBytes i sink)
  | text sink => return .text (← readText i sink)
  | truth => do
    let h ← get
    return .truth ((h.cell i).truth h.isAlive)
  | numeric => return .truth ((← get).cell i).looksNumeric
  | defined => return .truth ((← get).isDefined i)
  | referent => return .referent ((← get).referent? i)

/-- Carries out a read with a way to run hooks. -/
def performBy (run : Runner) (i : CellId) (r : Read) : OnHeap Sight := do
  if r.converts then run .get i
  r.take i

theorem performBy_runHooks (i : CellId) (r : Read) : r.performBy runHooks i = r.perform i := by
  cases r with
  | int sink => rw [perform, getInt, bind_assoc]; rfl
  | float sink => rw [perform, getFloat, bind_assoc]; rfl
  | bytes sink => rw [perform, getBytes, bind_assoc]; rfl
  | text sink => rw [perform, getText, bind_assoc]; rfl
  | truth => rw [perform, getTruth, bind_assoc]; rfl
  | numeric | defined | referent => rfl

end Read

/-- Carries out a write with a way to run hooks. -/
def Write.performBy (run : Runner) (i : CellId) (w : Write) : OnHeap Unit := do
  w.store i
  run .set i

theorem Write.performBy_runHooks (i : CellId) (w : Write) :
    w.performBy runHooks i = w.perform i := (w.perform_eq i).symm

/-- Takes over the value of another cell, without hooks. -/
def takeOver (i source : CellId) : OnHeap Unit := do
  let h ← get
  let c := h.cell source
  c.expectScalar
  let target := h.copiedTarget c
  let (gains, weak) : Option CellId × Bool := match target with
    | some (.strong j) => (some j, false)
    | _ => (none, c.flags.weak)
  let flags := { c.flags.copied with weak }
  assign i c.shape.room.values gains fun d =>
    { d with int := c.int, num := c.num, text := c.text, target, flags := d.flags.union flags }

/-- Copies a cell into another with a way to run hooks. -/
def copyBy (run : Runner) (i source : CellId) : OnHeap Unit := do
  if i = source then return
  run .get source
  takeOver i source
  run .set i

theorem copyBy_runHooks (i source : CellId) : copyBy runHooks i source = copyFrom i source := by
  unfold copyBy copyFrom takeOver
  split
  · rfl
  · refine bind_congr fun _ => ?_
    rw [bind_assoc]
    refine bind_congr fun h => ?_
    exact bind_assoc _ _ _

/-- What is done to a cell alone. -/
inductive OwnOp
  | read (r : Read)
  | write (w : Write)
  | attach (kind : HookKind) (hook : Hook)
  | detach (kind : HookKind)
  | callHooks (phase : Phase)
  | setReadOnly (on : Bool)
  | setTainted (on : Bool)

/-- Carries out an operation with a way to run hooks, and gives what it shows. -/
def OwnOp.performBy (run : Runner) (i : CellId) : OwnOp → OnHeap (Option Sight)
  | read r => return some (← r.performBy run i)
  | write w => do
    w.performBy run i
    return none
  | attach kind hook => do
    Heap.attach i kind hook
    return none
  | detach kind => return some (.truth (← Heap.detach i kind))
  | callHooks phase => do
    run phase i
    return none
  | setReadOnly on => do
    modify (·.setReadOnly i on)
    return none
  | setTainted on => do
    modify (·.setTainted i on)
    return none

/-! ### Programs -/

/-- A change that does not concern cells. -/
structure Aside where
  change : Heap → Heap
  cells : ∀ h, (change h).cells = h.cells

/-- What a hook does to its own cell: one thing after the other, each as what came of those before
tells it.  It may catch a fault, and fail with one. -/
inductive Program
  | done
  | fail (e : Fault)
  | act (op : OwnOp) (next : Except Fault (Option Sight) → Program)
  | look (next : Heap → Program)
  | aside (change : Aside) (next : Program)

/-- Carries out a program with a way to run hooks. -/
def Program.run (run : Runner) (i : CellId) : Program → OnHeap Unit
  | done => pure ()
  | fail e => throw e
  | act op next => do
    let seen ← attempt (op.performBy run i)
    (next seen).run run i
  | look next => do (next (← get)).run run i
  | aside a next => do
    modify a.change
    next.run run i

/-- The program of every attachment, on every cell and in every phase. -/
abbrev Conduct := Phase → CellId → Attachment → Program

/-- Runs the hooks of a cell, unless they are running, with a way to run hooks for what they do. -/
def runBy (conduct : Conduct) (run : Runner) : Runner := fun phase i => do
  let c := (← get).cell i
  if c.hooks = [] ∨ c.flags.inHooks then return
  markInHooks i true
  let result ← attempt (c.hooks.forM fun a => (conduct phase i a).run run i)
  markInHooks i false
  result

/-- The hooks of cells are run, and whatever they do has hooks run in the same way. -/
def Runs (conduct : Conduct) (run : Runner) : Prop :=
  ∀ phase i, run phase i = runBy conduct run phase i

section
variable {α β : Type} {h₀ h g : Heap} {i j : CellId} {c : Cell} {conduct : Conduct}
  {run : Runner}

/-! ### On a marked cell -/

/-- The cell is marked as having its hooks run, or has gone. -/
def Marked (i : CellId) (h : Heap) : Prop := ∀ c, h.cell? i = some c → c.flags.inHooks = true

theorem Marked.spares (m : Marked i h) (s : h.Spares i g) : Marked i g := by
  intro d hd
  obtain ⟨c, hc, same⟩ := s.mark d hd
  exact same.trans (m c hc)

/-- What spares all cells but one leaves the mark on that. -/
theorem keeps_marked {x : OnHeap α} (spares : ∀ h₀, Keeps (Spares i h₀) x) :
    Keeps (Marked i) x := fun h m =>
  ((spares h).ends (.refl i h)).imp (fun _ _ s => m.spares s) fun _ s => m.spares s

/-- Both come to the same, from a heap with `P`. -/
def AgreeOn (P : Heap → Prop) (x y : OnHeap α) : Prop := ∀ h, P h → x h = y h

theorem AgreeOn.refl (P : Heap → Prop) (x : OnHeap α) : AgreeOn P x x := fun _ _ => rfl

theorem AgreeOn.bind {P : Heap → Prop} {x y : OnHeap α} {f g : α → OnHeap β}
    (same : AgreeOn P x y) (keeps : Keeps P y) (rest : ∀ a, AgreeOn P (f a) (g a)) :
    AgreeOn P (x >>= f) (y >>= g) := by
  intro h hP
  have kept := keeps.ends hP
  cases e : y h with
  | ok a k => rw [bind_ok ((same h hP).trans e), bind_ok e, rest a k (kept.result e)]
  | error e' k => rw [bind_error ((same h hP).trans e), bind_error e]

theorem AgreeOn.attempt {P : Heap → Prop} {x y : OnHeap α} (same : AgreeOn P x y) :
    AgreeOn P (attempt x) (attempt y) := by
  intro h hP
  unfold ScriptCore.attempt
  rw [same h hP]

theorem AgreeOn.forM {P : Heap → Prop} {f g : α → OnHeap Unit} (same : ∀ a, AgreeOn P (f a) (g a))
    (keeps : ∀ a, Keeps P (g a)) (l : List α) : AgreeOn P (l.forM f) (l.forM g) := by
  induction l with
  | nil => exact .refl P _
  | cons a l ih => exact (same a).bind (keeps a) fun _ => ih

/-- On a marked cell no hook runs. -/
def Still (run : Runner) : Prop := ∀ phase i h, Marked i h → run phase i h = .ok () h

theorem still_runBy (conduct : Conduct) (run : Runner) : Still (runBy conduct run) := by
  intro phase i h m
  have rests : (h.cell i).hooks = [] ∨ (h.cell i).flags.inHooks := by
    cases hc : h.cell? i with
    | none =>
      refine .inl ?_
      rw [cell, hc]
      rfl
    | some c =>
      rw [cell_eq hc]
      exact .inr (m c hc)
  rw [runBy, bind_get, if_pos rests]
  rfl

/-! ### What programs do -/

/-- What a read keeps, if its hooks keep it. -/
theorem Read.keeps_performBy {P : Heap → Prop} {r : Read} (hooks : Keeps P (run .get i))
    (taken : Keeps P (r.take i)) : Keeps P (r.performBy run i) := by
  unfold Read.performBy
  split
  · exact hooks.bind fun _ => taken
  · exact taken

theorem Spares.keeps_take (r : Read) : Keeps (Spares i h₀) (r.take i) := by
  cases r with
  | int sink => exact ((converting i h₀).readInt sink).bind fun _ => Keeps.pure _
  | float sink => exact ((converting i h₀).readFloat sink).bind fun _ => Keeps.pure _
  | bytes sink => exact ((converting i h₀).readBytes sink).bind fun _ => Keeps.pure _
  | text sink => exact ((converting i h₀).readText sink).bind fun _ => Keeps.pure _
  | truth | numeric | defined | referent => exact Keeps.read fun _ s => s

theorem Spares.keeps_takeOver (source : CellId) : Keeps (Spares i h₀) (takeOver i source) := by
  refine Keeps.read fun h s => Ends.outcome (fun _ _ => ?_) s
  refine Keeps.ends (keeps_assign fun c => ?_) s
  exact Bool.or_false c.flags.inHooks

/-- **What is done to a cell** spares the others, if running its hooks does. -/
theorem Spares.keeps_performBy (runs : ∀ phase, Keeps (Spares i h₀) (run phase i)) (op : OwnOp) :
    Keeps (Spares i h₀) (op.performBy run i) := by
  cases op with
  | read r => exact (Read.keeps_performBy (runs .get) (keeps_take r)).bind fun _ => Keeps.pure _
  | write w => exact ((keeps_store w).bind fun _ => runs .set).bind fun _ => Keeps.pure _
  | attach kind hook => exact (keeps_attach kind hook).bind fun _ => Keeps.pure _
  | detach kind => exact (keeps_detach kind).bind fun _ => Keeps.pure _
  | callHooks phase => exact (runs phase).bind fun _ => Keeps.pure _
  | setReadOnly on => exact (keeps_setReadOnly on).bind fun _ => Keeps.pure _
  | setTainted on => exact (keeps_setTainted on).bind fun _ => Keeps.pure _

theorem Spares.keeps_silent (phase : Phase) : Keeps (Spares i h₀) (silent phase i) := Keeps.pure _

/-- **A program** spares all cells but its own. -/
theorem Spares.keeps_program (p : Program) : Keeps (Spares i h₀) (p.run silent i) := by
  induction p with
  | done => exact Keeps.pure _
  | fail e => exact Keeps.throw e
  | act op next ih =>
    exact Keeps.bind (keeps_performBy keeps_silent op).attempt fun seen => ih seen
  | look next ih => exact Keeps.read fun h s => (ih h).ends s
  | aside a next ih => exact (keeps_beside a.cells).bind fun _ => ih

/-- What a hook does to its cell runs no hooks. -/
theorem Still.performBy (still : Still run) (op : OwnOp) :
    AgreeOn (Marked i) (op.performBy run i) (op.performBy silent i) := by
  have quiet (phase : Phase) : AgreeOn (Marked i) (run phase i) (silent phase i) :=
    fun h m => still phase i h m
  cases op with
  | read r =>
    refine AgreeOn.bind ?_ (keeps_marked fun _ => ?_) fun _ => .refl _ _
    · unfold Read.performBy
      split
      · exact (quiet .get).bind (Keeps.pure _) fun _ => .refl _ _
      · exact .refl _ _
    · exact Read.keeps_performBy (Spares.keeps_silent .get) (Spares.keeps_take r)
  | write w =>
    have stored := keeps_marked (i := i) fun _ => Spares.keeps_store w
    refine AgreeOn.bind ?_ (stored.bind fun _ => Keeps.pure _) fun _ => .refl _ _
    exact (AgreeOn.refl _ _).bind stored fun _ => quiet .set
  | callHooks phase => exact (quiet phase).bind (Keeps.pure _) fun _ => .refl _ _
  | attach kind hook | detach kind | setReadOnly on | setTainted on => exact .refl _ _

/-- **A hook that comes back** to its cell runs no hooks there, whatever it does. -/
theorem Still.program (still : Still run) (p : Program) :
    AgreeOn (Marked i) (p.run run i) (p.run silent i) := by
  induction p with
  | done => exact .refl _ _
  | fail e => exact .refl _ _
  | act op next ih =>
    refine (still.performBy op).attempt.bind (Keeps.attempt ?_) fun seen => ih seen
    exact keeps_marked fun _ => Spares.keeps_performBy Spares.keeps_silent op
  | look next ih => exact fun h m => ih h h m
  | aside a next ih =>
    exact (AgreeOn.refl _ _).bind (keeps_marked fun _ => Spares.keeps_beside a.cells) fun _ => ih

/-! ### Running the hooks of a cell -/

/-- The heap with the mark of a cell set, or taken off. -/
def mark (h : Heap) (i : CellId) (on : Bool) : Heap :=
  h.updateCell i fun c => { c with flags := { c.flags with inHooks := on } }

theorem mark_eq_setCell (hc : h.cell? i = some c) (on : Bool) :
    h.mark i on = h.setCell i { c with flags := { c.flags with inHooks := on } } := by
  rw [mark, updateCell, cell_eq hc]

theorem markInHooks_eq (h : Heap) (i : CellId) (on : Bool) :
    markInHooks i on h = .ok () (h.mark i on) := rfl

/-- What a cell is after its mark was changed. -/
theorem cell?_mark (h : Heap) (i : CellId) (on : Bool) (j : CellId) :
    (h.mark i on).cell? j = (h.cell? j).map fun c =>
      { c with flags := { c.flags with inHooks := if i = j then on else c.flags.inHooks } } := by
  cases hi : h.cell? i with
  | none =>
    rw [mark, updateCell, setCell_gone hi]
    by_cases same : i = j
    · rw [← same, hi]
      rfl
    · simp only [if_neg same]
      cases h.cell? j <;> rfl
  | some c =>
    rw [mark_eq_setCell hi, cell?_setCell, isAlive, hi]
    by_cases same : i = j
    · rw [if_pos ⟨same, rfl⟩, ← same, hi, Option.map_some, if_pos rfl]
    · rw [if_neg fun e => same e.1]
      simp only [if_neg same]
      cases h.cell? j <;> rfl

theorem marked_mark (i : CellId) (h : Heap) : Marked i (h.mark i true) := by
  intro d hd
  rw [cell?_mark] at hd
  obtain ⟨c, -, rfl⟩ := Option.map_eq_some_iff.mp hd
  exact if_pos rfl

/-- Between the mark and its removal only the cell itself changes. -/
theorem Spares.unmark (clear : ∀ c, h.cell? i = some c → c.flags.inHooks = false)
    (s : (h.mark i true).Spares i g) : h.Spares i (g.mark i false) where
  others j d hj hd := by
    rw [cell?_mark] at hd
    obtain ⟨c, hc, rfl⟩ := Option.map_eq_some_iff.mp hd
    obtain ⟨n, hn⟩ := s.others j c hj hc
    rw [cell?_mark] at hn
    obtain ⟨b, hb, same⟩ := Option.map_eq_some_iff.mp hn
    simp only [if_neg (Ne.symm hj)] at same ⊢
    exact ⟨n, same ▸ hb⟩
  mark d hd := by
    rw [cell?_mark] at hd
    obtain ⟨c, hc, rfl⟩ := Option.map_eq_some_iff.mp hd
    obtain ⟨b, hb, -⟩ := s.mark c hc
    rw [cell?_mark] at hb
    obtain ⟨e, he, -⟩ := Option.map_eq_some_iff.mp hb
    exact ⟨e, he, (if_pos rfl).trans (clear e he).symm⟩

theorem Spares.keeps_hooks (conduct : Conduct) (phase : Phase) (as : List Attachment) :
    Keeps (Spares i h₀) (as.forM fun a => (conduct phase i a).run silent i) :=
  Keeps.forM (fun _ => keeps_program _) as

/-- **Running the hooks of a cell** spares the others, and leaves the mark as it was. -/
theorem Spares.keeps_runBy (conduct : Conduct) (phase : Phase) :
    Keeps (Spares i h₀) (runBy conduct silent phase i) := by
  refine Keeps.read fun h s => ?_
  dsimp only
  split
  · exact s
  · rename_i open_
    have clear : ∀ c, h.cell? i = some c → c.flags.inHooks = false := fun c hc => by
      rw [cell_eq hc] at open_
      exact Bool.eq_false_iff.mpr fun marked => open_ (.inr marked)
    refine Ends.step (markInHooks_eq h i true) ?_
    have hooks := (keeps_hooks conduct phase (h.cell i).hooks).ends (.refl i (h.mark i true))
    refine hooks.attempt.bind fun result g between => ?_
    have between : (h.mark i true).Spares i g := by cases result <;> exact between
    refine Ends.step (markInHooks_eq g i false) ?_
    exact (Keeps.outcome result).ends (s.trans (between.unmark clear))

theorem Still.runBy_eq (still : Still run) (conduct : Conduct) :
    runBy conduct run = runBy conduct silent := by
  funext phase i h
  unfold runBy
  rw [bind_get, bind_get]
  split
  · rfl
  · rw [bind_ok (markInHooks_eq h i true), bind_ok (markInHooks_eq h i true)]
    have hooks : AgreeOn (Marked i)
        ((h.cell i).hooks.forM fun a => (conduct phase i a).run run i)
        ((h.cell i).hooks.forM fun a => (conduct phase i a).run silent i) :=
      .forM (fun _ => still.program _) (fun _ => keeps_marked fun _ => Spares.keeps_program _) _
    have kept := keeps_marked (i := i) fun _ => Spares.keeps_hooks conduct phase (h.cell i).hooks
    exact hooks.attempt.bind kept.attempt (fun _ => .refl _ _) _ (marked_mark i h)

theorem Runs.still (runs : Runs conduct run) : Still run := by
  have eq : run = runBy conduct run := funext fun phase => funext fun i => runs phase i
  exact eq ▸ still_runBy conduct run

/-- **Hooks run once.**  What runs the hooks of cells, those that hooks would have run included,
comes to what runs none of the latter. -/
theorem Runs.eq_runBy (runs : Runs conduct run) : run = runBy conduct silent := by
  have eq : run = runBy conduct run := funext fun phase => funext fun i => runs phase i
  exact eq.trans (runs.still.runBy_eq conduct)

/-- There is a way to run hooks, whatever they do. -/
theorem runs_runBy (conduct : Conduct) : Runs conduct (runBy conduct silent) := fun phase i => by
  rw [(still_runBy conduct silent).runBy_eq conduct]

theorem Runs.keeps (runs : Runs conduct run) (phase : Phase) :
    Keeps (Spares i h₀) (run phase i) := by
  rw [runs.eq_runBy]
  exact Spares.keeps_runBy conduct phase

end

end Heap

end ScriptCore
