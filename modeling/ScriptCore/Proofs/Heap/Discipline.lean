import ScriptCore.Proofs.Heap.Calm

/-!
# Heap — the discipline of hooks

Hooks are programs over their own cell, and may do to it what a host may.  Between operations no
cell is marked, so every operation runs the hooks of its cell as if they had never run: those there
are when it starts, in order, up to the first that fails.

* `Passes`: attachments one after the other, up to the first that fails.
* `Pass`: a run of the hooks of a cell, and `Runs.pass`: there is one whenever an operation asks.
* `Disciplined`: what every operation on a cell does about its hooks.
* `Calm.perform_read`, `Calm.perform_write`: the same of the operations of the heap.
* `run_disciplined`: all cells are disciplined, whatever was done to any of them.
-/

namespace ScriptCore.Heap

/-- Attachments act one after the other, up to the first that fails: those in the second list. -/
inductive Passes (act : Attachment → OnHeap Unit) :
    List Attachment → List Attachment → Heap → Except Fault Unit → Heap → Prop
  | done (h : Heap) : Passes act [] [] h (.ok ()) h
  | next {a : Attachment} {as ran : List Attachment} {h g k : Heap} {outcome : Except Fault Unit}
      (acts : act a h = .ok () g) (rest : Passes act as ran g outcome k) :
      Passes act (a :: as) (a :: ran) h outcome k
  | fails {a : Attachment} (as : List Attachment) {h g : Heap} {e : Fault}
      (fault : act a h = .error e g) : Passes act (a :: as) [a] h (.error e) g

/-- A run of the hooks of a cell: of those there are when it starts, in their order, up to the first
that fails.  The mark is set before and gone after, and no hook runs for what they do. -/
structure Pass (conduct : Conduct) (phase : Phase) (i : CellId) (h : Heap) (ran : List Attachment)
    (outcome : Except Fault Unit) (g : Heap) : Prop where
  passes : ∃ k, Passes (fun a => (conduct phase i a).run silent i) (h.cell i).hooks ran
    (h.mark i true) outcome k ∧ g = k.mark i false
  inOrder : ran <+: (h.cell i).hooks
  all : outcome = .ok () → ran = (h.cell i).hooks
  calm : g.Calm

/-- What a write to a cell comes to: it is refused, and nothing has happened, or the value is stored
and then the set hooks of the cell run. -/
inductive Stores (conduct : Conduct) (i : CellId) (h : Heap) (store : OnHeap Unit) :
    EStateM.Result Fault Heap Unit → Prop
  | refused {e : Fault} (refuses : store h = .error e h) : Stores conduct i h store (.error e h)
  | stored {g k : Heap} {ran : List Attachment} {outcome : Except Fault Unit}
      (stores : store h = .ok () g) (bears : Bears i (h.cell i).hooks g)
      (pass : Pass conduct .set i g ran outcome k) :
      Stores conduct i h store ((liftM outcome : OnHeap Unit) k)

/-- What an operation on the cell does about hooks: a read that converts runs the get hooks before
it takes the value, a copy into another cell runs those of its source, and a write runs the set
hooks after it has stored the value.  What a hook does to its own cell runs none, and no operation
leaves a mark. -/
structure Disciplined (conduct : Conduct) (run : Runner) (i : CellId) (h : Heap) : Prop where
  reads : ∀ r : Read, r.converts = true → ∃ ran outcome g, Pass conduct .get i h ran outcome g ∧
    r.performBy run i h = (liftM outcome >>= fun _ => r.take i) g
  writes : ∀ w : Write, Stores conduct i h (w.store i) (w.performBy run i h)
  copies : ∀ source, i ≠ source → ∃ ran outcome g, Pass conduct .get source h ran outcome g ∧
    h.Spares source g ∧ (∀ e, outcome = .error e → copyBy run i source h = .error e g) ∧
      (outcome = .ok () → Stores conduct i g (takeOver i source) (copyBy run i source h))
  itself : copyBy run i i h = .ok () h
  restricted : (∃ a ∈ (h.cell i).hooks, a.hook.allowsWrite = false) →
    (∀ w : Write, w.performBy run i h = .error .readOnly h) ∧
      ∀ source, ∃ e, takeOver i source h = .error e h
  within : ∀ op : OwnOp, ∀ g, Marked i g → op.performBy run i g = op.performBy silent i g
  performed : ∀ op : OwnOp, (after (op.performBy run i) h).Calm
  copied : ∀ source, (after (copyBy run i source) h).Calm

section
variable {act : Attachment → OnHeap Unit} {as ran : List Attachment} {h g k : Heap}
  {outcome : Except Fault Unit} {i : CellId} {c : Cell} {conduct : Conduct} {run : Runner}
  {phase : Phase} {e : Fault}

/-! ### Runs of hooks -/

theorem Passes.inOrder (passes : Passes act as ran h outcome k) : ran <+: as := by
  induction passes with
  | done => exact List.nil_prefix
  | next _ _ ih => exact List.cons_prefix_cons.mpr ⟨rfl, ih⟩
  | fails as _ => exact ⟨as, rfl⟩

theorem Passes.all (passes : Passes act as ran h outcome k) (succeeds : outcome = .ok ()) :
    ran = as := by
  induction passes with
  | done => rfl
  | next _ _ ih => rw [ih succeeds]
  | fails => cases succeeds

/-- Attachments act one after the other. -/
theorem passes_forM (act : Attachment → OnHeap Unit) (as : List Attachment) (h : Heap) :
    ∃ ran outcome k, Passes act as ran h outcome k ∧ attempt (as.forM act) h = .ok outcome k := by
  induction as generalizing h with
  | nil => exact ⟨[], .ok (), h, .done h, rfl⟩
  | cons a as ih =>
    have first : (a :: as).forM act h = (act a >>= fun _ => as.forM act) h := rfl
    cases acts : act a h with
    | error e g =>
      refine ⟨[a], .error e, g, .fails as acts, ?_⟩
      rw [attempt, first, bind_error acts]
    | ok _ g =>
      obtain ⟨ran, outcome, k, passes, rest⟩ := ih g
      refine ⟨a :: ran, outcome, k, .next acts passes, ?_⟩
      rwa [attempt, first, bind_ok acts]

theorem setCell_again (hc : h.cell? i = some c) (d : Cell) : (h.setCell i d).setCell i c = h := by
  have alive : h.isAlive i = true := by rw [isAlive, hc]; rfl
  have twice : (h.setCell i d).setCell i c = h.setCell i c := by
    have there : (h.setCell i d).isAlive i = true := by
      rw [isAlive, cell?_setCell, if_pos ⟨rfl, alive⟩]
      rfl
    rw [setCell, if_pos there, setCell, if_pos alive, setCell, if_pos alive]
    simp only [Array.setIfInBounds_setIfInBounds]
  rw [twice, setCell_self hc]

/-- A mark that is set and taken off leaves nothing. -/
theorem Calm.mark_mark (calm : h.Calm) (i : CellId) : (h.mark i true).mark i false = h := by
  cases hc : h.cell? i with
  | none =>
    have gone (on : Bool) : h.mark i on = h := setCell_gone hc _
    rw [gone, gone]
  | some c =>
    have marked := mark_eq_setCell hc true
    have hd : (h.mark i true).cell? i =
        some { c with flags := { c.flags with inHooks := true } } := by
      rw [marked, cell?_setCell, isAlive, hc, if_pos ⟨rfl, rfl⟩]
    have same : ({ c with flags := { c.flags with inHooks := false } } : Cell) = c := by
      rw [← calm i c hc]
    rw [mark_eq_setCell hd, marked, same]
    exact setCell_again hc _

/-- **Hooks run** whenever an operation asks, if the heap is calm. -/
theorem Runs.pass (runs : Runs conduct run) (calm : h.Calm) (phase : Phase) (i : CellId) :
    ∃ ran outcome g, Pass conduct phase i h ran outcome g ∧
      run phase i h = (liftM outcome : OnHeap Unit) g := by
  rw [runs.eq_runBy]
  obtain ⟨ran, outcome, k, passes, attempted⟩ := passes_forM
    (fun a => (conduct phase i a).run silent i) (h.cell i).hooks (h.mark i true)
  have between : (h.mark i true).Spares i k := by
    have hooks := (Spares.keeps_hooks conduct phase (h.cell i).hooks).attempt.ends
      (.refl i (h.mark i true))
    exact hooks.result attempted
  refine ⟨ran, outcome, k.mark i false, ⟨⟨k, passes, rfl⟩, passes.inOrder, passes.all,
    calm.spares (between.unmark (calm i))⟩, ?_⟩
  rw [runBy, bind_get]
  by_cases bare : (h.cell i).hooks = []
  · rw [if_pos (.inl bare)]
    rw [bare] at passes
    cases passes
    rw [calm.mark_mark i]
    rfl
  · rw [if_neg (by simp [bare, calm.cell i]), bind_ok (markInHooks_eq h i true),
      bind_ok attempted, bind_ok (markInHooks_eq k i false)]

/-! ### Operations -/

theorem Runs.stores (runs : Runs conduct run) (calm : h.Calm) {store : OnHeap Unit}
    (ends : Ends store h (fun _ => Bears i (h.cell i).hooks) (· = h))
    (spares : ∀ h₀, Keeps (Spares i h₀) store) :
    Stores conduct i h store ((store >>= fun _ => run .set i) h) := by
  have calm' := (keeps_calm_spares spares).ends calm
  unfold Ends at ends calm'
  cases stored : store h with
  | error e g =>
    rw [stored] at ends
    obtain rfl : g = h := ends
    rw [bind_error stored]
    exact .refused stored
  | ok _ g =>
    rw [stored] at ends calm'
    obtain ⟨ran, outcome, k, pass, eq⟩ := runs.pass calm' .set i
    rw [bind_ok stored, eq]
    exact .stored stored ends pass

/-- A cell with an attachment that forbids writes may not be written from outside. -/
theorem Calm.checkWritable (calm : h.Calm)
    (forbids : ∃ a ∈ (h.cell i).hooks, a.hook.allowsWrite = false) :
    (h.cell i).checkWritable = .error .readOnly := by
  obtain ⟨a, ha, forbids⟩ := forbids
  have barred : (h.cell i).hooks.any (fun a => !a.hook.allowsWrite) = true :=
    List.any_eq_true.mpr ⟨a, ha, by rw [forbids]; rfl⟩
  rw [Cell.checkWritable, calm.cell i, barred]
  exact ite_self _

theorem assign_refused (refused : (h.cell i).checkWritable = .error e) (need : Room)
    (gains : Option CellId) (fill : Cell → Cell) : assign i need gains fill h = .error e h := by
  rw [assign, bind_get, refused]
  rfl

theorem Write.store_refused (refused : (h.cell i).checkWritable = .error e) (w : Write) :
    w.store i h = .error e h := by
  cases w with
  | undef =>
    rw [store, undefine, bind_get, refused]
    rfl
  | _ =>
    unfold store
    exact assign_refused refused _ _ _

theorem takeOver_refused (refused : (h.cell i).checkWritable = .error e) (source : CellId) :
    ∃ e, takeOver i source h = .error e h := by
  rw [takeOver, bind_get]
  dsimp only
  cases (h.cell source).expectScalar with
  | error e => exact ⟨e, rfl⟩
  | ok _ => exact ⟨e, (bind_ok rfl).trans (assign_refused refused _ _ _)⟩

theorem bears_takeOver (i source : CellId) (h : Heap) :
    Ends (takeOver i source) h (fun _ => Bears i (h.cell i).hooks) (· = h) := by
  refine Ends.read (Ends.outcome (fun _ _ => ?_) rfl)
  exact bears_assign h fun _ => rfl

/-- **Every cell is disciplined** on a calm heap. -/
theorem Runs.disciplined (runs : Runs conduct run) (calm : h.Calm) (i : CellId) :
    Disciplined conduct run i h where
  reads r converts := by
    obtain ⟨ran, outcome, g, pass, eq⟩ := runs.pass calm .get i
    refine ⟨ran, outcome, g, pass, ?_⟩
    rw [Read.performBy, if_pos converts]
    exact bind_of_eq eq
  writes w := runs.stores calm (w.bears_store i h) fun _ => Spares.keeps_store w
  copies source apart := by
    obtain ⟨ran, outcome, g, pass, eq⟩ := runs.pass calm .get source
    have spared := (runs.keeps .get).ends (.refl source h)
    rw [copyBy, if_neg apart]
    refine ⟨ran, outcome, g, pass, ?_, fun e fails => ?_, fun succeeds => ?_⟩
    · rw [Ends, eq] at spared
      cases outcome <;> exact spared
    · subst fails
      exact bind_error eq
    · subst succeeds
      rw [bind_ok (show run .get source h = .ok () g from eq)]
      exact runs.stores pass.calm (bears_takeOver i source g) fun _ => Spares.keeps_takeOver source
  itself := by
    rw [copyBy, if_pos rfl]
    rfl
  restricted forbids := by
    have refused := calm.checkWritable forbids
    exact ⟨fun w => bind_error (w.store_refused refused), takeOver_refused refused⟩
  within op g marked := runs.still.performBy op g marked
  performed op := ((runs.keeps_calm_performBy i op).ends calm).after
  copied source := ((runs.keeps_calm_copyBy i source).ends calm).after

/-- **Converting reads** of the heap run the get hooks of this library before they take the
value. -/
theorem Calm.perform_read (calm : h.Calm) (i : CellId) (r : Read) (converts : r.converts = true) :
    ∃ ran outcome g, Pass Program.ofHook .get i h ran outcome g ∧
      r.perform i h = (liftM outcome >>= fun _ => r.take i) g :=
  r.performBy_runHooks i ▸ (runs_runHooks.disciplined calm i).reads r converts

/-- **Writes** of the heap run the set hooks of this library after they have stored the value. -/
theorem Calm.perform_write (calm : h.Calm) (i : CellId) (w : Write) :
    Stores Program.ofHook i h (w.store i) (w.perform i h) :=
  w.performBy_runHooks i ▸ (runs_runHooks.disciplined calm i).writes w

end

/-! ### Runs -/

/-- What a host does: something to a cell, a copy, or anything else. -/
inductive Move
  | own (i : CellId) (op : OwnOp)
  | copy (i source : CellId)
  | other (op : Op)

/-- A host after a move, whether it failed or not, with a way to run hooks. -/
def Move.leaves (run : Runner) (s : Host) : Move → Host
  | own i op => { s with heap := after (op.performBy run i) s.heap }
  | copy i source => { s with heap := after (copyBy run i source) s.heap }
  | other op => s.step op

section
variable {conduct : Conduct} {run : Runner} {s : Host}

theorem Runs.calm_move (runs : Runs conduct run) (calm : s.heap.Calm) (move : Move) :
    (move.leaves run s).heap.Calm := by
  cases move with
  | own i op => exact ((runs.keeps_calm_performBy i op).ends calm).after
  | copy i source => exact ((runs.keeps_calm_copyBy i source).ends calm).after
  | other op => exact calm.step op

theorem Runs.calm_moves (runs : Runs conduct run) (calm : s.heap.Calm) (moves : List Move) :
    (moves.foldl (Move.leaves run) s).heap.Calm := by
  induction moves generalizing s with
  | nil => exact calm
  | cons move moves ih => exact ih (runs.calm_move calm move)

/-- **Hook discipline.**  Whatever hooks do to their cells, fail with or come to: after any moves of
a host, failed ones among them, every cell is disciplined. -/
theorem run_disciplined (seeds : Array Seed) (supply : Supply) (runs : Runs conduct run)
    (moves : List Move) (i : CellId) :
    Disciplined conduct run i (moves.foldl (Move.leaves run) (Host.start seeds supply)).heap :=
  runs.disciplined (runs.calm_moves (calm_start seeds supply) moves) i

end

/-- The hooks of this library: an integer whose get hook detaches itself, after it was read. -/
theorem run_disciplined_detach :
    let s := [Move.other (.make (.int 1)),
      .own 0 (.attach .extension (.host { label := "d", onGet := [.detach .extension] })),
      .own 0 (.read (.int .silent))].foldl (Move.leaves runHooks) (Host.start #[] {})
    (s.heap.cell 0).hooks = [] ∧ Disciplined Program.ofHook runHooks 0 s.heap :=
  ⟨by decide +kernel, run_disciplined #[] {} runs_runHooks _ 0⟩

/-- There is a cell whose hooks run when it is read and not when it is copied into itself, and there
is one whose get hook detaches its own attachment, which takes its leave meanwhile. -/
theorem hooks_passed_over :
    let s := (Host.start #[] {}).run [.make (.int 1), .attach 0 .extension (.host { label := "a" })]
    let t := (Host.start #[] {}).run [.make (.int 1),
      .attach 0 .extension (.host { label := "d", onGet := [.detach .extension] })]
    (after (getInt 0 .silent) s.heap).events = #["a.get"] ∧
      copyFrom 0 0 s.heap = .ok () s.heap ∧ s.heap.events = #[] ∧
        (after (getInt 0 .silent) t.heap).events = #["d.get", "d.free"] := by
  intro s t
  refine ⟨by decide +kernel, ?_, by decide +kernel, by decide +kernel⟩
  rw [copyFrom, if_pos rfl]
  rfl

end ScriptCore.Heap
