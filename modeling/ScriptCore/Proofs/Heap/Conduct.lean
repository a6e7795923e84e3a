import ScriptCore.Proofs.Heap.Programs

/-!
# Heap — what the attachments of this library do

Taint marks, environment variables and the hooks of a host are programs over their cell: `ofHook`
gives them.  `fire` carries them out without hooks, since their cell is marked when they act; as
programs they do what any host does to a cell, and that this runs no hooks is a fact about runs.

* `Program.fire_eq`: an attachment acts as its program does.
* `runs_runHooks`: `runHooks` runs the programs, whatever they would have run included.
-/

namespace ScriptCore.Heap

namespace Program

/-- One program after another. -/
def andThen : Program → Program → Program
  | done, q => q
  | fail e, _ => fail e
  | act op next, q => act op fun seen => (next seen).andThen q
  | look next, q => look fun h => (next h).andThen q
  | aside a next, q => aside a (next.andThen q)

/-- An operation that must succeed. -/
def must (op : OwnOp) (next : Option Sight → Program) : Program :=
  act op fun
    | .ok seen => next seen
    | .error e => fail e

theorem run_andThen (run : Runner) (i : CellId) (p q : Program) :
    (p.andThen q).run run i = p.run run i >>= fun _ => q.run run i := by
  induction p with
  | done => rfl
  | fail e => rfl
  | act op next ih =>
    simp only [andThen, Program.run, bind_assoc, ih]
  | look next ih => simp only [andThen, Program.run, bind_assoc, ih]
  | aside a next ih => simp only [andThen, Program.run, bind_assoc, ih]

theorem run_must (run : Runner) (i : CellId) (op : OwnOp) (next : Option Sight → Program) :
    (must op next).run run i = op.performBy run i >>= fun seen => (next seen).run run i := by
  funext h
  rw [must, Program.run]
  cases e : op.performBy run i h with
  | ok seen g =>
    rw [bind_ok e, bind_ok (show attempt (op.performBy run i) h = .ok (.ok seen) g by
      rw [attempt, e])]
  | error why g =>
    rw [bind_error e, bind_ok (show attempt (op.performBy run i) h = .ok (.error why) g by
      rw [attempt, e])]
    rfl

/-- What the hook of an attachment writes, after what it has read. -/
def textOf : Option Sight → String
  | some (.text s) => s
  | _ => ""

end Program

namespace Aside

/-- Counts one more act of an attachment. -/
def noteFired (a : Attachment) : Aside :=
  ⟨fun h => { h with fired := h.fired.modify a.number (· + 1) }, fun _ => rfl⟩

/-- Logs an event. -/
def log (event : String) : Aside :=
  ⟨fun h => { h with events := h.events.push event }, fun _ => rfl⟩

/-- Sets a taint mark. -/
def setTaint (t : Nat) (on : Bool) : Aside := ⟨(·.setTaint t on), fun _ => rfl⟩

/-- Changes an environment. -/
def updateEnvironment (e : Nat) (f : Environment → Environment) : Aside :=
  ⟨(·.updateEnvironment e f), fun _ => rfl⟩

end Aside

namespace Program

/-- One action of a host's hook. -/
def ofAction (a : Attachment) : Action → Program
  | .tally => aside (.noteFired a) (look fun h =>
      must (.write (.int (Int64.ofNat (h.firedBefore a)))) fun _ => done)
  | .refuse => fail .readOnly
  | .attach kind label => must (.attach kind (.host { label })) fun _ => done
  | .detach kind => must (.detach kind) fun _ => done
  | .upcase => must (.read (.text .silent)) fun seen =>
      must (.write (.text (Heap.upcase (textOf seen)))) fun _ => done
  | .show => must (.read (.text .silent)) fun seen => aside (.log (textOf seen)) done
  | .wipe => must (.write .undef) fun _ => done

/-- Reads a variable into the cell, the first time only. -/
def materialize (a : Attachment) (e : Nat) (name : String) (anyCase : Bool) : Program :=
  look fun h =>
    if h.firedBefore a = 0 then
      aside (.noteFired a) (look fun h =>
        match (h.environment e).valueFor name anyCase with
        | some value => must (.write (.text value)) fun _ => done
        | none => must (.write .undef) fun _ => done)
    else done

/-- Writes the text of the cell to a variable, or removes it. -/
def writeThrough (i : CellId) (a : Attachment) (e : Nat) (name : String) (anyCase : Bool) :
    Program :=
  aside (.noteFired a) (look fun h =>
    if (h.cell i).isDefined h.isAlive then
      must (.read (.text .silent)) fun seen =>
        aside (.updateEnvironment e (·.put ((h.environment e).nameFor name anyCase)
          (textOf seen))) done
    else aside (.updateEnvironment e (·.erase ((h.environment e).nameFor name anyCase))) done)

/-- What an attachment does. -/
def ofHook (phase : Phase) (i : CellId) (a : Attachment) : Program :=
  match a.hook, phase with
  | .taint t, .get => look fun h =>
      if (h.cell i).flags.tainted then aside (.setTaint t true) done else done
  | .taint t, .set => look fun h => must (.setTainted (h.taint t)) fun _ => done
  | .taint _, .clear => done
  | .environment e name anyCase, .get => materialize a e name anyCase
  | .environment e name anyCase, .set => writeThrough i a e name anyCase
  | .environment e name anyCase, .clear =>
    aside (.updateEnvironment e fun v => v.erase (v.nameFor name anyCase)) done
  | .readOnly, _ => done
  | .host hooks, phase => aside (.log (hooks.label ++ "." ++ phase.name))
      ((hooks.actions phase).foldr (fun action rest => (ofAction a action).andThen rest) done)

section
variable {i : CellId} {a : Attachment}

theorem run_write (w : Write) :
    (must (.write w) fun _ => done).run silent i = w.store i := by
  rw [run_must, OwnOp.performBy, Write.performBy]
  simp only [bind_assoc, silent, pure_bind, Program.run, bind_pure_unit]

/-- Reading the text of the cell, and going on with it. -/
theorem run_readText (next : String → Program) :
    (must (.read (.text .silent)) fun seen => next (textOf seen)).run silent i =
      readText i .silent >>= fun s => (next s).run silent i := by
  rw [run_must, OwnOp.performBy, Read.performBy, Read.take, Read.converts]
  simp only [bind_assoc, silent, if_true, pure_bind, textOf]

theorem perform_eq (a : Attachment) (action : Action) :
    perform i a action = (ofAction a action).run silent i := by
  cases action with
  | tally =>
    simp only [ofAction, Program.run, run_write]
    rfl
  | refuse => rfl
  | attach kind label =>
    rw [ofAction, run_must, OwnOp.performBy]
    simp only [bind_assoc, pure_bind, Program.run, bind_pure_unit]
    rfl
  | detach kind =>
    rw [ofAction, run_must, OwnOp.performBy]
    simp only [bind_assoc, pure_bind, Program.run]
    rfl
  | upcase =>
    rw [ofAction, run_readText fun s => must (.write (.text (Heap.upcase s))) fun _ => done]
    simp only [run_write]
    rfl
  | «show» =>
    rw [ofAction, run_readText fun s => aside (.log s) done]
    simp only [Program.run, bind_pure_unit]
    rfl
  | wipe => exact (run_write .undef).symm

theorem forM_eq (a : Attachment) (actions : List Action) :
    actions.forM (perform i a) =
      (actions.foldr (fun action rest => (ofAction a action).andThen rest) done).run silent i := by
  induction actions with
  | nil => rfl
  | cons action actions ih =>
    rw [List.foldr_cons, run_andThen, ← perform_eq, ← ih]
    rfl

theorem materialize_eq (a : Attachment) (e : Nat) (name : String) (anyCase : Bool) :
    Heap.materialize i a e name anyCase = (materialize a e name anyCase).run silent i := by
  have rest (h : Heap) : (match (h.environment e).valueFor name anyCase with
      | some value => assignText i value
      | none => undefine i) =
      (match (h.environment e).valueFor name anyCase with
      | some value => must (.write (.text value)) fun _ => done
      | none => must (.write .undef) fun _ => done).run silent i := by
    split
    · exact (run_write (.text _)).symm
    · exact (run_write .undef).symm
  funext h
  rw [materialize, Program.run, Heap.materialize, bind_get, bind_get]
  split
  · simp only [Program.run, ← rest]
    rfl
  · rfl

theorem writeThrough_eq (a : Attachment) (e : Nat) (name : String) (anyCase : Bool) :
    Heap.writeThrough i a e name anyCase = (writeThrough i a e name anyCase).run silent i := by
  rw [writeThrough, Program.run, Program.run]
  refine congrArg (fun go => noteFired a >>= fun _ => get >>= go) (funext fun h => ?_)
  split
  · rw [run_readText fun s => aside (.updateEnvironment e (·.put _ s)) done]
    rfl
  · rfl

/-- **What an attachment does** is a program. -/
theorem fire_eq (phase : Phase) (a : Attachment) :
    fire phase i a = (ofHook phase i a).run silent i := by
  obtain ⟨kind, hook, number⟩ := a
  funext h
  cases hook with
  | taint t =>
    cases phase with
    | get =>
      show EStateM.Result.ok () (if (h.cell i).flags.tainted then h.setTaint t true else h) =
        (if (h.cell i).flags.tainted then aside (.setTaint t true) done else done).run silent i h
      split <;> rfl
    | set => rfl
    | clear => rfl
  | environment e name anyCase =>
    cases phase with
    | get => exact congrFun (materialize_eq _ e name anyCase) h
    | set => exact congrFun (writeThrough_eq _ e name anyCase) h
    | clear => rfl
  | readOnly => cases phase <;> rfl
  | host hooks =>
    unfold fire ofHook
    dsimp only
    rw [Program.run, ← forM_eq]
    rfl

end

end Program

/-- **The hooks of this library** are programs, and are run so. -/
theorem runs_runHooks : Runs Program.ofHook runHooks := by
  have eq : runHooks = runBy Program.ofHook silent := by
    funext phase i
    have fires : fire phase i = fun a => (Program.ofHook phase i a).run silent i :=
      funext fun a => Program.fire_eq phase a
    unfold runHooks runBy
    rw [fires]
  rw [eq]
  exact runs_runBy _

/-- Running the hooks of a cell spares the others. -/
theorem Spares.keeps_runHooks {h₀ : Heap} {i : CellId} (phase : Phase) :
    Keeps (Spares i h₀) (runHooks phase i) := runs_runHooks.keeps phase

end ScriptCore.Heap
