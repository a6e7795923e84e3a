import ScriptCore.Proofs.Heap.Sources
import ScriptCore.Proofs.Heap.TextReads

/-!
# Heap — the first look at a variable

A cell that stands for a variable and is never written takes its value from the environment once.
Glances at it are reads, between which it is made read-only or not and the environment changes.
They show what one cell shows that no hook watches, from the first converting read on: the cell
filled from the variable as it is at that time.  If that read is refused, the attachment has acted
all the same, so there is no second try: from then on the cell shows what it held before.

* `watch`: what glances show, and `shows`: what they show of a cell that no hook watches.
* `Rests.watch`: the two are the same when no attachment acts.
* `Rests.first`: the first converting read, and all that comes after it.
* `run_glances`: what glances show, whatever they are.
* `glances_forgotten`: a refused read, and a later one that shows no value of the variable.
-/

namespace ScriptCore.Heap

/-- A look at a cell, or something that happens between looks. -/
inductive Glance
  | read (r : Read)
  | readOnly (on : Bool)
  | outside (e : Nat) (f : Environment → Environment)

/-- What an operation gives, or why it fails. -/
def given {α : Type} (x : OnHeap α) (h : Heap) : Except Fault α :=
  match x h with
  | .ok a _ => .ok a
  | .error e _ => .error e

namespace Read

/-- The read makes sense of scalars alone. -/
def asksScalar : Read → Bool
  | int _ | float _ | bytes _ | text _ => true
  | _ => false

/-- What a read shows and reports of a cell whose hooks do nothing. -/
def shown (r : Read) (alive : CellId → Bool) (name : Option String) (c : Cell) :
    Except Fault (Sight × List Advisory) :=
  if r.asksScalar && c.shape.isAggregate then .error (.mismatch (.notScalar c.shape))
  else .ok (r.answer alive name c, r.advice alive c)

/-- What a read is to show and report of a variable of some value: of one that is not there, what it
does of a new cell. -/
def TellsOf (value : Option String) (r : Read) (seen : Sight × List Advisory) : Prop :=
  match value with
  | some s => r.Tells (Text.encode s) seen ∧ ∀ sink, r = .text sink → seen.1 = .text s
  | none => seen = (r.answer (fun _ => false) none {}, r.advice (fun _ => false) {})

end Read

namespace Glance

/-- The heap after a glance. -/
def leaves (i : CellId) (h : Heap) : Glance → Heap
  | read r => after (observe i r) h
  | readOnly on => h.setReadOnly i on
  | outside e f => h.updateEnvironment e f

/-- What a glance leaves of a cell whose hooks do nothing. -/
def onCell (alive : CellId → Bool) (c : Cell) : Glance → Cell
  | read r => if c.shape.isAggregate then c else r.leaves alive c
  | readOnly on => { c with flags := { c.flags with readOnly := on } }
  | outside _ _ => c

/-- The reads among some glances. -/
def reads (gs : List Glance) : List Read := gs.filterMap fun
  | read r => some r
  | _ => none

end Glance

/-- What the reads among some glances show and report, or why they fail. -/
def watch (i : CellId) : List Glance → Heap → List (Except Fault (Sight × List Advisory))
  | [], _ => []
  | .read r :: gs, h => given (observe i r) h :: watch i gs ((Glance.read r).leaves i h)
  | g :: gs, h => watch i gs (g.leaves i h)

/-- The same, of a cell whose hooks do nothing. -/
def shows (alive : CellId → Bool) (name : Option String) :
    List Glance → Cell → List (Except Fault (Sight × List Advisory))
  | [], _ => []
  | .read r :: gs, c => r.shown alive name c :: shows alive name gs ((Glance.read r).onCell alive c)
  | g :: gs, c => shows alive name gs (g.onCell alive c)

/-- The cell has one attachment, in a heap between operations. -/
structure Rests (h₀ : Heap) (out : List CellId) (a : Attachment) (i : CellId) (c : Cell)
    (h : Heap) : Prop where
  kept : Kept h₀ out h
  calm : h.Calm
  cell : h.cell? i = some c
  one : c.hooks = [a]

/-- The later heap has the same cells alive, calls a cell the same as a reference and has counted
the same acts. -/
structure Likewise (i : CellId) (h g : Heap) : Prop where
  alive : g.isAlive = h.isAlive
  name : g.refText? i = h.refText? i
  fired : g.fired = h.fired

section
variable {h₀ h g : Heap} {i : CellId} {c d : Cell} {a : Attachment} {v : Variable}
  {out : List CellId} {value : Option String} {r : Read} {alive : CellId → Bool}

/-! ### One read -/

theorem observe_unchanged {sight : Sight} (ran : r.perform i h = .ok sight h) :
    observe i r h = .ok (sight, []) h := by
  have nothing : h.reports.toList.drop h.reports.size = [] := by simp
  rw [observe, bind_get, bind_ok ran, bind_get, nothing]
  rfl

theorem observe_failed {e : Fault} (failed : r.perform i h = .error e g) :
    observe i r h = .error e g := by
  rw [observe, bind_get, bind_error failed]

/-- A read that does not convert shows the cell and leaves it. -/
theorem observe_still (hc : h.cell? i = some c) (still : r.converts = false) :
    observe i r h = .ok (r.answer h.isAlive (h.refText? i) c, r.advice h.isAlive c) h := by
  cases r with
  | int | float | bytes | text | truth => cases still
  | numeric | defined | referent =>
    refine observe_unchanged ?_
    simp only [Read.perform, isDefined, referent?, bind_get, cell_eq hc]
    rfl

/-- An aggregate has a truth value and no other, if its hooks do nothing. -/
theorem perform_aggregate (hc : h.cell? i = some c) (aggregate : c.shape.isAggregate = true)
    (hooks : runHooks .get i h = .ok () h) (asks : r.asksScalar = true) :
    r.perform i h = .error (.mismatch (.notScalar c.shape)) h := by
  have refused : sourceOf i h = .error (.mismatch (.notScalar c.shape)) h := by
    rw [sourceOf, bind_get, cell_eq hc, Cell.expectScalar, if_pos aggregate]
    rfl
  cases r with
  | int sink =>
    rw [Read.perform, getInt, bind_assoc, bind_ok hooks, readInt, bind_assoc, bind_error refused]
  | float sink =>
    rw [Read.perform, getFloat, bind_assoc, bind_ok hooks, readFloat, bind_assoc,
      bind_error refused]
  | bytes sink =>
    rw [Read.perform, getBytes, bind_assoc, bind_ok hooks, readBytes, bind_assoc,
      bind_error refused]
  | text sink =>
    rw [Read.perform, getText, bind_assoc, bind_ok hooks, readText, readBytes, bind_assoc,
      bind_assoc, bind_error refused]
  | truth | numeric | defined | referent => cases asks

theorem perform_truth (hc : h.cell? i = some c) (hooks : runHooks .get i h = .ok () h) :
    Read.truth.perform i h = .ok (.truth (c.truth h.isAlive)) h := by
  rw [Read.perform, getTruth, bind_assoc, bind_ok hooks, bind_assoc, bind_get, cell_eq hc]
  rfl

/-- **Reads of an aggregate** whose hooks do nothing show what it does and leave it. -/
theorem observe_aggregate (hc : h.cell? i = some c) (aggregate : c.shape.isAggregate = true)
    (hooks : r.converts = true → runHooks .get i h = .ok () h) :
    given (observe i r) h = r.shown h.isAlive (h.refText? i) c ∧ after (observe i r) h = h := by
  cases asks : r.asksScalar with
  | true =>
    have converts : r.converts = true := by cases r <;> first | rfl | cases asks
    have failed := observe_failed (perform_aggregate hc aggregate (hooks converts) asks)
    rw [given, after, failed, Read.shown, asks, aggregate]
    exact ⟨rfl, rfl⟩
  | false =>
    have ran : observe i r h =
        .ok (r.answer h.isAlive (h.refText? i) c, r.advice h.isAlive c) h := by
      cases converts : r.converts with
      | false => exact observe_still hc converts
      | true =>
        cases r with
        | int | float | bytes | text => cases asks
        | truth => exact observe_unchanged (perform_truth hc (hooks converts))
        | numeric | defined | referent => cases converts
    rw [given, after, ran, Read.shown, asks]
    exact ⟨rfl, rfl⟩

/-! ### One glance -/

theorem Likewise.refl (i : CellId) (h : Heap) : Likewise i h h := ⟨rfl, rfl, rfl⟩

theorem Likewise.trans {k : Heap} (l : Likewise i h g) (l' : Likewise i g k) : Likewise i h k :=
  ⟨l'.alive.trans l.alive, l'.name.trans l.name, l'.fired.trans l.fired⟩

theorem keeps_observe {P : Heap → Prop} (keeps : Keeps P (r.perform i)) : Keeps P (observe i r) :=
  Keeps.read fun _ p =>
    (keeps.bind fun _ => Keeps.read fun _ p => (Keeps.pure _).ends p).ends p

theorem leaves_still (still : r.converts = false) (c : Cell) : r.leaves alive c = c := by
  cases r with
  | int | float | bytes | text | truth => cases still
  | numeric | defined | referent => rfl

namespace Rests

/-- **One read**, when the attachment does not act: what is seen is what the cell shows. -/
theorem read (s : Rests h₀ out a i c h) (hi : i ∈ out) (stands : a.hook = v.hook)
    (idle : r.converts = false ∨ h.firedBefore a ≠ 0) :
    given (observe i r) h = r.shown h.isAlive (h.refText? i) c ∧
      Rests h₀ out a i ((Glance.read r).onCell h.isAlive c) (after (observe i r) h) ∧
        Likewise i h (after (observe i r) h) := by
  have hooks (converts : r.converts = true) : runHooks .get i h = .ok () h :=
    runHooks_get_idle s.calm s.cell s.one stands (idle.resolve_left (by simp [converts]))
  cases aggregate : c.shape.isAggregate with
  | true =>
    have same : (Glance.read r).onCell h.isAlive c = c := if_pos aggregate
    obtain ⟨seen, left⟩ := observe_aggregate s.cell aggregate hooks
    rw [same, left]
    exact ⟨seen, s, .refl i h⟩
  | false =>
    have shown : r.shown h.isAlive (h.refText? i) c =
        .ok (r.answer h.isAlive (h.refText? i) c, r.advice h.isAlive c) := by
      rw [Read.shown, aggregate, Bool.and_false, if_neg Bool.false_ne_true]
    have left : (Glance.read r).onCell h.isAlive c = r.leaves h.isAlive c :=
      if_neg (by simp [aggregate])
    rw [shown, left]
    cases converts : r.converts with
    | false =>
      rw [given, after, observe_still s.cell converts, leaves_still converts]
      exact ⟨rfl, s, .refl i h⟩
    | true =>
      have ran := observe_idle s.cell aggregate (hooks converts) r
      have kept := ((keeps_observe (keeps_perform_read hi r)).ends s.kept).result ran
      have calm := ((keeps_observe (keeps_calm_read i r)).ends s.calm).result ran
      rw [given, after, ran]
      refine ⟨rfl, ⟨kept, calm, ?_, (c.stays_leaves r h.isAlive).hooks.trans s.one⟩,
        isAlive_heap s.cell r, refText?_heap s.cell aggregate r, fired_setCell h i _⟩
      rw [cell?_heap s.cell, if_pos rfl]

/-- **One glance**, when the attachment does not act. -/
theorem step (s : Rests h₀ out a i c h) (hi : i ∈ out) (stands : a.hook = v.hook) (g : Glance)
    (idle : (∀ r, g = .read r → r.converts = false) ∨ h.firedBefore a ≠ 0) :
    Rests h₀ out a i (g.onCell h.isAlive c) (g.leaves i h) ∧ Likewise i h (g.leaves i h) := by
  cases g with
  | read r => exact (s.read hi stands (idle.imp_left fun still => still r rfl)).2
  | readOnly on =>
    have set : h.setReadOnly i on =
        h.setCell i { c with flags := { c.flags with readOnly := on } } := by
      rw [setReadOnly, updateCell, cell_eq s.cell]
    have kept := s.kept.setReadOnly i on
    rw [Glance.leaves]
    rw [set] at kept ⊢
    refine ⟨⟨kept, s.calm.setCell (s.calm i c s.cell), ?_, s.one⟩, isAlive_setCell s.cell _,
      refText?_setCell s.cell rfl rfl rfl rfl, fired_setCell h i _⟩
    rw [cell?_setCell, if_pos ⟨rfl, by rw [isAlive, s.cell]; rfl⟩]
    rfl
  | outside e f =>
    exact ⟨⟨s.kept.beside rfl rfl rfl rfl, s.calm, s.cell, s.one⟩, rfl, rfl, rfl⟩

/-- **Any glances**, when the attachment does not act: what is seen is what the cell shows. -/
theorem watch (s : Rests h₀ out a i c h) (hi : i ∈ out) (stands : a.hook = v.hook)
    (gs : List Glance) (idle : (∀ r, .read r ∈ gs → r.converts = false) ∨ h.firedBefore a ≠ 0) :
    Heap.watch i gs h = shows h.isAlive (h.refText? i) gs c ∧
      Rests h₀ out a i (gs.foldl (Glance.onCell h.isAlive) c) (gs.foldl (Glance.leaves i) h) ∧
        Likewise i h (gs.foldl (Glance.leaves i) h) := by
  induction gs generalizing h c with
  | nil => exact ⟨rfl, s, .refl i h⟩
  | cons g gs ih =>
    obtain ⟨next, like⟩ := s.step hi stands g
      (idle.imp_left fun still r same => still r (same ▸ List.mem_cons_self))
    have fired : (g.leaves i h).firedBefore a = h.firedBefore a := by
      rw [firedBefore, like.fired, firedBefore]
    obtain ⟨seen, rests, like'⟩ := ih next
      (idle.imp (fun still r hr => still r (List.mem_cons_of_mem g hr)) fun acted => fired ▸ acted)
    rw [like.alive, like.name] at seen
    rw [like.alive] at rests
    refine ⟨?_, rests, like.trans like'⟩
    cases g with
    | read r =>
      have first := (s.read (r := r) hi stands
        (idle.imp_left fun still => still r List.mem_cons_self)).1
      rw [Heap.watch, shows, first, seen]
    | readOnly on | outside e f => exact seen

end Rests

theorem scalar_glances (scalar : c.shape.isAggregate = false) (gs : List Glance) :
    (gs.foldl (Glance.onCell alive) c).shape.isAggregate = false := by
  induction gs generalizing c with
  | nil => exact scalar
  | cons g gs ih =>
    refine ih ?_
    cases g with
    | read r =>
      rw [Glance.onCell, if_neg (by simp [scalar])]
      exact Cell.scalar_leaves scalar r alive
    | readOnly on | outside e f => exact scalar

/-! ### The first converting read -/

theorem observe_ran (ran : runHooks .get i h = .ok () g) (idle : runHooks .get i g = .ok () g)
    (converts : r.converts = true) (reports : g.reports = h.reports) :
    observe i r h = observe i r g := by
  rw [observe, bind_get, bind_get, reports]
  exact bind_of_eq (perform_ran ran idle converts)

/-- A cell without a reference is not called anything. -/
theorem refText?_of_noRef (hc : h.cell? i = some c) (noRef : c.flags.refOk = false) :
    h.refText? i = none := by
  have referent : h.referent? i = none := by
    rw [referent?, cell_eq hc, Cell.referent, if_neg (by simp [noRef])]
  rw [refText?, referent]
  rfl

/-- **The first converting read** fills the cell from the variable, and what is seen from then on is
what the filled cell shows; or it fails, and what is seen is what the cell showed before. -/
theorem Rests.first (s : Rests h₀ out a i c h) (hi : i ∈ out) (stands : a.hook = v.hook)
    (first : h.firedBefore a = 0) (converts : r.converts = true) (post : List Glance) :
    match c.materialized (v.value h) with
    | .ok d => ∃ alive owners,
        Heap.watch i (.read r :: post) h = shows alive none (.read r :: post) { d with owners }
    | .error f =>
        Heap.watch i (.read r :: post) h = .error f :: shows h.isAlive (h.refText? i) post c := by
  have numbered : a.number < h.fired.size :=
    s.kept.number_lt (i := i) (by rw [cell_eq s.cell, s.one]; exact List.mem_cons_self)
  have kept := (keeps_runHooks hi .get).ends s.kept
  have calm := (keeps_calm_runHooks .get i).ends s.calm
  have ran := runHooks_get_first s.kept hi s.calm s.cell s.one stands first
  cases made : c.materialized (v.value h) with
  | ok d =>
    rw [made] at ran
    obtain ⟨g, ran, ⟨n, hn⟩, acted⟩ := ran
    have takes := Cell.takes_materialized made
    have rests : Rests h₀ out a i { d with owners := n } g :=
      ⟨kept.result ran, calm.result ran, hn, takes.hooks.trans s.one⟩
    have idle := runHooks_get_idle rests.calm hn rests.one stands (acted.acted numbered)
    have same := observe_ran ran idle converts acted.reports
    obtain ⟨seen, -, -⟩ := rests.watch hi stands (.read r :: post) (.inr (acted.acted numbered))
    rw [refText?_of_noRef hn takes.agrees.noRef] at seen
    refine ⟨g.isAlive, n, Eq.trans ?_ seen⟩
    rw [Heap.watch, Heap.watch, Glance.leaves, Glance.leaves, given, after, same]
    rfl
  | error f =>
    rw [made] at ran
    dsimp only at ran
    rw [Ends, ran] at kept calm
    have failed : r.perform i h = .error f { h with fired := h.fired.modify a.number (· + 1) } := by
      rw [← r.performBy_runHooks, Read.performBy, if_pos converts, bind_error ran]
    have acted : ActedOnce a h.environments h
        { h with fired := h.fired.modify a.number (· + 1) } := ⟨rfl, rfl, rfl⟩
    have rests : Rests h₀ out a i c { h with fired := h.fired.modify a.number (· + 1) } :=
      ⟨kept, calm, s.cell, s.one⟩
    obtain ⟨seen, -, -⟩ := rests.watch hi stands post (.inr (acted.acted numbered))
    rw [Heap.watch, Glance.leaves, given, after, observe_failed failed]
    exact congrArg (Except.error f :: ·) seen

/-! ### What a filled cell tells -/

theorem spells_materialized {s : String} (made : c.materialized (some s) = .ok d) :
    d.Spells (Text.encode s) := by
  unfold Cell.materialized at made
  split at made
  · cases made
  cases grown : c.makeRoom { text := true } with
  | error f =>
    rw [grown] at made
    cases made
  | ok e =>
    rw [grown] at made
    cases made
    exact ⟨rfl, rfl, rfl, nofun, nofun⟩

/-- A cell that holds the value of a variable tells it. -/
theorem tellsOf_answer (agrees : c.Agrees value) (scalar : c.shape.isAggregate = false)
    (spells : ∀ s, value = some s → c.Spells (Text.encode s)) (r : Read)
    (alive : CellId → Bool) (name : Option String) :
    r.TellsOf value (r.answer alive name c, r.advice alive c) := by
  cases value with
  | some s =>
    refine ⟨(spells s rfl).tells scalar r alive name, ?_⟩
    rintro sink rfl
    exact congrArg Sight.text (agrees.text alive name)
  | none =>
    have empty : c.flags.holdsValue = false := by rw [← c.isSome_entry, agrees.entry]; rfl
    simp only [Flags.holdsValue, Bool.or_eq_false_iff] at empty
    obtain ⟨⟨⟨⟨⟨int, num⟩, text⟩, ref⟩, intHeld⟩, numHeld⟩ := empty
    have source : c.source alive = .nothing := by simp [Cell.source, int, num, text, ref]
    have undef : Shape.undef.isAggregate = false := rfl
    have blank : (({} : Cell).source fun _ => false) = .nothing := rfl
    show (_, _) = (_, _)
    cases r with
    | int sink | float sink => simp only [Read.answer, Read.advice, source, blank]
    | bytes sink =>
      simp only [Read.answer, Read.advice, Cell.bytesRead, source, blank, text]
      rfl
    | text sink =>
      have spelt : Text.decode (c.bytesRead alive name) c.flags.utf8 = "" := agrees.text alive name
      simp only [Read.answer, Read.advice, spelt, source, blank, text]
      rfl
    | truth => simp [Read.answer, Read.advice, Cell.truth, Cell.referent, *]
    | numeric => simp [Read.answer, Read.advice, Cell.looksNumeric, *]
    | defined => simp [Read.answer, Read.advice, Cell.isDefined, Flags.holdsValue, *]
    | referent => simp [Read.answer, Read.advice, Cell.referent, *]

/-- **Whatever is seen** of a cell that holds the value of a variable tells it. -/
theorem tellsOf_shows (agrees : c.Agrees value) (scalar : c.shape.isAggregate = false)
    (spells : ∀ s, value = some s → c.Spells (Text.encode s)) (alive : CellId → Bool)
    (name : Option String) (gs : List Glance) :
    List.Forall₂ (fun r seen => ∃ shown, seen = .ok shown ∧ r.TellsOf value shown)
      (Glance.reads gs) (shows alive name gs c) := by
  induction gs generalizing c with
  | nil => exact .nil
  | cons g gs ih =>
    cases g with
    | read r =>
      have shown : r.shown alive name c = .ok (r.answer alive name c, r.advice alive c) := by
        rw [Read.shown, scalar, Bool.and_false, if_neg Bool.false_ne_true]
      have left : (Glance.read r).onCell alive c = r.leaves alive c := if_neg (by simp [scalar])
      rw [shows, shown, left]
      exact .cons ⟨_, rfl, tellsOf_answer agrees scalar spells r alive name⟩
        (ih (agrees.leaves r alive) (Cell.scalar_leaves scalar r alive)
          fun s same => (spells s same).leaves r alive)
    | readOnly on =>
      exact ih ⟨agrees.noRef, agrees.textual, agrees.entry⟩ scalar fun s same =>
        have held := spells s same
        ⟨held.textOk, held.text, held.refOk, held.int, held.num⟩
    | outside e f => exact ih agrees scalar spells

end

/-- **Glances at a variable.**  Whatever a host did: a cell that it has a handle on, with an
attachment that has not acted, which stands for a variable and is the only one, shows what it holds
until the first converting read.  That read fills it from the variable, as it is then; from then on
a scalar tells that value in all its reads, whatever becomes of the variable and whether the cell is
read-only or not.  Or the read is refused; then the cell goes on to show what it held, and the value
of the variable is never seen. -/
theorem run_glances (seeds : Array Seed) (supply : Supply) (ops : List Op) {i : CellId} {c : Cell}
    {a : Attachment} {v : Variable} (hi : i ∈ ((Host.start seeds supply).run ops).held)
    (hc : ((Host.start seeds supply).run ops).heap.cell? i = some c) (one : c.hooks = [a])
    (stands : a.hook = v.hook)
    (first : ((Host.start seeds supply).run ops).heap.firedBefore a = 0)
    (pre post : List Glance) (still : ∀ r, .read r ∈ pre → r.converts = false) {r : Read}
    (converts : r.converts = true) :
    let h := ((Host.start seeds supply).run ops).heap
    let g := pre.foldl (Glance.leaves i) h
    let d := pre.foldl (Glance.onCell h.isAlive) c
    watch i pre h = shows h.isAlive (h.refText? i) pre c ∧
      match d.materialized (v.value g) with
      | .ok e =>
          (∃ alive owners,
            watch i (.read r :: post) g = shows alive none (.read r :: post) { e with owners }) ∧
          (c.shape.isAggregate = false →
            List.Forall₂ (fun r seen => ∃ shown, seen = .ok shown ∧ r.TellsOf (v.value g) shown)
              (Glance.reads (.read r :: post)) (watch i (.read r :: post) g))
      | .error f =>
          watch i (.read r :: post) g = .error f :: shows h.isAlive (h.refText? i) post d := by
  intro h g d
  have start : Rests h ((Host.start seeds supply).run ops).held a i c h :=
    ⟨((kept_start seeds supply).run ops).again, (calm_start seeds supply).run ops, hc, one⟩
  obtain ⟨before, rests, like⟩ := start.watch hi stands pre (.inl still)
  have first' : g.firedBefore a = 0 := by
    rw [firedBefore, like.fired]
    exact first
  have seen := rests.first hi stands first' converts post
  refine ⟨before, ?_⟩
  cases made : d.materialized (v.value g) with
  | error f =>
    rw [made, like.alive, like.name] at seen
    exact seen
  | ok e =>
    rw [made] at seen
    obtain ⟨alive, owners, seen⟩ := seen
    refine ⟨⟨alive, owners, seen⟩, fun scalar => ?_⟩
    have takes := Cell.takes_materialized made
    rw [seen]
    have agrees : ({ e with owners } : Cell).Agrees (v.value g) :=
      ⟨takes.agrees.noRef, takes.agrees.textual, takes.agrees.entry⟩
    refine tellsOf_shows agrees (takes.scalar (scalar_glances scalar pre)) (fun s same => ?_) alive
      none _
    have spells : e.Spells (Text.encode s) := spells_materialized (same ▸ made)
    exact ⟨spells.textOk, spells.text, spells.refOk, spells.int, spells.num⟩

/-- A variable that changes before its cell is first read, and is removed afterwards: the cell tells
the value in between, also when it is read-only. -/
theorem run_glances_removed :
    let ops : List Op := [.updateEnvironment 0 (·.put "X" "v"), .make .undef,
      .attach 0 .environment (.environment 0 "X" false)]
    let h := ((Host.start #[] {}).run ops).heap
    let text : Glance := .read (.text .silent)
    watch 0 [text, .outside 0 (·.erase "X"), .readOnly true, text]
        ([Glance.outside 0 (·.put "X" "w")].foldl (Glance.leaves 0) h) =
      [.ok (.text "w", []), .ok (.text "w", [])] := by
  intro ops h text
  have cell : h.cell? 0 = some (h.cell 0) := by with_unfolding_all rfl
  have one : (h.cell 0).hooks = [⟨.environment, .environment 0 "X" false, 0⟩] := by decide +kernel
  have seen := (run_glances #[] {} ops (v := ⟨0, "X", false⟩) (by decide +kernel) cell one rfl
    (by decide +kernel) [.outside 0 (·.put "X" "w")]
    [.outside 0 (·.erase "X"), .readOnly true, text]
    (fun r hr => nomatch List.mem_singleton.mp hr) (r := .text .silent) rfl).2
  have value : Variable.value ⟨0, "X", false⟩
      ([Glance.outside 0 (·.put "X" "w")].foldl (Glance.leaves 0) h) = some "w" := by
    decide +kernel
  have scalar : (h.cell 0).shape.isAggregate = false := by decide +kernel
  obtain ⟨d, made⟩ := Cell.exists_materialized (c := h.cell 0) scalar (by decide +kernel) (some "w")
  have filled : ([Glance.outside 0 (·.put "X" "w")].foldl (Glance.onCell h.isAlive)
      (h.cell 0)).materialized (some "w") = .ok d := made
  rw [value, filled] at seen
  have told := seen.2 scalar
  generalize watch 0 _ _ = result at told ⊢
  have tells (shown : Sight × List Advisory)
      (told : Read.TellsOf (some "w") (.text .silent) shown) : shown = (.text "w", []) := by
    obtain ⟨⟨wide, rfl⟩, same⟩ := told
    exact congrArg (·, []) (same .silent rfl)
  change List.Forall₂ _ [Read.text .silent, Read.text .silent] result at told
  obtain - | ⟨⟨first, rfl, one⟩, - | ⟨⟨second, rfl, two⟩, - | -⟩⟩ := told
  rw [tells first one, tells second two]

/-- **Forgotten.**  There is a cell that stands for a variable, which is there all the time: a read
is refused, and a later one succeeds and shows a text that the variable never had. -/
theorem glances_forgotten :
    let h := ((Host.start #[] {}).run [.updateEnvironment 0 (·.put "X" "v"), .make .undef,
      .attach 0 .environment (.environment 0 "X" false)]).heap
    let text : Glance := .read (.text .silent)
    (h.environment 0).vars = [("X", "v")] ∧
      watch 0 [.readOnly true, text, .readOnly false, text] h =
        [.error .readOnly, .ok (.text "", [])] := by
  intro h text
  exact ⟨by decide +kernel, by decide +kernel⟩

end ScriptCore.Heap
