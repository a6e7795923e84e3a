import ScriptCore.Proofs.Heap.Host
import ScriptCore.Proofs.Heap.Writes

/-!
# Heap — copying a scalar

A copy takes over every form of a value and the marks that say which of them count, whatever the
destination held.  It refers to what its source refers to, and owns that if it is alive, even if
the source does not.

* `Cell.Alike`: what two cells have in common that read the same.
* `Alike.look`: any reads show and report the same on both.
* `copyFrom_alike`: a copy leaves its source as it was and its destination alike.
* `run_copies`: copies of a host read like their sources, at any time of any run.
-/

namespace ScriptCore

/-- Both cells hold the same forms of a value, of which the same count, and refer to the same live
cell. -/
structure Cell.Alike (alive : CellId → Bool) (c d : Cell) : Prop where
  int : d.int = c.int
  num : d.num = c.num
  text : d.text = c.text
  intOk : d.flags.intOk = c.flags.intOk
  numOk : d.flags.numOk = c.flags.numOk
  textOk : d.flags.textOk = c.flags.textOk
  refOk : d.flags.refOk = c.flags.refOk
  intHeld : d.flags.intHeld = c.flags.intHeld
  numHeld : d.flags.numHeld = c.flags.numHeld
  utf8 : d.flags.utf8 = c.flags.utf8
  referent : d.referent alive = c.referent alive

/-- The value of a cell on another one that was cleared, given what it refers to there. -/
def Cell.onto (c d : Cell) (target : Option Target) (weak : Bool) : Cell :=
  { d with
    int := c.int, num := c.num, text := c.text, target
    flags := d.flags.union { c.flags.copied with weak } }

section
variable {c d : Cell} {alive : CellId → Bool}

/-! ### Reads of cells that are alike -/

namespace Cell

theorem Alike.source (a : c.Alike alive d) : d.source alive = c.source alive := by
  simp only [Cell.source, a.intOk, a.int, a.numOk, a.num, a.refOk, a.referent, a.textOk, a.text]

theorem Alike.roomier (a : c.Alike alive d) (extra : Room) :
    (c.roomier extra).Alike alive (d.roomier extra) :=
  { a with }

theorem Alike.keepInt (a : c.Alike alive d) (v : Int64) (exact : Bool) :
    (c.keepInt v exact).Alike alive (d.keepInt v exact) :=
  { a with int := rfl, intOk := congrArg (· || exact) a.intOk, intHeld := rfl }

theorem Alike.keepFloat (a : c.Alike alive d) (v : Binary64) (exact : Bool) :
    (c.keepFloat v exact).Alike alive (d.keepFloat v exact) :=
  { a with num := rfl, numOk := congrArg (· || exact) a.numOk, numHeld := rfl }

theorem Alike.written (a : c.Alike alive d) (b : Bytes) :
    (c.written b).Alike alive (d.written b) :=
  { a with text := rfl, textOk := rfl }

theorem Alike.numbered (a : c.Alike alive d) (n : Number) (exact : Bool) :
    (c.numbered n exact).Alike alive (d.numbered n exact) := by
  cases n with
  | int v => exact (a.roomier _).keepInt v exact
  | float f =>
    have float := (a.roomier { text := true, int := true, num := true }).keepFloat f exact
    rw [Cell.numbered, Cell.numbered]
    split
    · exact float.keepInt _ exact
    · exact float

/-- The value of a cell is the same on any cell that was cleared, if the references are. -/
theorem alike_onto (c d : Cell) {target : Option Target} (weak : Bool)
    (same : Cell.referent { c with target } alive = c.referent alive) :
    c.Alike alive (c.onto d.clearValue target weak) :=
  ⟨rfl, rfl, rfl, rfl, rfl, rfl, rfl, rfl, rfl, rfl, same⟩

/-- A referent is found by whoever sees it alive. -/
theorem referent_of_alive {alive' : CellId → Bool} {j : CellId}
    (found : c.referent alive = some j) (there : alive' j = true) :
    c.flags.refOk = true ∧ c.referent alive' = some j := by
  rw [Cell.referent] at found ⊢
  split at found
  · rename_i ok
    refine ⟨ok, ?_⟩
    rw [if_pos ok]
    rcases target : c.target with - | (i | i) <;> rw [target] at found
    · cases found
    · exact found
    · dsimp only at found ⊢
      split at found
      · cases found
        rw [if_pos there]
      · cases found
  · cases found

/-- Whoever sees less alive finds no more. -/
theorem referent_of_gone {alive' : CellId → Bool} (missing : c.referent alive = none)
    (less : ∀ j, alive' j = true → alive j = true) : c.referent alive' = none := by
  rw [Cell.referent] at missing ⊢
  split at missing
  · rename_i ok
    rw [if_pos ok]
    rcases target : c.target with - | (i | i)
    · rfl
    · rw [target] at missing
      cases missing
    · rw [target] at missing
      dsimp only at missing ⊢
      split at missing
      · cases missing
      · rename_i gone
        rw [if_neg fun there => gone (less i there)]
  · rename_i other
    rw [if_neg other]

/-- **A read** leaves cells alike that were. -/
theorem Alike.leaves (a : c.Alike alive d) (r : Heap.Read) :
    (r.leaves alive c).Alike alive (r.leaves alive d) := by
  have bytes : (c.afterBytes alive).Alike alive (d.afterBytes alive) := by
    rw [afterBytes, afterBytes, a.source, a.textOk]
    split
    · exact a
    · split
      · exact a.written _
      · exact a.written _
      · exact a
  cases r with
  | int sink =>
    show (c.afterInt alive).Alike alive (d.afterInt alive)
    rw [afterInt, afterInt, a.source]
    split
    · split
      · exact (a.roomier _).keepInt _ true
      · exact a
    · exact a.numbered _ _
    · exact a
  | float sink =>
    show (c.afterFloat alive).Alike alive (d.afterFloat alive)
    rw [afterFloat, afterFloat, a.source]
    split
    · exact (a.roomier _).keepFloat _ true
    · exact a.numbered _ _
    · exact a
  | bytes sink | text sink => exact bytes
  | truth | numeric | defined | referent => exact a

/-- **One read** shows and reports the same on both. -/
theorem Alike.shows (a : c.Alike alive d) (scalar : c.shape.isAggregate = false)
    (scalar' : d.shape.isAggregate = false) (r : Heap.Read) (name : Option String) :
    r.answer alive name d = r.answer alive name c ∧ r.advice alive d = r.advice alive c := by
  have bytes : d.bytesRead alive name = c.bytesRead alive name := by
    rw [bytesRead, bytesRead, a.source, a.textOk, a.text]
  cases r with
  | int sink | float sink =>
    rw [Heap.Read.answer, Heap.Read.answer, Heap.Read.advice, Heap.Read.advice, a.source]
    exact ⟨rfl, rfl⟩
  | bytes sink | text sink =>
    simp only [Heap.Read.answer, Heap.Read.advice, bytes, a.utf8, a.textOk, a.source, and_self]
  | truth =>
    simp only [Heap.Read.answer, Heap.Read.advice, Cell.truth, scalar, scalar', a.textOk, a.text,
      a.intOk, a.int, a.numOk, a.num, a.referent, Bool.false_eq_true, if_false, and_self]
  | numeric =>
    simp only [Heap.Read.answer, Heap.Read.advice, Cell.looksNumeric, a.intOk, a.numOk, a.textOk,
      a.text, and_self]
  | defined =>
    simp only [Heap.Read.answer, Heap.Read.advice, Cell.isDefined, Flags.holdsValue, scalar,
      scalar', a.intOk, a.numOk, a.textOk, a.refOk, a.intHeld, a.numHeld, a.referent, and_self]
  | referent => simp only [Heap.Read.answer, Heap.Read.advice, a.referent, and_self]

/-- **Any reads** show and report the same on both. -/
theorem Alike.look (a : c.Alike alive d) (q : c.Quiet) (q' : d.Quiet) (name : Option String)
    (rs : List Heap.Read) : Heap.Read.look alive name rs d = Heap.Read.look alive name rs c := by
  induction rs generalizing c d with
  | nil => rfl
  | cons r rs ih =>
    obtain ⟨answer, advice⟩ := a.shows q.scalar q'.scalar r name
    rw [Heap.Read.look, Heap.Read.look, answer, advice,
      ih (a.leaves r) (q.leaves r alive) (q'.leaves r alive)]

end Cell

end

namespace Heap

section
variable {h h' : Heap} {src dst : CellId} {c d : Cell} {out : List CellId}

/-! ### What a copy refers to -/

/-- A copy owns its referent, if that is alive, and otherwise refers to what its source does. -/
theorem copiedTarget_cases (o : h.Owned out) (hc : h.cell? src = some c) :
    (∃ j, h.copiedTarget c = some (.strong j) ∧ h.referent? src = some j ∧ h.isAlive j = true) ∨
    h.referent? src = none ∧ kept (h.copiedTarget c) = [] ∧
      (c.flags.refOk = true → h.copiedTarget c = c.target) := by
  have held (j : CellId) (strong : c.target = some (.strong j)) : h.isAlive j = true := by
    refine Option.isSome_iff_exists.mpr (o.alive_held hc ?_)
    rw [owned_eq, strong]
    exact List.mem_cons_self
  rw [copiedTarget, referent?, cell_eq hc, Cell.referent]
  cases c.flags.refOk with
  | false => exact .inr ⟨rfl, rfl, fun ok => absurd ok Bool.false_ne_true⟩
  | true =>
    rcases target : c.target with - | (j | j)
    · exact .inr ⟨rfl, rfl, fun _ => rfl⟩
    · exact .inl ⟨j, by simp [Target.cell, held j target], rfl, held j target⟩
    · cases alive : h.isAlive j with
      | true => exact .inl ⟨j, by simp [Target.cell, alive], by simp [alive], alive⟩
      | false => exact .inr ⟨by simp [alive], by simp [Target.cell, alive, kept],
          fun _ => by simp [Target.cell, alive]⟩

theorem kept_copiedTarget (o : h.Owned out) (hc : h.cell? src = some c) :
    kept (h.copiedTarget c) = (h.referent? src).toList := by
  rcases copiedTarget_cases o hc with ⟨j, strong, referent, -⟩ | ⟨referent, none, -⟩
  · rw [strong, referent]
    rfl
  · rw [none, referent]
    rfl

theorem referent_copied (o : h.Owned out) (hc : h.cell? src = some c) {alive : CellId → Bool}
    (lives : ∀ j, h.referent? src = some j → alive j = true) :
    Cell.referent { c with target := h.copiedTarget c } alive = c.referent alive := by
  rcases copiedTarget_cases o hc with ⟨j, strong, found, -⟩ | ⟨-, -, same⟩
  · have there := lives j found
    rw [referent?, cell_eq hc] at found
    obtain ⟨ok, found⟩ := Cell.referent_of_alive found there
    rw [found, Cell.referent, if_pos ok, strong]
  · rw [Cell.referent, Cell.referent]
    split
    · rename_i ok
      rw [same ok]
    · rfl

theorem kept_eq_singleton {target : Option Target} {j : CellId} :
    kept target = [j] ↔ target = some (.strong j) := by
  rcases target with - | (i | i) <;> simp [kept]

/-- A copy whose source's hooks succeed: its destination is filled with the forms and the flags
that the source has then. -/
theorem copyFrom_ran (apart : src ≠ dst) (ran : runHooks .get src h = .ok () h')
    (hc : h'.cell? src = some c) (scalar : c.shape.isAggregate = false) :
    ∃ gains weak, gains.toList = kept (h'.copiedTarget c) ∧ (weak = true → c.flags.weak = true) ∧
      copyFrom dst src h = (assign dst c.shape.room.values gains
        (fun d => c.onto d (h'.copiedTarget c) weak) >>= fun _ => runHooks .set dst) h' := by
  rw [copyFrom, if_neg (Ne.symm apart), bind_ok ran, bind_get]
  simp only [cell_eq hc]
  rw [Cell.expectScalar, if_neg (by simp [scalar])]
  rcases h'.copiedTarget c with - | (j | j)
  · exact ⟨none, c.flags.weak, rfl, id, rfl⟩
  · exact ⟨some j, false, rfl, fun weak => Bool.noConfusion weak, rfl⟩
  · exact ⟨none, c.flags.weak, rfl, id, rfl⟩

/-- **What a copy comes to**: its destination is filled with the forms and the flags of the source,
and gains a hold on the referent. -/
theorem copyFrom_eq (o : h.Owned out) (hc : h.cell? src = some c) (q : c.Quiet)
    (apart : src ≠ dst) : ∃ weak, copyFrom dst src h =
      (assign dst c.shape.room.values (h.referent? src)
        (fun d => c.onto d (h.copiedTarget c) weak) >>= fun _ => runHooks .set dst) h := by
  obtain ⟨gains, weak, gained, -, eq⟩ := copyFrom_ran apart (runHooks_eq hc q .get) hc q.scalar
  have same : gains = h.referent? src := by
    simpa using congrArg List.head? (gained.trans (kept_copiedTarget o hc))
  exact ⟨weak, same ▸ eq⟩

/-- **A copy** succeeds and leaves its source as it was, with the referent it had.  Its destination
is alike, and owns that. -/
theorem copyFrom_alike (o : h.Owned out) (hsrc : src ∈ out) (hdst : dst ∈ out) (apart : src ≠ dst)
    (hc : h.cell? src = some c) (q : c.Quiet) (hd : h.cell? dst = some d) (q' : d.Quiet)
    (writable : d.flags.readOnly = false) :
    ∃ h' e, copyFrom dst src h = .ok () h' ∧ h'.Holds src c ∧
      h'.referent? src = h.referent? src ∧ h'.cell? dst = some e ∧ e.Quiet ∧
      c.Alike h'.isAlive e ∧ ∀ j, e.target = some (.strong j) ↔ h.referent? src = some j := by
  obtain ⟨weak, eq⟩ := copyFrom_eq o hc q apart
  have gained := kept_copiedTarget o hc
  have alive : ∀ j ∈ (h.referent? src).toList, ∃ d, h.cell? j = some d := fun j hj => by
    rcases copiedTarget_cases o hc with ⟨j', -, referent, alive⟩ | ⟨referent, -, -⟩
    · rw [referent, Option.toList_some, List.mem_singleton] at hj
      exact Option.isSome_iff_exists.mp (hj ▸ alive)
    · rw [referent] at hj
      cases hj
  obtain ⟨t, h', write, quiet, filled⟩ := write_quiet c.shape.room.values (h.referent? src)
    (fun d => c.onto d (h.copiedTarget c) weak) o hdst hd q' writable alive
    (fun _ => rfl) (fun _ => rfl) (fun _ _ => gained) (fun _ => rfl) fun _ => rfl
  obtain ⟨n, hn⟩ := filled.filled
  have owns (j : CellId) : h.copiedTarget c = some (.strong j) ↔ h.referent? src = some j := by
    rw [← kept_eq_singleton, gained, Option.toList_eq_singleton_iff]
  -- what the destination owns is alive, so a weak reference of the source is read like a strong one
  have lives (j : CellId) (found : h.referent? src = some j) : h'.isAlive j = true := by
    refine Option.isSome_iff_exists.mpr (filled.owned.alive_held hn ?_)
    have holds : j ∈ kept (h.copiedTarget c) := by
      rw [gained, found]
      exact List.mem_singleton_self j
    rw [owned_eq]
    exact List.mem_append_left _ holds
  have alike := Cell.alike_onto c { d with shape := t } weak (referent_copied o hc lives)
  obtain ⟨m, source⟩ := filled.held src c hsrc apart ⟨_, hc⟩
  refine ⟨h', _, eq.trans write, ⟨m, source⟩, ?_, hn, ⟨quiet.scalar, quiet.unhooked⟩,
    { alike with }, owns⟩
  have before : h.referent? src = c.referent h.isAlive := by rw [referent?, cell_eq hc]
  have after : h'.referent? src = c.referent h'.isAlive := by rw [referent?, cell_eq source]; rfl
  rw [after]
  cases found : h.referent? src with
  | none => exact Cell.referent_of_gone (before ▸ found) filled.alive
  | some j => exact (Cell.referent_of_alive (before ▸ found) (lives j found)).2

/-- Reads of cells that are alike. -/
theorem mapM_observe_alike (hc : h.cell? src = some c) (q : c.Quiet) (hd : h.cell? dst = some d)
    (q' : d.Quiet) (a : c.Alike h.isAlive d) (rs : List Read) :
    ∃ seen h₁ h₂,
      rs.mapM (observe src) h = .ok seen h₁ ∧ rs.mapM (observe dst) h = .ok seen h₂ := by
  have named : h.refText? dst = h.refText? src := by
    have referent : h.referent? dst = h.referent? src := by
      rw [referent?, referent?, cell_eq hc, cell_eq hd, a.referent]
    rw [refText?, refText?, referent]
  obtain ⟨h₁, source⟩ := mapM_observe hc q rs
  obtain ⟨h₂, copy⟩ := mapM_observe hd q' rs
  rw [named, a.look q q'] at copy
  exact ⟨_, h₁, h₂, source, copy⟩

end

/-- **Copies read like their sources.**  Whatever a host did: of two cells it has handles on, both
of them scalars that no hook watches and the second one not read-only, the first can be copied into
the second.  The source stays as it was and refers to what it did; whatever reads there are, and in
whatever order, they show and report the same on both; and the copy owns what the source refers to,
if that is alive. -/
theorem run_copies (seeds : Array Seed) (supply : Supply) (ops : List Op) {src dst : CellId}
    {c d : Cell} (hsrc : src ∈ ((Host.start seeds supply).run ops).held)
    (hdst : dst ∈ ((Host.start seeds supply).run ops).held) (apart : src ≠ dst)
    (hc : ((Host.start seeds supply).run ops).heap.cell? src = some c) (q : c.Quiet)
    (hd : ((Host.start seeds supply).run ops).heap.cell? dst = some d) (q' : d.Quiet)
    (writable : d.flags.readOnly = false) :
    ∃ h', copyFrom dst src ((Host.start seeds supply).run ops).heap = .ok () h' ∧ h'.Holds src c ∧
      h'.referent? src = ((Host.start seeds supply).run ops).heap.referent? src ∧
      (∀ rs : List Read, ∃ seen h₁ h₂,
        rs.mapM (observe src) h' = .ok seen h₁ ∧ rs.mapM (observe dst) h' = .ok seen h₂) ∧
      ∀ j, (h'.cell dst).target = some (.strong j) ↔
        ((Host.start seeds supply).run ops).heap.referent? src = some j := by
  have owned := ((kept_start seeds supply).run ops).sound.owned
  obtain ⟨h', e, copy, ⟨n, source⟩, referent, filled, quiet, alike, owns⟩ :=
    copyFrom_alike owned hsrc hdst apart hc q hd q' writable
  refine ⟨h', copy, ⟨n, source⟩, referent, fun rs => ?_, fun j => ?_⟩
  · exact mapM_observe_alike source ⟨q.scalar, q.unhooked⟩ filled quiet { alike with } rs
  · rw [cell_eq filled, owns]

/-- A cell with text that is not ASCII, and a weak reference to another one: copied into the first,
it is owned there. -/
theorem run_copies_weak :
    let ops : List Op := [.make (.int 7), .refer 0, .weaken 1, .make (.text "é")]
    ∃ h', copyFrom 2 1 ((Host.start #[] {}).run ops).heap = .ok () h' ∧
      (h'.cell 2).target = some (.strong 0) ∧ ∃ seen h₁ h₂,
        [Read.text .silent, .referent].mapM (observe 1) h' = .ok seen h₁ ∧
          [Read.text .silent, .referent].mapM (observe 2) h' = .ok seen h₂ := by
  intro ops
  have weak : ((Host.start #[] {}).run ops).heap.cell? 1 = some { Cell.ofTarget 0 with
      target := some (.weak 0), flags := { refOk := true, weak := true } } := by
    with_unfolding_all rfl
  have text : ((Host.start #[] {}).run ops).heap.cell? 2 = some (.ofText "é") := by
    with_unfolding_all rfl
  obtain ⟨h', copy, -, -, reads, owns⟩ := run_copies #[] {} ops (by decide +kernel)
    (by decide +kernel) (by decide) weak ⟨rfl, rfl⟩ text ⟨rfl, rfl⟩ rfl
  exact ⟨h', copy, (owns 0).mpr (by with_unfolding_all rfl), reads _⟩

end Heap

end ScriptCore
