import ScriptCore.Proofs.Heap.Discipline
import ScriptCore.Proofs.Heap.Variables
import ScriptCore.Proofs.Key.Identity

/-!
# Heap — a cell that stands for a variable

An environment attachment acts before the first read of its cell, which fills the cell with the
value of the variable, and after every write, which stores the text of the cell.  This says what a
run of hooks comes to when that attachment is the only one.

* `Cell.Agrees`: the cell holds the value of a variable, as text or as nothing; reads leave it so.
* `runHooks_get_idle`: once the attachment has acted, reads run no hook that does anything.
* `runHooks_get_first`: before that, a read makes of the cell what `Cell.materialized` says, or
  fails and leaves the cell; the attachment has acted in either case.
* `runHooks_set_eq`: a write ends with the variable settled, and the cell in agreement with it.
-/

namespace ScriptCore

/-- The variable that a cell may stand for: an environment, a name there, and whether the name is
taken in any case. -/
structure Variable where
  env : Nat
  name : String
  anyCase : Bool

namespace Variable

/-- The hook of a cell that stands for the variable. -/
def hook (v : Variable) : Hook := .environment v.env v.name v.anyCase

/-- The value of the variable, if it is there. -/
def value (v : Variable) (h : Heap) : Option String :=
  (h.environment v.env).valueFor v.name v.anyCase

/-- The name under which the variable is stored: the spelling that is there if case does not count,
else its own. -/
def key (v : Variable) (h : Heap) : String := (h.environment v.env).nameFor v.name v.anyCase

/-- The environments with the variable set to a value, or removed. -/
def settled (v : Variable) (h : Heap) (value : Option String) : Array Environment :=
  h.environments.modify v.env (·.settle (v.key h) value)

end Variable

/-- Text is decoded by the mark it was encoded with. -/
theorem Text.decode_encode (s : String) : Text.decode (Text.encode s) (!Text.isAscii s) = s := by
  cases ascii : Text.isAscii s with
  | true => exact Spelling.bytewise_eq_iff.mpr ascii
  | false => exact Utf8.lossy_encode s

namespace Cell

/-- A scalar that is no reference. -/
structure Plain (c : Cell) : Prop where
  scalar : c.shape.isAggregate = false
  noRef : c.flags.refOk = false

/-- The text that a cell without a reference is read as. -/
def spelt (c : Cell) : String := Text.decode (c.bytesRead (fun _ => false) none) c.flags.utf8

/-- What a variable gets from a cell without a reference: its text, or nothing. -/
def entry (c : Cell) : Option String := if c.flags.holdsValue then some c.spelt else none

/-- The cell holds the value of a variable: as text if there is one, and if not it has no number
either that a read could find. -/
structure Agrees (c : Cell) (value : Option String) : Prop where
  noRef : c.flags.refOk = false
  textual : c.flags.textOk = false → c.flags.intOk = false ∧ c.flags.numOk = false
  entry : c.entry = value

/-- The cell with the mark of running hooks, or without it. -/
def marked (c : Cell) (on : Bool) : Cell := { c with flags := { c.flags with inHooks := on } }

/-- What a variable of some value makes of a cell. -/
def materialized (c : Cell) (value : Option String) : Except Fault Cell :=
  if c.flags.readOnly then .error .readOnly
  else
    match value with
    | some s => (c.makeRoom { text := true }).map fun d =>
        { d.clearValue with
          text := Text.encode s
          flags := { d.clearValue.flags with textOk := true, utf8 := !Text.isAscii s } }
    | none => .ok { c.clearValue with payload := Heap.emptied c.payload }

/-- What a cell that could be written has become, when it has taken the value of a variable. -/
structure Takes (c : Cell) (value : Option String) (d : Cell) : Prop where
  agrees : d.Agrees value
  hooks : d.hooks = c.hooks
  writable : c.flags.readOnly = false
  readOnly : d.flags.readOnly = false
  inHooks : d.flags.inHooks = c.flags.inHooks
  scalar : c.shape.isAggregate = false → d.shape.isAggregate = false

section
variable {c d : Cell} {alive : CellId → Bool} {value : Option String}

/-! ### The text of a cell -/

theorem source_of_noRef (noRef : c.flags.refOk = false) (alive alive' : CellId → Bool) :
    c.source alive = c.source alive' := by
  simp only [source, noRef, Bool.false_eq_true, if_false]

/-- Without a reference it does not matter what is alive. -/
theorem spelt_eq (noRef : c.flags.refOk = false) (alive : CellId → Bool) (name : Option String) :
    Text.decode (c.bytesRead alive name) c.flags.utf8 = c.spelt := by
  have found : (c.source alive).asBytes name = (c.source fun _ => false).asBytes none := by
    rw [source_of_noRef noRef alive fun _ => false]
    simp only [source, noRef, Bool.false_eq_true, if_false]
    split
    · rfl
    · split
      · rfl
      · split <;> rfl
  rw [spelt, bytesRead, bytesRead, found]

theorem entry_of_textOk (ok : c.flags.textOk = true) :
    c.entry = some (Text.decode c.text c.flags.utf8) := by
  have holds : c.flags.holdsValue = true := by simp [Flags.holdsValue, ok]
  rw [entry, if_pos holds, spelt, bytesRead, if_pos ok]

theorem isSome_entry (c : Cell) : c.entry.isSome = c.flags.holdsValue := by
  unfold entry
  cases c.flags.holdsValue <;> rfl

theorem Plain.isDefined (p : c.Plain) (alive : CellId → Bool) :
    c.isDefined alive = c.entry.isSome := by
  rw [isSome_entry, Cell.isDefined, p.scalar, p.noRef]
  rfl

theorem Plain.leaves (p : c.Plain) (r : Heap.Read) (alive : CellId → Bool) :
    (r.leaves alive c).Plain :=
  ⟨scalar_leaves p.scalar r alive, (c.stays_leaves r alive).refOk.trans p.noRef⟩

/-! ### Agreement with a variable -/

/-- Text counts before anything else. -/
theorem agrees_of_textOk (noRef : c.flags.refOk = false) (ok : c.flags.textOk = true) :
    c.Agrees (some (Text.decode c.text c.flags.utf8)) :=
  ⟨noRef, fun absent => absurd (ok.symm.trans absent) Bool.noConfusion, entry_of_textOk ok⟩

/-- A cell that agrees with a variable is read as its value. -/
theorem Agrees.text (a : c.Agrees value) (alive : CellId → Bool) (name : Option String) :
    Text.decode (c.bytesRead alive name) c.flags.utf8 = value.getD "" := by
  cases ok : c.flags.textOk with
  | true =>
    rw [← a.entry, entry_of_textOk ok, bytesRead, if_pos ok]
    rfl
  | false =>
    obtain ⟨int, num⟩ := a.textual ok
    have nothing : c.bytesRead alive name = [] := by
      simp [bytesRead, source, ok, int, num, a.noRef, Source.asBytes]
    have empty : ∀ wide, Text.decode [] wide = "" := by decide
    have spelt : c.spelt = "" := by rw [← spelt_eq a.noRef alive name, nothing, empty]
    rw [spelt_eq a.noRef, ← a.entry, Cell.entry, spelt]
    split <;> rfl

/-- **Reads** leave a cell in agreement. -/
theorem Agrees.leaves (a : c.Agrees value) (r : Heap.Read) (alive : CellId → Bool) :
    (r.leaves alive c).Agrees value := by
  cases ok : c.flags.textOk with
  | true =>
    have kept : (r.leaves alive c).flags.textOk = true ∧ (r.leaves alive c).text = c.text :=
      leaves_of (P := fun d => d.flags.textOk = true ∧ d.text = c.text) ⟨ok, rfl⟩ r alive
        (fun _ _ h => h) (fun _ _ _ h => h) (fun _ _ _ h => h)
        fun absent => absurd (ok.symm.trans absent) Bool.noConfusion
    have stays := c.stays_leaves r alive
    have agrees := agrees_of_textOk (stays.refOk.trans a.noRef) kept.1
    rwa [kept.2, stays.utf8, ← entry_of_textOk ok, a.entry] at agrees
  | false =>
    obtain ⟨int, num⟩ := a.textual ok
    have nothing : c.source alive = .nothing := by simp [source, ok, int, num, a.noRef]
    have same : r.leaves alive c = c := by
      cases r <;> simp [Heap.Read.leaves, afterInt, afterFloat, afterBytes, nothing]
    rwa [same]

/-- **Text that is written out** for a variable leaves the cell in agreement with it. -/
theorem agrees_afterBytes (noRef : c.flags.refOk = false) (alive : CellId → Bool) :
    (c.afterBytes alive).Agrees c.entry := by
  rw [afterBytes]
  cases ok : c.flags.textOk with
  | true =>
    rw [if_pos rfl, entry_of_textOk ok]
    exact agrees_of_textOk noRef ok
  | false =>
    rw [if_neg Bool.false_ne_true]
    have written (b : Bytes) (holds : c.flags.holdsValue = true)
        (read : c.bytesRead (fun _ => false) none = b) : (c.written b).Agrees c.entry := by
      rw [entry, if_pos holds, spelt, read]
      exact agrees_of_textOk (c := c.written b) noRef rfl
    rw [source_of_noRef noRef alive fun _ => false]
    have read : c.bytesRead (fun _ => false) none =
        (c.source fun _ => false).asBytes none := by
      rw [bytesRead, if_neg (by simp [ok])]
    cases int : c.flags.intOk with
    | true =>
      have found : (c.source fun _ => false) = .int c.int := by rw [source, if_pos int]
      rw [found] at read ⊢
      exact written _ (by simp [Flags.holdsValue, int]) read
    | false =>
      cases num : c.flags.numOk with
      | true =>
        have found : (c.source fun _ => false) = .float c.num := by simp [source, int, num]
        rw [found] at read ⊢
        exact written _ (by simp [Flags.holdsValue, num]) read
      | false =>
        have found : (c.source fun _ => false) = .nothing := by
          simp [source, ok, int, num, noRef]
        rw [found]
        exact ⟨noRef, fun _ => ⟨int, num⟩, rfl⟩

/-- **What a variable makes of a cell** agrees with it. -/
theorem takes_materialized (made : c.materialized value = .ok d) : c.Takes value d := by
  unfold materialized at made
  split at made
  · cases made
  rename_i writable
  have writable := Bool.eq_false_iff.mpr writable
  cases value with
  | none =>
    cases made
    exact ⟨⟨rfl, fun _ => ⟨rfl, rfl⟩, rfl⟩, rfl, writable, writable, rfl, id⟩
  | some s =>
    cases grown : c.makeRoom { text := true } with
    | error f =>
      rw [grown] at made
      cases made
    | ok e =>
      obtain ⟨t, grows, rfl⟩ := makeRoom_ok grown
      rw [grown] at made
      cases made
      refine ⟨?_, rfl, writable, writable, rfl, fun scalar => grows.scalar scalar⟩
      have agrees := agrees_of_textOk (c := { ({ c with shape := t } : Cell).clearValue with
        text := Text.encode s
        flags := { c.clearValue.flags with textOk := true, utf8 := !Text.isAscii s } }) rfl rfl
      rwa [show Text.decode _ _ = s from Text.decode_encode s] at agrees

/-- The mark of a cell does not matter for what a variable makes of it. -/
theorem materialized_marked (c : Cell) (on : Bool) (value : Option String) :
    (c.marked on).materialized value = (c.materialized value).map (·.marked on) := by
  have room : (c.marked on).makeRoom { text := true } =
      (c.makeRoom { text := true }).map (·.marked on) := by
    unfold makeRoom
    rw [show (c.marked on).shape = c.shape from rfl]
    cases c.shape.growFor { text := true } <;> rfl
  unfold materialized
  rw [show (c.marked on).flags.readOnly = c.flags.readOnly from rfl]
  cases c.flags.readOnly with
  | true => rfl
  | false =>
    cases value with
    | none => rfl
    | some s =>
      dsimp only
      rw [room]
      cases c.makeRoom { text := true } <;> rfl

theorem marked_marked (clear : c.flags.inHooks = false) (on : Bool) :
    (c.marked on).marked false = c := by
  rw [marked, marked, ← clear]

/-- A scalar that may be written takes any value. -/
theorem exists_materialized (scalar : c.shape.isAggregate = false)
    (writable : c.flags.readOnly = false) (value : Option String) :
    ∃ d, c.materialized value = .ok d := by
  unfold materialized
  rw [if_neg (by simp [writable])]
  cases value with
  | none => exact ⟨_, rfl⟩
  | some s =>
    obtain ⟨t, ht, -⟩ := exists_room scalar { text := true }
    rw [makeRoom, ht]
    exact ⟨_, rfl⟩

end

end Cell

namespace Heap

/-- The later heap has the environments, the acts of attachments and the reports of the earlier
one. -/
structure SameBeside (h g : Heap) : Prop where
  environments : g.environments = h.environments
  fired : g.fired = h.fired
  reports : g.reports = h.reports

/-- The cell, if it is still there, is what was stored; beside the cells nothing changed. -/
structure Stored (h : Heap) (i : CellId) (d : Cell) (g : Heap) : Prop where
  cell : ∀ e, g.cell? i = some e → ∃ n, e = { d with owners := n }
  beside : h.SameBeside g

/-- The later heap is one in which an attachment has acted once more, with the environments that are
given and the reports of the earlier one. -/
structure ActedOnce (a : Attachment) (environments : Array Environment) (h g : Heap) : Prop where
  environments : g.environments = environments
  fired : g.fired = h.fired.modify a.number (· + 1)
  reports : g.reports = h.reports

section
variable {h₀ h g k : Heap} {i j : CellId} {c d : Cell} {a : Attachment} {v : Variable}
  {out is : List CellId} {need : Room} {gains : Option CellId} {fill : Cell → Cell}

/-! ### What lies beside the cells -/

theorem SameBeside.refl (h : Heap) : h.SameBeside h := ⟨rfl, rfl, rfl⟩

theorem SameBeside.trans (s : h.SameBeside g) (s' : g.SameBeside k) : h.SameBeside k :=
  ⟨s'.environments.trans s.environments, s'.fired.trans s.fired, s'.reports.trans s.reports⟩

theorem sameBeside_setCell (h : Heap) (i : CellId) (c : Cell) : h.SameBeside (h.setCell i c) := by
  unfold setCell
  split
  · exact ⟨rfl, rfl, rfl⟩
  · exact .refl h

theorem sameBeside_retainAll (h : Heap) (is : List CellId) : h.SameBeside (h.retainAll is) := by
  unfold retainAll
  induction is generalizing h with
  | nil => exact .refl h
  | cons i is ih => exact (sameBeside_setCell h i _).trans (ih _)

theorem sameBeside_letGo (h : Heap) (is : List CellId) : h.SameBeside (h.letGo is) := by
  refine letGo_rule (P := fun _ g => h.SameBeside g) ?gone ?drop ?bury (.refl h)
  case gone =>
    intro i rest g _ s
    exact s
  case drop =>
    intro i rest g c _ _ s
    exact s.trans (sameBeside_setCell g i _)
  case bury =>
    intro i rest g c _ _ s
    have buried : g.SameBeside (g.bury i c) := ⟨rfl, rfl, rfl⟩
    exact s.trans buried

theorem sameBeside_mark (h : Heap) (i : CellId) (on : Bool) : h.SameBeside (h.mark i on) :=
  sameBeside_setCell h i _

theorem SameBeside.firedBefore (s : h.SameBeside g) (a : Attachment) :
    g.firedBefore a = h.firedBefore a := by
  rw [Heap.firedBefore, s.fired, Heap.firedBefore]

theorem SameBeside.value (s : h.SameBeside g) (v : Variable) : v.value g = v.value h := by
  rw [Variable.value, environment, s.environments]
  rfl

/-- An attachment that has acted once more has acted. -/
theorem ActedOnce.acted {environments : Array Environment} (acted : ActedOnce a environments h g)
    (numbered : a.number < h.fired.size) : g.firedBefore a ≠ 0 := by
  rw [firedBefore, acted.fired, Array.getD_eq_getD_getElem?, Array.getElem?_modify, if_pos rfl,
    Array.getElem?_eq_getElem numbered]
  exact Nat.succ_ne_zero _

/-- Settling a variable changes its environment alone. -/
theorem environment_settled (there : v.env < h.environments.size) {value : Option String}
    (same : g.environments = v.settled h value) (e : Nat) : g.environment e =
      if e = v.env then (h.environment v.env).settle (v.key h) value else h.environment e := by
  simp only [environment, same, Variable.settled, Array.getD_eq_getD_getElem?,
    Array.getElem?_modify]
  by_cases here : e = v.env
  · rw [if_pos here.symm, if_pos here, here, Array.getElem?_eq_getElem there]
    rfl
  · rw [if_neg (Ne.symm here), if_neg here]

/-! ### What is stored -/

theorem stored_setCell (h : Heap) (i : CellId) (d : Cell) : Stored h i d (h.setCell i d) where
  cell e he := by
    rw [cell?_setCell] at he
    split at he
    · cases he
      exact ⟨d.owners, rfl⟩
    · rename_i gone
      exact absurd ⟨rfl, by rw [isAlive, he]; rfl⟩ gone
  beside := sameBeside_setCell h i d

theorem Stored.letGo (s : Stored h i d g) (is : List CellId) : Stored h i d (g.letGo is) where
  cell e he := by
    obtain ⟨n, hn⟩ := holds_of_letGo he
    obtain ⟨m, same⟩ := s.cell _ hn
    exact ⟨e.owners, congrArg (fun c : Cell => { c with owners := e.owners }) same⟩
  beside := s.beside.trans (sameBeside_letGo g is)

theorem Stored.retainAll (s : Stored h i d g) (is : List CellId) :
    Stored h i d (g.retainAll is) where
  cell e he := by
    rw [cell?_retainAll] at he
    obtain ⟨b, hb, rfl⟩ := Option.map_eq_some_iff.mp he
    obtain ⟨m, rfl⟩ := s.cell b hb
    exact ⟨_, rfl⟩
  beside := s.beside.trans (sameBeside_retainAll g is)

theorem Stored.withRing (s : Stored h i d g) (ring : Keyring) : Stored h i d { g with ring } :=
  ⟨s.cell, s.beside.trans ⟨rfl, rfl, rfl⟩⟩

/-- What storing comes to. -/
theorem ends_assign_stored (i : CellId) (need : Room) (gains : Option CellId) (fill : Cell → Cell)
    (h : Heap) :
    Ends (assign i need gains fill) h (fun _ g => ∃ t, (h.cell i).shape.Grows need t ∧
      Stored h i (fill { h.cell i with shape := t }.clearValue) g) (· = h) := by
  refine (ends_assign i need gains fill h).imp ?_ fun _ => id
  rintro _ _ ⟨-, t, made, rfl⟩
  obtain ⟨t', grows, same⟩ := Cell.makeRoom_ok made
  cases same
  exact ⟨t, grows, ((stored_setCell h i _).retainAll _).letGo _⟩

/-- What undefining comes to. -/
theorem ends_undefine_stored (i : CellId) (h : Heap) :
    Ends (undefine i) h (fun _ g => Stored h i { (h.cell i).clearValue with
      payload := emptied (h.cell i).payload } g) (· = h) := by
  refine (ends_undefine i h).imp ?_ fun _ => id
  rintro _ _ ⟨-, ring, rfl⟩
  exact (((stored_setCell h i _).letGo _).withRing ring).letGo _

theorem assign_eq (hc : h.cell? i = some c) (writable : c.checkWritable = .ok ())
    (room : c.makeRoom need = .ok d) :
    ∃ g, assign i need gains fill h = .ok () g ∧ Stored h i (fill d.clearValue) g := by
  refine ⟨((h.setCell i (fill d.clearValue)).retainAll gains.toList).letGo (kept c.target), ?_,
    ((stored_setCell h i _).retainAll _).letGo _⟩
  rw [assign, bind_get, cell_eq hc, writable, room, ← release_target]
  rfl

theorem assign_roomless (hc : h.cell? i = some c) (writable : c.checkWritable = .ok ()) {f : Fault}
    (room : c.makeRoom need = .error f) : assign i need gains fill h = .error f h := by
  rw [assign, bind_get, cell_eq hc, writable, room]
  rfl

theorem undefine_eq (hc : h.cell? i = some c) (writable : c.checkWritable = .ok ()) :
    ∃ g, undefine i h = .ok () g ∧
      Stored h i { c.clearValue with payload := emptied c.payload } g := by
  have ends := ends_undefine_stored i h
  rw [cell_eq hc] at ends
  cases ran : undefine i h with
  | ok _ g =>
    rw [Ends, ran] at ends
    exact ⟨g, rfl, ends⟩
  | error f g =>
    rw [undefine, bind_get, cell_eq hc, writable] at ran
    cases ran

/-! ### Runs of hooks -/

/-- The one attachment of a cell acts on it while it is marked. -/
theorem runHooks_one (calm : h.Calm) (hc : h.cell? i = some c) (one : c.hooks = [a])
    (phase : Phase) : runHooks phase i h =
      match fire phase i a (h.mark i true) with
      | .ok _ g => .ok () (g.mark i false)
      | .error f g => .error f (g.mark i false) := by
  have acts : ([a].forM (fire phase i)) (h.mark i true) = fire phase i a (h.mark i true) := by
    show (fire phase i a >>= fun _ => pure ()) (h.mark i true) = _
    rw [bind_pure_unit]
  rw [runHooks, bind_get, cell_eq hc, if_neg (by simp [one, calm i c hc]),
    bind_ok (markInHooks_eq h i true), one]
  cases fired : fire phase i a (h.mark i true) with
  | ok _ g =>
    have attempted : attempt ([a].forM (fire phase i)) (h.mark i true) = .ok (.ok ()) g := by
      rw [attempt, acts, fired]
    rw [bind_ok attempted, bind_ok (markInHooks_eq g i false)]
    rfl
  | error f g =>
    have attempted : attempt ([a].forM (fire phase i)) (h.mark i true) = .ok (.error f) g := by
      rw [attempt, acts, fired]
    rw [bind_ok attempted, bind_ok (markInHooks_eq g i false)]
    rfl

theorem fire_get (stands : a.hook = v.hook) (h : Heap) :
    fire .get i a h = materialize i a v.env v.name v.anyCase h := by
  obtain ⟨kind, hook, number⟩ := a
  cases stands
  rfl

theorem fire_set (stands : a.hook = v.hook) (h : Heap) :
    fire .set i a h = writeThrough i a v.env v.name v.anyCase h := by
  obtain ⟨kind, hook, number⟩ := a
  cases stands
  rfl

/-- **An attachment that has acted** does nothing on a read. -/
theorem runHooks_get_idle (calm : h.Calm) (hc : h.cell? i = some c) (one : c.hooks = [a])
    (stands : a.hook = v.hook) (acted : h.firedBefore a ≠ 0) : runHooks .get i h = .ok () h := by
  have still : (h.mark i true).firedBefore a ≠ 0 := by
    rwa [(sameBeside_mark h i true).firedBefore]
  have nothing : fire .get i a (h.mark i true) = .ok () (h.mark i true) := by
    rw [fire_get stands, materialize, bind_get, if_neg still]
    rfl
  rw [runHooks_one calm hc one, nothing]
  dsimp only
  rw [calm.mark_mark]

/-- The write by which the value of a variable gets into a cell. -/
def filling : Option String → Write
  | none => .undef
  | some s => .text s

/-- A cell whose hooks run takes the value of a variable, or refuses. -/
theorem store_filling (hc : h.cell? i = some c) (marked : c.flags.inHooks = true)
    (value : Option String) :
    match c.materialized value with
    | .ok d => ∃ g, (filling value).store i h = .ok () g ∧ Stored h i d g
    | .error f => (filling value).store i h = .error f h := by
  unfold Cell.materialized
  cases readOnly : c.flags.readOnly with
  | true =>
    rw [if_pos rfl]
    have refused : (h.cell i).checkWritable = .error .readOnly := by
      rw [cell_eq hc, Cell.checkWritable, if_pos readOnly]
    exact (filling value).store_refused refused
  | false =>
    rw [if_neg Bool.false_ne_true]
    have writable : c.checkWritable = .ok () := by
      rw [Cell.checkWritable, if_neg (by simp [readOnly]), marked]
      rfl
    cases value with
    | none => exact undefine_eq hc writable
    | some s =>
      dsimp only [filling, Write.store]
      unfold assignText
      cases room : c.makeRoom { text := true } with
      | ok d =>
        obtain ⟨g, eq, stored⟩ := assign_eq hc writable room
        exact ⟨g, eq, stored⟩
      | error f => exact assign_roomless hc writable room

/-- An attachment that has not acted reads the variable when its cell is read. -/
theorem fire_get_first (stands : a.hook = v.hook) (first : h.firedBefore a = 0) :
    fire .get i a h = (filling (v.value h)).store i
      { h with fired := h.fired.modify a.number (· + 1) } := by
  rw [fire_get stands, materialize, bind_get, if_pos first]
  show (match v.value h with
    | some value => assignText i value
    | none => undefine i) { h with fired := h.fired.modify a.number (· + 1) } = _
  cases v.value h <;> rfl

theorem mark_withFired (h : Heap) (fired : Array Nat) (i : CellId) (on : Bool) :
    ({ h with fired } : Heap).mark i on = { h.mark i on with fired } := by
  unfold mark updateCell setCell
  show (if h.isAlive i = true then _ else _) = _
  by_cases alive : h.isAlive i = true
  · rw [if_pos alive, if_pos alive]
    rfl
  · rw [if_neg alive, if_neg alive]

theorem cell?_mark_own (hc : h.cell? i = some c) (on : Bool) :
    (h.mark i on).cell? i = some (c.marked on) := by
  rw [cell?_mark, hc, Option.map_some, if_pos rfl]
  rfl

/-- **The first read** of a cell makes of it what the variable says, or fails and leaves it as it
was; the attachment has acted in either case. -/
theorem runHooks_get_first (k : Kept h₀ out h) (hi : i ∈ out) (calm : h.Calm)
    (hc : h.cell? i = some c) (one : c.hooks = [a]) (stands : a.hook = v.hook)
    (first : h.firedBefore a = 0) :
    match c.materialized (v.value h) with
    | .ok d => ∃ g, runHooks .get i h = .ok () g ∧ g.Holds i d ∧
        ActedOnce a h.environments h g
    | .error f => runHooks .get i h =
        .error f { h with fired := h.fired.modify a.number (· + 1) } := by
  have beside := sameBeside_mark h i true
  have first' : (h.mark i true).firedBefore a = 0 := by rwa [beside.firedBefore]
  have ran := runHooks_one calm hc one .get
  rw [fire_get_first stands first', beside.value, beside.fired] at ran
  generalize noted : { h.mark i true with fired := h.fired.modify a.number (· + 1) } = m at ran
  have hm : m.cell? i = some (c.marked true) := by
    rw [← noted]
    exact cell?_mark_own hc true
  have takes := store_filling hm rfl (v.value h)
  rw [Cell.materialized_marked] at takes
  cases made : c.materialized (v.value h) with
  | error f =>
    rw [made] at takes
    dsimp only [Except.map] at takes ⊢
    rw [ran, takes]
    dsimp only
    rw [← noted, mark_withFired, calm.mark_mark]
  | ok d =>
    rw [made] at takes
    dsimp only [Except.map] at takes ⊢
    obtain ⟨g, eq, stored⟩ := takes
    rw [eq] at ran
    dsimp only at ran
    have unmarked := sameBeside_mark g i false
    refine ⟨g.mark i false, ran, ?_, ?_⟩
    · -- the cell is held, so it is still there
      obtain ⟨e, he⟩ := (((keeps_runHooks hi .get).ends k).result ran).alive hi
      rw [cell?_mark] at he
      obtain ⟨e', he', rfl⟩ := Option.map_eq_some_iff.mp he
      obtain ⟨n, rfl⟩ := stored.cell e' he'
      refine ⟨n, (cell?_mark_own he' false).trans (congrArg some ?_)⟩
      have clear : d.flags.inHooks = false :=
        (Cell.takes_materialized made).inHooks.trans (calm i c hc)
      exact Cell.marked_marked (c := { d with owners := n }) clear true
    · have same := stored.beside.trans unmarked
      rw [← noted] at same
      exact ⟨same.environments.trans beside.environments, same.fired,
        same.reports.trans beside.reports⟩

/-! ### Writes -/

theorem sameBeside_silent (h : Heap) (i : CellId) (c : Cell) :
    h.SameBeside ((Read.text .silent).heap h i c) := by
  have nothing : (Read.text .silent).advice h.isAlive c = [] := by
    rw [Read.advice]
    split <;> rfl
  rw [Read.heap, nothing, reporting_nil]
  exact sameBeside_setCell h i _

/-- What a cell holds settles the variable, while its hooks run. -/
theorem writeThrough_eq (hc : h.cell? i = some c) (plain : c.Plain) :
    ∃ g d, writeThrough i a v.env v.name v.anyCase h = .ok () g ∧ g.cell? i = some d ∧
      d.Agrees c.entry ∧ d.Plain ∧ d.hooks = c.hooks ∧ d.flags.readOnly = c.flags.readOnly ∧
        ActedOnce a (v.settled h c.entry) h g := by
  generalize noted : { h with fired := h.fired.modify a.number (· + 1) } = m
  have hm : m.cell? i = some c := by rw [← noted]; exact hc
  have eq : writeThrough i a v.env v.name v.anyCase h =
      (if (m.cell i).isDefined m.isAlive then do
        let value ← readText i .silent
        modify fun h' => h'.updateEnvironment v.env (·.put (v.key h) value)
      else modify fun h' => h'.updateEnvironment v.env (·.erase (v.key h)) : OnHeap Unit) m := by
    rw [← noted]
    rfl
  rw [cell_eq hm, plain.isDefined] at eq
  cases defined : c.entry with
  | none =>
    rw [defined, if_neg (by simp)] at eq
    have empty : c.flags.holdsValue = false := by rw [← c.isSome_entry, defined]; rfl
    have agrees : c.Agrees none := by
      refine ⟨plain.noRef, fun _ => ?_, defined⟩
      simp only [Flags.holdsValue, Bool.or_eq_false_iff] at empty
      exact ⟨empty.1.1.1.1.1, empty.1.1.1.1.2⟩
    refine ⟨_, c, eq, hm, agrees, plain, rfl, rfl, ?_⟩
    rw [← noted]
    exact ⟨rfl, rfl, rfl⟩
  | some s =>
    rw [defined, if_pos Option.isSome_some, bind_ok (readText_eq hm plain.scalar .silent),
      Cell.spelt_eq plain.noRef] at eq
    have same := sameBeside_silent m i c
    have read : (Read.text .silent).leaves m.isAlive c = c.afterBytes m.isAlive := rfl
    have left : ((Read.text .silent).heap m i c).cell? i = some (c.afterBytes m.isAlive) := by
      rw [cell?_heap hm, if_pos rfl, read]
    have stays := c.stays_leaves (.text .silent) m.isAlive
    have agrees := Cell.agrees_afterBytes plain.noRef m.isAlive
    rw [read] at stays
    rw [defined] at agrees
    refine ⟨_, c.afterBytes m.isAlive, eq, left, agrees, plain.leaves (.text .silent) m.isAlive,
      stays.hooks, stays.readOnly, ?_⟩
    obtain rfl : c.spelt = s := by
      rw [Cell.entry] at defined
      split at defined
      · exact Option.some.inj defined
      · cases defined
    rw [← noted] at same ⊢
    have put := congrArg (fun es : Array Environment =>
      es.modify v.env (·.put (v.key h) c.spelt)) same.environments
    exact ⟨put, same.fired, same.reports⟩

/-- **A write** ends with the variable settled to what the cell holds, and the cell in agreement
with it. -/
theorem runHooks_set_eq (calm : h.Calm) (hc : h.cell? i = some c) (plain : c.Plain)
    (one : c.hooks = [a]) (stands : a.hook = v.hook) :
    ∃ g d, runHooks .set i h = .ok () g ∧ g.cell? i = some d ∧ d.Agrees c.entry ∧ d.Plain ∧
      d.hooks = c.hooks ∧ d.flags.readOnly = c.flags.readOnly ∧
        ActedOnce a (v.settled h c.entry) h g := by
  have beside := sameBeside_mark h i true
  have ran := runHooks_one calm hc one .set
  have plain' : (c.marked true).Plain := ⟨plain.scalar, plain.noRef⟩
  obtain ⟨g, d, eq, hd, agrees, still, hooks, readOnly, acted⟩ :=
    writeThrough_eq (a := a) (v := v) (cell?_mark_own hc true) plain'
  rw [fire_set stands, eq] at ran
  have unmarked := sameBeside_mark g i false
  refine ⟨g.mark i false, d.marked false, ran, cell?_mark_own hd false,
    ⟨agrees.noRef, agrees.textual, agrees.entry⟩, ⟨still.scalar, still.noRef⟩, hooks, readOnly, ?_⟩
  have settled : v.settled (h.mark i true) (c.marked true).entry = v.settled h c.entry := by
    rw [Variable.settled, Variable.key, environment, beside.environments]
    rfl
  exact ⟨unmarked.environments.trans (acted.environments.trans settled),
    unmarked.fired.trans (acted.fired.trans (by rw [beside.fired])),
    unmarked.reports.trans (acted.reports.trans beside.reports)⟩

/-! ### Whole reads -/

theorem keeps_perform_read (hi : i ∈ out) (r : Read) : Keeps (Kept h₀ out) (r.perform i) := by
  have taken : Keeps (Kept h₀ out) (r.take i) := by
    cases r with
    | int sink => exact (keeps_readInt hi sink).bind fun _ => Keeps.pure _
    | float sink => exact (keeps_readFloat hi sink).bind fun _ => Keeps.pure _
    | bytes sink => exact (keeps_readBytes hi sink).bind fun _ => Keeps.pure _
    | text sink => exact (keeps_readText hi sink).bind fun _ => Keeps.pure _
    | truth | numeric | defined | referent => exact Keeps.read fun _ k => k
  rw [← r.performBy_runHooks]
  exact Read.keeps_performBy (keeps_runHooks hi .get) taken

theorem keeps_calm_read (i : CellId) (r : Read) : Keeps Calm (r.perform i) := by
  rw [← r.performBy_runHooks]
  exact Read.keeps_performBy (keeps_calm_runHooks .get i)
    (keeps_calm_spares fun _ => Spares.keeps_take r)

/-- Reads that do not convert run no hooks. -/
theorem perform_still {r : Read} (still : r.converts = false) :
    ∃ sight, r.perform i h = .ok sight h := by
  cases r with
  | int | float | bytes | text | truth => cases still
  | numeric | defined | referent => exact ⟨_, rfl⟩

/-- Hooks that ran once need not run again. -/
theorem perform_ran (ran : runHooks .get i h = .ok () g) (idle : runHooks .get i g = .ok () g)
    {r : Read} (converts : r.converts = true) : r.perform i h = r.perform i g := by
  rw [← r.performBy_runHooks, Read.performBy, if_pos converts, bind_ok ran, bind_ok idle]

end

end Heap

end ScriptCore
