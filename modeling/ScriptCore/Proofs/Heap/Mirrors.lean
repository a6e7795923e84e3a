import ScriptCore.Proofs.Heap.Mismatches
import ScriptCore.Proofs.Heap.Sources

/-!
# Heap — a cell and its variable tell the same

A writable scalar whose only attachment stands for a variable reads as the variable and writes
through to it, in whatever order it is read, written and copied into, as far as its environment is
lawful and can hold the name and what is written.

* `Standing`: what holds of such a cell from the time it gets its attachment.
* `Standing.read`, `Standing.write`, `Standing.copy`: each thing that is done leaves it standing.
* `Mirrors`: what such a cell shows of the variable, and what becomes of the variable.
* `run_mirrors`: so a cell mirrors its variable after any dealings.
-/

namespace ScriptCore.Heap

/-- What is done with a cell: it is read, written, or another one is copied into it. -/
inductive Dealing
  | read (r : Read)
  | write (w : Write)
  | copy (source : CellId)

/-- The heap after a dealing, whether it failed or not. -/
def Dealing.leaves (i : CellId) (h : Heap) : Dealing → Heap
  | read r => after (r.perform i) h
  | write w => after (w.perform i) h
  | copy source => after (copyFrom i source) h

/-- The texts that a copy of a cell may leave, once its get hooks have run, are of a kind. -/
def CopiesOnly (values : String → Prop) (source : CellId) (h : Heap) : Prop :=
  ∀ g, runHooks .get source h = .ok () g → ∀ text ∈ (g.cell source).entry, values text

/-- A new cell with the value of a write. -/
def Write.fresh : Write → Cell
  | int v => .ofInt v
  | float v => .ofFloat v
  | bytes b => .ofBytes b
  | text s => .ofText s
  | ref target => .ofTarget target
  | undef => {}

/-- No reference is written, what is copied is a cell held outside, a scalar and no reference, and
the environment can hold the texts. -/
def Dealing.IsPlain (values : String → Prop) (held : List CellId) (h : Heap) : Dealing → Prop
  | read _ => True
  | write w => (∀ j, w ≠ .ref j) ∧ ∀ text ∈ w.fresh.entry, values text
  | copy source => source ∈ held ∧ (h.cell source).Plain ∧ CopiesOnly values source h

/-- Each dealing is plain when its turn comes. -/
def ArePlain (values : String → Prop) (held : List CellId) (i : CellId) :
    Heap → List Dealing → Prop
  | _, [] => True
  | h, d :: ds => d.IsPlain values held h ∧ ArePlain values held i (d.leaves i h) ds

/-- What a write has made of the variables, from the earlier heap to the later one: under the name
that the variable had there is now the text of the cell, and nothing if the cell is undefined; no
other variable has changed. -/
structure Through (v : Variable) (i : CellId) (value : Option String) (h g : Heap) : Prop where
  stored : (g.environment v.env).get? (v.key h) = value
  found : v.value g = value
  defined : g.isDefined i = value.isSome
  text : ∀ sink, ∃ k, getText i sink g = .ok (value.getD "") k
  names : ∀ m, m ≠ v.key h → (g.environment v.env).get? m = (h.environment v.env).get? m
  others : ∀ e, e ≠ v.env → g.environment e = h.environment e

/-- How a cell and a variable go together: reads succeed and change no variable, text is read as the
value of the variable, writes go through, and so do copies with the text of their source, unless
its hooks fail. -/
structure Mirrors (values : String → Prop) (v : Variable) (i : CellId) (held : List CellId)
    (h : Heap) : Prop where
  reads : ∀ r : Read, ∃ sight g, r.perform i h = .ok sight g ∧ g.environments = h.environments
  text : ∀ sink, ∃ g, getText i sink h = .ok ((v.value h).getD "") g ∧
    g.isDefined i = (v.value h).isSome
  writes : ∀ w : Write, (∀ j, w ≠ .ref j) → (∀ text ∈ w.fresh.entry, values text) →
    ∃ g, w.perform i h = .ok () g ∧ Through v i w.fresh.entry h g
  copies : ∀ source ∈ held, source ≠ i → (h.cell source).Plain → CopiesOnly values source h →
    match copyFrom i source h with
    | .ok _ g => Through v i (g.cell source).entry h g
    | .error e g => runHooks .get source h = .error e g ∧ g.environments = h.environments
  itself : copyFrom i i h = .ok () h

/-- The cell has been filled anew and gives the variable some value; it has the attachments it
had. -/
structure Renewed (c : Cell) (value : Option String) (d : Cell) : Prop where
  plain : d.Plain
  entry : d.entry = value
  hooks : d.hooks = c.hooks
  readOnly : d.flags.readOnly = c.flags.readOnly

/-- The cell is a scalar that may be written, its only attachment is there to stand for the
variable, and once that has acted, the cell agrees with the variable.  The environment is lawful and
can hold its name. -/
structure Standing (names values : String → Prop) (v : Variable) (a : Attachment) (i : CellId)
    (held : List CellId) (h : Heap) : Prop where
  kept : Kept h held h
  calm : h.Calm
  there : v.env < h.environments.size
  lawful : (h.environment v.env).host.Lawful names values
  named : names v.name
  apart : v.anyCase = true → (h.environment v.env).Apart
  cell : ∃ c, h.cell? i = some c ∧ c.shape.isAggregate = false ∧ c.flags.readOnly = false ∧
    c.hooks = [a] ∧ (h.firedBefore a = 0 ∨ c.Agrees (v.value h))

section
variable {h₀ h g : Heap} {i source : CellId} {c d : Cell} {a : Attachment} {v : Variable}
  {held : List CellId} {value : Option String} {names values : String → Prop}

/-- What a write has made of the variables does not depend on anything else. -/
theorem Through.of_environments {k : Heap} (t : Through v i value g k)
    (same : g.environments = h.environments) : Through v i value h k := by
  have environment (e : Nat) : g.environment e = h.environment e := by
    rw [environment, same, environment]
  have key : v.key g = v.key h := by rw [Variable.key, environment, Variable.key]
  refine ⟨key ▸ t.stored, t.found, t.defined, t.text, fun m other => ?_, fun e other => ?_⟩
  · rw [t.names m (key ▸ other), environment]
  · rw [t.others e other, environment]

/-! ### What keeps the books -/

theorem keeps_store_plain (hi : i ∈ held) {w : Write} (noRef : ∀ j, w ≠ .ref j) :
    Keeps (Kept h₀ held) (w.store i) := by
  cases w with
  | int v => exact keeps_assignInt hi v
  | float v => exact keeps_assignFloat hi v
  | bytes b => exact keeps_assignBytes hi b
  | text s => exact keeps_assignText hi s
  | ref j => exact absurd rfl (noRef j)
  | undef => exact keeps_undefine hi

/-! ### Reads -/

namespace Standing

/-- **Running get hooks** brings the cell into agreement with the variable. -/
theorem runHooks_get (s : Standing names values v a i held h) (hi : i ∈ held)
    (stands : a.hook = v.hook) :
    ∃ g c, runHooks .get i h = .ok () g ∧ runHooks .get i g = .ok () g ∧
      Standing names values v a i held g ∧ g.environments = h.environments ∧ g.cell? i = some c ∧
        c.Plain ∧ c.Agrees (v.value h) := by
  obtain ⟨c, hc, scalar, writable, one, agrees⟩ := s.cell
  by_cases first : h.firedBefore a = 0
  · obtain ⟨d, made⟩ := Cell.exists_materialized scalar writable (v.value h)
    have takes := Cell.takes_materialized made
    have ran := runHooks_get_first s.kept hi s.calm hc one stands first
    rw [made] at ran
    obtain ⟨g, ran, ⟨n, hn⟩, acted⟩ := ran
    have kept := ((keeps_runHooks hi .get).ends s.kept).result ran
    have calm := ((keeps_calm_runHooks .get i).ends s.calm).result ran
    have numbered : a.number < h.fired.size :=
      s.kept.number_lt (i := i) (by rw [cell_eq hc, one]; exact List.mem_cons_self)
    have same : v.value g = v.value h := by
      rw [Variable.value, environment, acted.environments]
      rfl
    have holds : ({ d with owners := n } : Cell).Agrees (v.value h) :=
      ⟨takes.agrees.noRef, takes.agrees.textual, takes.agrees.entry⟩
    have idle := runHooks_get_idle calm hn (takes.hooks.trans one) stands (acted.acted numbered)
    refine ⟨g, _, ran, idle, ⟨kept.again, calm, ?_, ?_, s.named, ?_, _, hn,
      takes.scalar scalar, takes.readOnly, takes.hooks.trans one, .inr (same ▸ holds)⟩,
      acted.environments, hn, ⟨takes.scalar scalar, takes.agrees.noRef⟩, holds⟩
    · rw [acted.environments]
      exact s.there
    · rw [environment, acted.environments]
      exact s.lawful
    · rw [environment, acted.environments]
      exact s.apart
  · have agrees := agrees.resolve_left first
    have idle := runHooks_get_idle s.calm hc one stands first
    exact ⟨h, c, idle, idle, s, rfl, hc, ⟨scalar, agrees.noRef⟩, agrees⟩

theorem read (s : Standing names values v a i held h) (hi : i ∈ held) (stands : a.hook = v.hook)
    (r : Read) : ∃ sight g, r.perform i h = .ok sight g ∧ Standing names values v a i held g ∧
      g.environments = h.environments := by
  cases converts : r.converts with
  | false =>
    obtain ⟨sight, eq⟩ := perform_still (i := i) (h := h) converts
    exact ⟨sight, h, eq, s, rfl⟩
  | true =>
    obtain ⟨g, c, ran, idle, standing, same, hc, plain, agrees⟩ := s.runHooks_get hi stands
    have eq := (perform_ran ran idle converts).trans (perform_eq hc plain.scalar idle r)
    have beside := sameBeside_setCell g i (r.leaves g.isAlive c)
    have left : (r.heap g i c).cell? i = some (r.leaves g.isAlive c) := by
      rw [cell?_heap hc, if_pos rfl]
    have value : v.value (r.heap g i c) = v.value h := by
      rw [Variable.value, environment]
      show Environment.valueFor ((g.setCell i _).environments.getD _ _) _ _ = _
      rw [beside.environments, same]
      rfl
    obtain ⟨c', hc', -, writable, one, -⟩ := standing.cell
    obtain rfl : c = c' := Option.some.inj (hc.symm.trans hc')
    have stays := c.stays_leaves r g.isAlive
    refine ⟨_, _, eq, ⟨?_, ?_, ?_, ?_, s.named, ?_, _, left, (plain.leaves r g.isAlive).scalar,
      stays.readOnly.trans writable, stays.hooks.trans one, .inr ?_⟩, ?_⟩
    · exact (((keeps_perform_read hi r).ends s.kept).result eq).again
    · exact ((keeps_calm_read i r).ends s.calm).result eq
    · show v.env < (g.setCell i _).environments.size
      rw [beside.environments]
      exact standing.there
    · show ((g.setCell i _).environments.getD _ _).host.Lawful names values
      rw [beside.environments]
      exact standing.lawful
    · show v.anyCase = true → Environment.Apart ((g.setCell i _).environments.getD _ _)
      rw [beside.environments]
      exact standing.apart
    · rw [value]
      exact agrees.leaves r g.isAlive
    · exact beside.environments.trans same

/-- **Text** is the value of the variable. -/
theorem text (s : Standing names values v a i held h) (hi : i ∈ held) (stands : a.hook = v.hook)
    (sink : Sink) : ∃ g, getText i sink h = .ok ((v.value h).getD "") g ∧
      g.isDefined i = (v.value h).isSome := by
  obtain ⟨g, c, ran, -, -, -, hc, plain, agrees⟩ := s.runHooks_get hi stands
  have eq := readText_eq hc plain.scalar sink
  rw [agrees.text] at eq
  refine ⟨(Read.text sink).heap g i c, (bind_ok ran).trans eq, ?_⟩
  have left : ((Read.text sink).heap g i c).cell? i =
      some ((Read.text sink).leaves g.isAlive c) := by
    rw [cell?_heap hc, if_pos rfl]
  rw [isDefined, cell_eq left, (plain.leaves (.text sink) g.isAlive).isDefined,
    (agrees.leaves (.text sink) g.isAlive).entry]

/-! ### Writes -/

/-- **What is stored** goes through to the variable when the set hooks have run. -/
theorem settle (s : Standing names values v a i held h) (hi : i ∈ held) (stands : a.hook = v.hook)
    (one : c.hooks = [a]) (writable : c.flags.readOnly = false)
    (stored : Stored h i d g) (renewed : Renewed c value d) (held' : ∀ text ∈ value, values text)
    (kept : Kept h held g) (calm : g.Calm) : ∃ k, runHooks .set i g = .ok () k ∧
      Standing names values v a i held k ∧ Through v i value h k := by
  obtain ⟨e, he⟩ := kept.alive hi
  obtain ⟨n, rfl⟩ := stored.cell e he
  have plain : ({ d with owners := n } : Cell).Plain := ⟨renewed.plain.scalar, renewed.plain.noRef⟩
  have one' := renewed.hooks.trans one
  obtain ⟨k, e, ran, hk, agrees, plain', hooks, readOnly, acted⟩ :=
    runHooks_set_eq calm he plain one' stands
  have entry : ({ d with owners := n } : Cell).entry = value := renewed.entry
  rw [entry] at agrees acted
  have settled : k.environments = v.settled h value := by
    rw [acted.environments, Variable.settled, Variable.key, environment,
      stored.beside.environments]
    rfl
  have environment := environment_settled s.there settled
  have here := (environment v.env).trans (if_pos rfl)
  have found : v.value k = value := by
    rw [Variable.value, here]
    exact s.lawful.valueFor_settle s.named held' s.apart
  have numbered : a.number < g.fired.size :=
    kept.number_lt (i := i) (by rw [cell_eq he, one']; exact List.mem_cons_self)
  have standing : Standing names values v a i held k := by
    refine ⟨?_, ?_, ?_, ?_, s.named, fun any => ?_, e, hk, plain'.scalar,
      readOnly.trans (renewed.readOnly.trans writable), hooks.trans one', .inr (found ▸ agrees)⟩
    · exact (((keeps_runHooks hi .set).ends kept).result ran).again
    · exact ((keeps_calm_runHooks .set i).ends calm).result ran
    · rw [settled, Variable.settled, Array.size_modify]
      exact s.there
    · rw [here, Environment.host_settle]
      exact s.lawful
    · rw [here, Variable.key, any]
      exact s.lawful.apart_settle s.named held' (s.apart any)
  have settles := s.lawful.get?_settle (s.lawful.named s.named v.anyCase) held'
  refine ⟨k, ran, standing, ?_, found, ?_, fun sink => ?_, fun m other => ?_, fun e other => ?_⟩
  · rw [here, Variable.key, settles, if_pos rfl]
  · rw [isDefined, cell_eq hk, plain'.isDefined, agrees.entry]
  · obtain ⟨k', eq, -⟩ := standing.text hi stands sink
    exact ⟨k', found ▸ eq⟩
  · rw [here]
    exact (settles m).trans (if_neg other)
  · rw [environment, if_neg other]

end Standing

/-- A scalar that may be written is filled. -/
theorem assign_renewed (hc : h.cell? i = some c) (writable : c.checkWritable = .ok ())
    (scalar : c.shape.isAggregate = false) (need : Room) (fill : Cell → Cell)
    (renewed : ∀ t : Shape, t.isAggregate = false →
      Renewed c value (fill { c with shape := t }.clearValue)) :
    ∃ g d, assign i need none fill h = .ok () g ∧ Stored h i d g ∧ Renewed c value d := by
  obtain ⟨t, ht, scalar⟩ := Cell.exists_room scalar need
  have room : c.makeRoom need = .ok { c with shape := t } := by rw [Cell.makeRoom, ht]
  obtain ⟨g, eq, stored⟩ := assign_eq hc writable room
  exact ⟨g, _, eq, stored, renewed t scalar⟩

/-- **A write** fills the cell with its value. -/
theorem store_renewed (hc : h.cell? i = some c) (writable : c.checkWritable = .ok ())
    (scalar : c.shape.isAggregate = false) {w : Write} (noRef : ∀ j, w ≠ .ref j) :
    ∃ g d, w.store i h = .ok () g ∧ Stored h i d g ∧ Renewed c w.fresh.entry d := by
  cases w with
  | int v =>
    unfold Write.store assignInt
    refine assign_renewed hc writable scalar _ _ fun t scalar => ?_
    exact ⟨⟨scalar, rfl⟩, rfl, rfl, rfl⟩
  | float v =>
    unfold Write.store assignFloat
    refine assign_renewed hc writable scalar _ _ fun t scalar => ?_
    exact ⟨⟨scalar, rfl⟩, rfl, rfl, rfl⟩
  | bytes b =>
    unfold Write.store assignBytes
    refine assign_renewed hc writable scalar _ _ fun t scalar => ?_
    exact ⟨⟨scalar, rfl⟩, rfl, rfl, rfl⟩
  | text s =>
    unfold Write.store assignText
    refine assign_renewed hc writable scalar _ _ fun t scalar => ?_
    exact ⟨⟨scalar, rfl⟩, rfl, rfl, rfl⟩
  | ref j => exact absurd rfl (noRef j)
  | undef =>
    obtain ⟨g, eq, stored⟩ := undefine_eq hc writable
    exact ⟨g, _, eq, stored, ⟨scalar, rfl⟩, rfl, rfl, rfl⟩

/-- The only attachment of the cell does not forbid writes. -/
theorem checkWritable_standing (one : c.hooks = [a]) (stands : a.hook = v.hook)
    (writable : c.flags.readOnly = false) : c.checkWritable = .ok () := by
  have allows : a.hook.allowsWrite = true := by rw [stands]; rfl
  rw [Cell.checkWritable, if_neg (by simp [writable]), if_neg (by simp [one, allows])]

namespace Standing

theorem write (s : Standing names values v a i held h) (hi : i ∈ held) (stands : a.hook = v.hook)
    {w : Write} (noRef : ∀ j, w ≠ .ref j) (held' : ∀ text ∈ w.fresh.entry, values text) :
    ∃ g, w.perform i h = .ok () g ∧ Standing names values v a i held g ∧
      Through v i w.fresh.entry h g := by
  obtain ⟨c, hc, scalar, writable, one, -⟩ := s.cell
  obtain ⟨g, d, eq, stored, renewed⟩ :=
    store_renewed hc (checkWritable_standing one stands writable) scalar noRef
  have kept := ((keeps_store_plain hi noRef).ends s.kept).result eq
  have calm := ((keeps_calm_spares fun _ => Spares.keeps_store w).ends s.calm).result eq
  obtain ⟨k, ran, standing, through⟩ :=
    s.settle hi stands one writable stored renewed held' kept calm
  refine ⟨k, ?_, standing, through⟩
  rw [w.perform_eq, bind_ok eq, ran]

/-! ### Copies -/

/-- The get hooks of another cell leave the cell standing, and the variables as they are. -/
theorem runHooks_source (s : Standing names values v a i held h) (hi : i ∈ held)
    (hsource : source ∈ held) (apart : source ≠ i) (plain : (h.cell source).Plain) :
    Ends (runHooks .get source) h (fun _ g => Standing names values v a i held g ∧
      g.environments = h.environments ∧ (g.cell source).Plain) fun g =>
        Standing names values v a i held g ∧ g.environments = h.environments := by
  obtain ⟨c, hc, scalar, writable, one, agrees⟩ := s.cell
  obtain ⟨d, hd⟩ := s.kept.alive hsource
  have aloof : Aloof a h.environments (h.firedBefore a) source h := ⟨plain, rfl, rfl⟩
  have others : ∀ b ∈ (h.cell source).hooks, b.number ≠ a.number := by
    rw [cell_eq hd]
    intro b hb
    refine s.kept.number_ne hd hc apart hb ?_
    rw [one]
    exact List.mem_cons_self
  have standing {g : Heap} (kept : Kept h held g) (calm : g.Calm) (holds : g.Holds i c)
      (aloof : Aloof a h.environments (h.firedBefore a) source g) :
      Standing names values v a i held g := by
    obtain ⟨n, hn⟩ := holds
    have same : v.value g = v.value h := by
      rw [Variable.value, environment, aloof.environments]
      rfl
    refine ⟨kept.again, calm, ?_, ?_, s.named, ?_, _, hn, scalar, writable, one, ?_⟩
    · rw [aloof.environments]
      exact s.there
    · rw [environment, aloof.environments]
      exact s.lawful
    · rw [environment, aloof.environments]
      exact s.apart
    · rw [aloof.acts, same]
      exact agrees.imp id fun a => ⟨a.noRef, a.textual, a.entry⟩
  have ran := (((keeps_runHooks hsource .get).ends s.kept).and
    ((keeps_calm_runHooks .get source).ends s.calm)).and
      ((s.kept.holds_runHooks hi hsource apart ⟨c.owners, hc⟩).and (aloof.runHooks others))
  refine ran.imp ?_ ?_
  · rintro - g ⟨⟨kept, calm⟩, holds, aloof⟩
    exact ⟨standing kept calm holds aloof, aloof.environments, aloof.plain⟩
  · rintro g ⟨⟨kept, calm⟩, holds, aloof⟩
    exact ⟨standing kept calm holds aloof, aloof.environments⟩

end Standing

/-- The value of a plain cell is as good on any other one. -/
theorem renewed_onto (plain : d.Plain) {t : Shape} (scalar : t.isAggregate = false) :
    Renewed c d.entry (d.onto { c with shape := t }.clearValue none false) := by
  have flags :
      ({ c with shape := t }.clearValue).flags.union { d.flags.copied with weak := false } =
      { d.flags with
        weak := false, readOnly := c.flags.readOnly
        tainted := c.flags.tainted || d.flags.tainted
        object := c.flags.object, inHooks := c.flags.inHooks } := by
    simp [Cell.clearValue, Flags.withoutValue, Flags.union, Flags.copied]
  unfold Cell.onto
  rw [flags]
  have noRef := plain.noRef
  refine ⟨⟨scalar, noRef⟩, ?_, rfl, rfl⟩
  simp only [Cell.entry, Cell.spelt, Cell.bytesRead, Cell.source, Flags.holdsValue, noRef,
    Bool.false_eq_true, if_false]

/-- A copy of a plain cell fills its destination with the value, once the hooks of its source have
run. -/
theorem copyFrom_plain (kept : Kept h₀ held g) (apart : source ≠ i)
    (ran : runHooks .get source h = .ok () g) (hd : g.cell? source = some d) (plain : d.Plain) :
    copyFrom i source h = (assign i d.shape.room.values none (fun e => d.onto e none false) >>=
      fun _ => runHooks .set i) g := by
  obtain ⟨gains, weak, gained, was, eq⟩ := copyFrom_ran apart ran hd plain.scalar
  have none : g.copiedTarget d = none := by
    rw [copiedTarget, if_neg (by simp [plain.noRef])]
  rw [none] at gained eq
  obtain rfl : gains = .none := Option.toList_eq_nil_iff.mp gained
  have unweak : weak = false := by
    by_contra weak
    have target := (kept.valid hd).value.weak.mp (was (Bool.eq_true_of_not_eq_false weak))
    obtain ⟨j, hj⟩ := target
    have ref := (kept.valid hd).value.ref
    rw [plain.noRef, hj] at ref
    cases ref
  rw [eq, unweak]

namespace Standing

/-- **A copy** goes through to the variable, unless hooks of its source fail. -/
theorem copy (s : Standing names values v a i held h) (hi : i ∈ held) (stands : a.hook = v.hook)
    (hsource : source ∈ held) (apart : source ≠ i) (plain : (h.cell source).Plain)
    (held' : CopiesOnly values source h) :
    match copyFrom i source h with
    | .ok _ g => Standing names values v a i held g ∧ Through v i (g.cell source).entry h g
    | .error e g => runHooks .get source h = .error e g ∧ Standing names values v a i held g ∧
        g.environments = h.environments := by
  have left := s.runHooks_source hi hsource apart plain
  cases ran : runHooks .get source h with
  | error e g =>
    rw [Ends, ran] at left
    rw [copyFrom, if_neg (Ne.symm apart), bind_error ran]
    exact ⟨rfl, left⟩
  | ok _ g =>
    rw [Ends, ran] at left
    obtain ⟨standing, same, plain⟩ := left
    obtain ⟨d, hd⟩ := standing.kept.alive hsource
    have held' := held' g ran
    rw [cell_eq hd] at plain held'
    obtain ⟨c, hc, scalar, writable, one, -⟩ := standing.cell
    have writable' := checkWritable_standing one stands writable
    obtain ⟨k, e, eq, stored, renewed⟩ := assign_renewed hc writable' scalar d.shape.room.values
      (fun e => d.onto e none false) fun t scalar => renewed_onto plain scalar
    have valid := standing.kept.valid hd
    have fills : Fills d.shape.room.values none (fun e => d.onto e none false) c := by
      refine fills_copy valid (standing.kept.valid hc) plain.noRef ⟨Bool.noConfusion, ?_⟩ rfl
      rintro ⟨j, weak⟩
      cases weak
    have gains : ∀ j ∈ (none : Option CellId).toList, ∃ e, g.cell? j = some e :=
      fun j gained => absurd gained List.not_mem_nil
    have kept : Kept g held k := (standing.kept.assign hc gains fills).result eq
    have spares (h₀ : Heap) : Keeps (Spares i h₀)
        (assign i d.shape.room.values none fun e => d.onto e none false) :=
      Spares.keeps_assign fun e => Bool.or_false e.flags.inHooks
    have calm : k.Calm := ((keeps_calm_spares spares).ends standing.calm).result eq
    obtain ⟨k', ran', standing', through⟩ :=
      standing.settle hi stands one writable stored renewed held' kept calm
    rw [copyFrom_plain standing.kept apart ran hd plain, bind_ok eq, ran']
    -- the source is held outside, so what happens to its copy leaves it as it is
    have spared := ((Spares.keeps_runHooks .set).ends
      (((spares g).ends (.refl i g)).result eq)).result ran'
    obtain ⟨e', he'⟩ := standing'.kept.alive hsource
    obtain ⟨n, hn⟩ := spared.others source e' apart he'
    obtain rfl : d = { e' with owners := n } := Option.some.inj (hd.symm.trans hn)
    refine ⟨standing', ?_⟩
    rw [cell_eq he']
    exact through.of_environments same

/-- Any dealing leaves the cell standing. -/
theorem leaves (s : Standing names values v a i held h) (hi : i ∈ held) (stands : a.hook = v.hook)
    {d : Dealing} (plain : d.IsPlain values held h) :
    Standing names values v a i held (d.leaves i h) := by
  cases d with
  | read r =>
    obtain ⟨sight, g, eq, standing, -⟩ := s.read hi stands r
    rwa [Dealing.leaves, after, eq]
  | write w =>
    obtain ⟨g, eq, standing, -⟩ := s.write hi stands plain.1 plain.2
    rwa [Dealing.leaves, after, eq]
  | copy source =>
    by_cases apart : source = i
    · rw [Dealing.leaves, after, copyFrom, if_pos apart.symm]
      exact s
    · have copied := s.copy hi stands plain.1 apart plain.2.1 plain.2.2
      rw [Dealing.leaves, after]
      split at copied <;> rename_i eq <;> rw [eq]
      · exact copied.1
      · exact copied.2.1

/-- Any dealings do. -/
theorem leaves_all (s : Standing names values v a i held h) (hi : i ∈ held)
    (stands : a.hook = v.hook) {ds : List Dealing} (plain : ArePlain values held i h ds) :
    Standing names values v a i held (ds.foldl (Dealing.leaves i) h) := by
  induction ds generalizing h with
  | nil => exact s
  | cons d ds ih => exact ih (s.leaves hi stands plain.1) plain.2

/-- **A cell that stands for a variable** mirrors it. -/
theorem mirrors (s : Standing names values v a i held h) (hi : i ∈ held)
    (stands : a.hook = v.hook) : Mirrors values v i held h where
  reads r := by
    obtain ⟨sight, g, eq, -, same⟩ := s.read hi stands r
    exact ⟨sight, g, eq, same⟩
  text := s.text hi stands
  writes w noRef held' := by
    obtain ⟨g, eq, -, through⟩ := s.write hi stands noRef held'
    exact ⟨g, eq, through⟩
  copies source hsource apart plain held' := by
    have copied := s.copy hi stands hsource apart plain held'
    split at copied
    · exact copied.2
    · exact ⟨copied.1, copied.2.2⟩
  itself := by
    rw [copyFrom, if_pos rfl]
    rfl

end Standing

end

/-- **Environment cells write through.**  Whatever a host did: a scalar that it has a handle on and
may write, with an attachment that has not acted, which stands for a variable and is the only one,
mirrors that variable, and so it does after any reads, writes and copies, if no reference is among
them.  The environment is lawful for some names and values, the name is one of these, and so is
every text that is written or copied.  Where names are taken in any case, no two of the environment
may differ only in that. -/
theorem run_mirrors (seeds : Array Seed) (supply : Supply) (ops : List Op) {i : CellId} {c : Cell}
    {a : Attachment} {v : Variable} (hi : i ∈ ((Host.start seeds supply).run ops).held)
    (hc : ((Host.start seeds supply).run ops).heap.cell? i = some c)
    (scalar : c.shape.isAggregate = false) (writable : c.flags.readOnly = false)
    (one : c.hooks = [a]) (stands : a.hook = v.hook)
    (first : ((Host.start seeds supply).run ops).heap.firedBefore a = 0)
    (there : v.env < ((Host.start seeds supply).run ops).heap.environments.size)
    {names values : String → Prop}
    (lawful : (((Host.start seeds supply).run ops).heap.environment v.env).host.Lawful names values)
    (named : names v.name)
    (apart : v.anyCase = true →
      (((Host.start seeds supply).run ops).heap.environment v.env).Apart)
    (ds : List Dealing)
    (plain : ArePlain values ((Host.start seeds supply).run ops).held i
      ((Host.start seeds supply).run ops).heap ds) :
    Mirrors values v i ((Host.start seeds supply).run ops).held
      (ds.foldl (Dealing.leaves i) ((Host.start seeds supply).run ops).heap) := by
  have standing : Standing names values v a i ((Host.start seeds supply).run ops).held
      ((Host.start seeds supply).run ops).heap :=
    ⟨((kept_start seeds supply).run ops).again, (calm_start seeds supply).run ops, there, lawful,
      named, apart, c, hc, scalar, writable, one, .inl first⟩
  exact (standing.leaves_all hi stands plain).mirrors hi stands

/-- A cell that stands for `PATH` in any case, in an environment that spells it `Path`: after
another text was copied into it, it was read and made undefined, an integer that is written goes
through. -/
theorem run_mirrors_path :
    let ops : List Op := [.updateEnvironment 0 (·.put "Path" "/bin"), .make .undef,
      .attach 0 .environment (.environment 0 "PATH" true), .make (.text "é")]
    let ds : List Dealing := [.copy 1, .read (.text .silent), .write .undef]
    let s := (Host.start #[] {}).run ops
    ∃ g k, (Write.int 5).perform 0 (ds.foldl (Dealing.leaves 0) s.heap) = .ok () g ∧
      Variable.value ⟨0, "PATH", true⟩ g = some "5" ∧ getText 0 .silent g = .ok "5" k := by
  intro ops ds s
  have cell : s.heap.cell? 0 = some (s.heap.cell 0) := by with_unfolding_all rfl
  have one : (s.heap.cell 0).hooks = [⟨.environment, .environment 0 "PATH" true, 0⟩] := by
    decide +kernel
  have names : (s.heap.environment 0).vars = [("Path", "/bin")] := by decide +kernel
  have apart : (s.heap.environment 0).Apart := by
    unfold Environment.Apart
    rw [names]
    intro p hp q hq _
    rw [List.mem_singleton.mp hp, List.mem_singleton.mp hq]
  have plain : ArePlain (fun _ => True) s.held 0 s.heap ds :=
    ⟨⟨by decide +kernel, ⟨by decide +kernel, by decide +kernel⟩, fun _ _ _ _ => trivial⟩, trivial,
      ⟨nofun, fun _ _ => trivial⟩, trivial⟩
  have mirrors := run_mirrors #[] {} ops (v := ⟨0, "PATH", true⟩) (by decide +kernel) cell
    (by decide +kernel) (by decide +kernel) one rfl (by decide +kernel) (by decide +kernel)
    Environment.lawful_ordered trivial (fun _ => apart) ds plain
  obtain ⟨g, ran, through⟩ := mirrors.writes (.int 5) nofun fun _ _ => trivial
  have five : (Write.int 5).fresh.entry = some "5" := by decide +kernel
  rw [five] at through
  obtain ⟨k, read⟩ := through.text .silent
  exact ⟨g, k, ran, through.found, read⟩

end ScriptCore.Heap
