import ScriptCore.Proofs.Heap.Converting
import ScriptCore.Proofs.Heap.Firing
import ScriptCore.Proofs.Heap.Ledger

/-!
# Heap — whatever is done to cells keeps the ledger

An operation on cells may name any cell, alive or not, and run any hooks: it moves keys between
hashes and pools in the ways that a `Ledger` allows, also when it fails.

* `SameTable`: most changes leave the table of a cell alone.
* `Ledger.keeps_runHooks`: so do hooks, but for those that make a hash undefined.
* `Ledger.keeps_act`: a host may do all it can but share a pool behind the back of the account.
-/

namespace ScriptCore.Heap
open Key

section
variable {a : Account} {h : Heap} {i j : CellId} {c d e : Cell} {need : Room}

/-! ### Cells that keep their table -/

theorem SameTable.trans (s : SameTable c d) (s' : SameTable d e) : SameTable c e :=
  ⟨s'.table.trans s.table, fun hash => s'.shape (s.shape hash)⟩

/-- A hash that grows stays a hash. -/
theorem SameTable.makeRoom (made : c.makeRoom need = .ok d) : SameTable c d := by
  obtain ⟨t, grows, rfl⟩ := Cell.makeRoom_ok made
  refine ⟨rfl, fun hash => ?_⟩
  show t = .hash
  rw [grows.aggregate (by rw [hash]; rfl), hash]

/-! ### Writes -/

/-- What is no concern of cells and keys. -/
theorem Ledger.keeps_beside {f : Heap → Heap} (cells : ∀ h, (f h).cells = h.cells)
    (ring : ∀ h, (f h).ring = h.ring) : Keeps (Ledger a) (modify f : OnHeap Unit) :=
  Keeps.modify fun h l => l.of_cells (cells h) (ring h)

theorem Ledger.keeps_updateCell (i : CellId) {f : Heap → Cell → Cell}
    (same : ∀ h c, SameTable c (f h c)) :
    Keeps (Ledger a) (modify fun h => h.updateCell i (f h) : OnHeap Unit) :=
  Keeps.modify fun h l => l.updateCell i (same h)

theorem Ledger.keeps_log (event : String) : Keeps (Ledger a) (log event) :=
  keeps_beside (fun _ => rfl) fun _ => rfl

theorem Ledger.keeps_report (sink : Sink) (r : Advisory) : Keeps (Ledger a) (report sink r) := by
  cases sink with
  | silent => exact Keeps.pure _
  | site n => exact keeps_beside (fun _ => rfl) fun _ => rfl

/-- A new cell that is no hash. -/
theorem Ledger.keeps_new (plain : c.payload.table? = none) : Keeps (Ledger a) (new c) := by
  refine Keeps.of_ends fun h l => l.allocate c fun t ht => ?_
  rw [plain] at ht
  cases ht

/-- A new hash with keys of its own. -/
theorem Ledger.keeps_newHash (seed : Seed) : Keeps (Ledger a) (new (.ofTable { seed })) := by
  refine Keeps.of_ends fun h l => l.allocate _ fun t ht => ?_
  cases ht
  exact ⟨rfl, Account.seats_own l.exact.sound seed, rfl⟩

theorem Ledger.keeps_newRef (target : CellId) : Keeps (Ledger a) (newRef target) :=
  (Keeps.modify fun _ l => l.retainAll [target]).bind fun _ => keeps_new rfl

theorem Ledger.keeps_newArray (items : List CellId) : Keeps (Ledger a) (newArray items) :=
  (Keeps.modify fun _ l => l.retainAll items).bind fun _ => keeps_new rfl

/-- **A write** keeps the table of its cell. -/
theorem Ledger.keeps_assign {gains : Option CellId} {fill : Cell → Cell}
    (same : ∀ c, SameTable c (fill c)) : Keeps (Ledger a) (assign i need gains fill) := by
  refine Keeps.read fun h l => Ends.outcome (fun _ _ => Ends.outcome (fun roomy made => ?_) l) l
  have filled : Ledger a (h.setCell i (fill roomy.clearValue)) := l.setCell i fun c hc => by
    rw [cell_eq hc] at made
    have cleared : SameTable roomy roomy.clearValue := .of_payload rfl rfl
    exact (SameTable.makeRoom made).trans (cleared.trans (same _))
  have left := (filled.retainAll gains.toList).letGo (kept (h.cell i).target)
  rw [← release_target] at left
  exact left

theorem Ledger.keeps_assignInt (v : Int64) : Keeps (Ledger a) (assignInt i v) :=
  keeps_assign fun _ => .of_payload rfl rfl

theorem Ledger.keeps_assignFloat (v : Binary64) : Keeps (Ledger a) (assignFloat i v) :=
  keeps_assign fun _ => .of_payload rfl rfl

theorem Ledger.keeps_assignBytes (b : Bytes) : Keeps (Ledger a) (assignBytes i b) :=
  keeps_assign fun _ => .of_payload rfl rfl

theorem Ledger.keeps_assignText (s : String) : Keeps (Ledger a) (assignText i s) :=
  keeps_assign fun _ => .of_payload rfl rfl

theorem Ledger.keeps_assignRef (target : CellId) : Keeps (Ledger a) (assignRef i target) :=
  keeps_assign fun _ => .of_payload rfl rfl

/-- **Undefining** a hash gives its keys back, once its referent has been let go. -/
theorem Ledger.keeps_undefine (i : CellId) : Keeps (Ledger a) (undefine i) := by
  refine Keeps.read fun h l => Ends.outcome (fun _ _ => ?_) l
  cases hc : h.cell? i with
  | none =>
    have blank : h.cell i = { owners := 0 } := by rw [cell, hc, Option.getD_none]
    rw [blank]
    show Ledger a ({ h.setCell i _ with ring := _ }.letGo [])
    rw [setCell_gone hc]
    exact (l.of_cells rfl rfl).letGo []
  | some c =>
    rw [cell_eq hc]
    have given := ((l.undefined hc).letGo (kept c.target)).releaseKeys
    rw [← release_target] at given
    exact given.letGo _

/-! ### Attachments -/

theorem Ledger.keeps_attach (kind : HookKind) (hook : Hook) :
    Keeps (Ledger a) (attach i kind hook) := by
  refine Keeps.read fun h l => Ends.outcome (fun d made => ?_) l
  have pushed : Ledger a { h with fired := h.fired.push 0 } := l.of_cells rfl rfl
  refine pushed.setCell i fun c hc => ?_
  have hc : h.cell? i = some c := hc
  rw [cell_eq hc] at made
  exact (SameTable.makeRoom made).trans (.of_payload rfl rfl)

theorem Ledger.keeps_detach (kind : HookKind) : Keeps (Ledger a) (detach i kind) := by
  refine Keeps.read fun h l => ?_
  have left (gone : List Attachment) : Ledger a (h.takeLeave gone) := l.of_cells rfl rfl
  refine (left _).setCell i fun c hc => ?_
  have hc : h.cell? i = some c := hc
  rw [cell_eq hc]
  exact .of_payload rfl rfl

/-! ### Reads -/

/-- **A conversion** keeps the table of its cell. -/
theorem Ledger.converting (a : Account) (i : CellId) : Converting (Ledger a) i where
  converts _ d converts l := l.setCell i fun c hc => by
    rw [cell_eq hc] at converts
    refine ⟨by rw [converts.payload], fun hash => ?_⟩
    rw [converts.aggregate (by rw [hash]; rfl), hash]
  reports _ _ l := l.of_cells rfl rfl

/-! ### Hooks -/

theorem Ledger.keeps_noteFired (t : Attachment) : Keeps (Ledger a) (noteFired t) :=
  keeps_beside (fun _ => rfl) fun _ => rfl

theorem Ledger.updateEnvironment (l : Ledger a h) (env : Nat) (f : Environment → Environment) :
    Ledger a (h.updateEnvironment env f) := l.of_cells rfl rfl

theorem hooked_ledger (a : Account) (i : CellId) : Hooked (Ledger a) i fun _ => True where
  assignInt := Ledger.keeps_assignInt
  assignText := Ledger.keeps_assignText
  undefine := Ledger.keeps_undefine i
  readText := (Ledger.converting a i).readText .silent
  attach := Ledger.keeps_attach
  detach := Ledger.keeps_detach
  log := Ledger.keeps_log
  noteFired t _ := Ledger.keeps_noteFired t
  setTaint _ _ _ l := l.of_cells rfl rfl
  tainted _ _ l := l.updateCell i fun _ => .of_payload rfl rfl
  inHooks _ _ l := l.updateCell i fun _ => .of_payload rfl rfl

/-- **Hooks** keep the ledger. -/
theorem Ledger.keeps_runHooks (phase : Phase) : Keeps (Ledger a) (runHooks phase i) :=
  Keeps.of_ends fun _ l => (hooked_ledger a i).runHooks (fun _ _ env f l =>
    l.updateEnvironment env f) l fun _ _ => trivial

/-- A read runs the hooks of its cell first. -/
theorem Ledger.keeps_get {α : Type} {x : OnHeap α} (hx : Keeps (Ledger a) x) :
    Keeps (Ledger a) (runHooks .get i >>= fun _ => x) := (keeps_runHooks .get).bind fun _ => hx

/-- A write runs the hooks of its cell afterwards. -/
theorem Ledger.keeps_set {x : OnHeap Unit} (hx : Keeps (Ledger a) x) :
    Keeps (Ledger a) (x >>= fun _ => runHooks .set i) := hx.bind fun _ => keeps_runHooks .set

theorem Ledger.keeps_copyFrom (i source : CellId) : Keeps (Ledger a) (copyFrom i source) := by
  unfold copyFrom
  split
  · exact Keeps.pure _
  refine (keeps_runHooks .get).bind fun _ => Keeps.read fun h l => Ends.outcome (fun _ _ => ?_) l
  have assigned {need : Room} {gains : Option CellId} {fill : Cell → Cell}
      (same : ∀ c, SameTable c (fill c)) : Ends (assign i need gains fill >>= fun _ =>
        runHooks .set i) h (fun _ => Ledger a) (Ledger a) :=
    ((keeps_assign same).bind fun _ => keeps_runHooks .set).ends l
  rcases h.copiedTarget (h.cell source) with - | - | - <;>
    exact assigned fun _ => .of_payload rfl rfl

/-! ### References and shapes -/

theorem Ledger.keeps_weaken (i : CellId) : Keeps (Ledger a) (weaken i) := by
  refine Keeps.read fun h l => ?_
  dsimp only
  split
  · exact l
  split
  · exact l
  split
  · refine (l.setCell i fun c hc => ?_).letGo _
    rw [cell_eq hc]
    exact .of_payload rfl rfl
  · exact l

theorem Ledger.keeps_bless (i : CellId) (package : Key) : Keeps (Ledger a) (bless i package) := by
  refine Keeps.read fun h l => ?_
  cases h.referent? i with
  | none => exact l
  | some j =>
    dsimp only
    split
    · exact l
    refine Ends.outcome (fun d made => l.setCell j fun c hc => ?_) l
    rw [cell_eq hc] at made
    exact (SameTable.makeRoom made).trans (.of_payload rfl rfl)

/-- An empty cell that becomes a hash has keys of its own. -/
theorem Ledger.setFresh (l : Ledger a h) (hc : h.cell? i = some c) (undef : c.shape = .undef)
    (shape : Shape) : Ledger a (h.setCell i { c with shape, payload := .fresh shape }) := by
  -- what was no hash had no table
  have absent : c.payload.table? = none := by
    cases ht : c.payload.table? with
    | none => rfl
    | some t => cases undef.symm.trans (l.hashes i c t hc ht).1
  by_cases hash : shape = .hash
  · subst hash
    have keyless (p : Nat) : keysAt p (some c) = [] := by
      unfold keysAt
      rw [Option.bind_some, absent]
      rfl
    rw [setCell_eq hc]
    refine l.set (r := h.ring) hc _ l.exact rfl (.refl l.exact.sound) (fun d t hd ht => ?_)
      fun p _ y => ?_
    · cases hd
      cases ht
      exact ⟨rfl, Account.seats_own l.exact.sound {}⟩
    · rw [keyless]
      rfl
  · refine l.setCell i fun d hd => ?_
    cases hc.symm.trans hd
    refine ⟨?_, fun h => by cases undef.symm.trans h⟩
    rw [absent]
    cases shape <;> first | rfl | exact absurd rfl hash

/-- A cell that climbs to another shape keeps its table, or had none. -/
theorem Ledger.keeps_upgrade (i : CellId) (shape : Shape) :
    Keeps (Ledger a) (upgrade i shape) := by
  refine Keeps.read fun h l => ?_
  dsimp only
  by_cases climbs : (h.cell i).shape.climbsTo shape = true
  · rw [if_pos climbs]
    cases hc : h.cell? i with
    | none =>
      show Ledger a (h.setCell i _)
      rwa [setCell_gone hc]
    | some c =>
      rw [cell_eq hc] at climbs ⊢
      by_cases new : shape.isAggregate = true ∧ c.shape ≠ shape
      · rw [if_pos new]
        rcases Shape.climbsTo_iff.mp climbs with same | ⟨-, undef⟩ | ⟨scalar, -⟩
        · exact absurd same new.2
        · exact l.setFresh hc undef shape
        · rw [new.1] at scalar
          cases scalar
      · rw [if_neg new]
        refine l.setCell i fun d hd => ?_
        cases hc.symm.trans hd
        refine ⟨rfl, fun hash => ?_⟩
        rcases Shape.climbsTo_iff.mp climbs with same | ⟨-, undef⟩ | ⟨-, scalar, -⟩
        · exact same ▸ hash
        · cases undef.symm.trans hash
        · rw [hash] at scalar
          cases scalar
  · rw [if_neg climbs]
    split <;> exact l

/-! ### Arrays and code -/

theorem Ledger.keeps_items (i : CellId) : Keeps (Ledger a) (items i) := by
  refine Keeps.read fun h l => ?_
  dsimp only
  split <;> exact l

theorem Ledger.keeps_changeItems {gains : List CellId} {f loses : List CellId → List CellId} :
    Keeps (Ledger a) (changeItems i f gains loses) := by
  refine Keeps.read fun h l => Ends.outcome (fun _ _ => ?_) l
  split
  · rename_i items array
    refine ((l.setCell i fun c hc => ?_).retainAll gains).letGo _
    rw [cell_eq hc] at array ⊢
    exact ⟨by rw [array]; rfl, id⟩
  · exact l

theorem Ledger.keeps_storeItem (i : CellId) (index : Nat) (v : CellId) :
    Keeps (Ledger a) (storeItem i index v) := by
  refine Keeps.read fun h l => Ends.outcome (fun _ _ => ?_) l
  split
  · refine Keeps.ends ?_ l
    exact (Keeps.mapM (fun _ => keeps_new rfl) _).bind fun _ => keeps_changeItems
  · exact l

theorem Ledger.keeps_routine (i : CellId) : Keeps (Ledger a) (routine i) := by
  refine Keeps.read fun h l => ?_
  dsimp only
  split <;> exact l

theorem Ledger.keeps_updateRoutine (i : CellId) (f : Routine → Routine) :
    Keeps (Ledger a) (updateRoutine i f) := by
  refine Keeps.of_ends fun h l => ?_
  have read : Ends (routine i) h (fun r g => g = h ∧ (h.cell i).payload = .code r)
      (Ledger a) := by
    refine Ends.read ?_
    dsimp only
    split
    · exact ⟨rfl, by assumption⟩
    · exact l
  refine read.bind ?_
  rintro r g ⟨rfl, code⟩
  refine l.setCell i fun c hc => ?_
  rw [cell_eq hc] at code ⊢
  exact ⟨by rw [code]; rfl, id⟩

theorem Ledger.keeps_runNative (n : Native) (args : List CellId) :
    Keeps (Ledger a) (runNative n args) := by
  cases n with
  | count => exact keeps_new rfl
  | first =>
    cases args with
    | nil => exact keeps_new rfl
    | cons v args => exact (Keeps.modify fun _ l => l.retainAll [v]).bind fun _ => Keeps.pure _
  | fail => exact Keeps.throw _
  | sum =>
    refine Keeps.bind (Keeps.foldlM (fun v _ n => ?_) 0) fun total => keeps_new rfl
    exact (keeps_get ((converting a v).readInt .silent)).bind fun _ => Keeps.pure _
  | hello => exact keeps_new rfl

/-! ### Hashes -/

variable {t u : Table CellId} {r : Keyring}

/-- Reading the table of a cell changes nothing. -/
theorem reads_table (i : CellId) (h : Heap) :
    Ends (table i) h (fun t g => g = h ∧ h.IsTable i t) (· = h) := by
  cases hc : h.cell? i with
  | some c => exact ends_table ⟨c, hc⟩
  | none =>
    refine Ends.read ?_
    rw [cell, hc, Option.getD_none]
    exact rfl

theorem reads_writableTable (i : CellId) (h : Heap) :
    Ends (writableTable i) h (fun t g => g = h ∧ h.IsTable i t) (· = h) :=
  Ends.read (Ends.outcome (fun _ _ => reads_table i h) rfl)

/-- An operation on the table of a hash that may be changed. -/
theorem Ledger.onTable {α : Type} {f : Table CellId → OnHeap α} (l : Ledger a h)
    (hf : ∀ t, h.IsTable i t → Ends (f t) h (fun _ => Ledger a) (Ledger a)) :
    Ends (writableTable i >>= f) h (fun _ => Ledger a) (Ledger a) := by
  refine ((reads_writableTable i h).imp (fun _ _ q => q) fun g e => e ▸ l).bind ?_
  rintro t g ⟨rfl, is⟩
  exact hf t is

theorem Ledger.housed (l : Ledger a h) (is : h.IsTable i t) : t.Housed h.ring := by
  obtain ⟨c, hc, hash⟩ := is
  exact (l.hashes i c t hc (by rw [hash]; rfl)).2.housed

/-- **The table of a hash is replaced** by what an operation passes on. -/
theorem Ledger.putTable (l : Ledger a h) (is : h.IsTable i t) (passes : t.Passes h.ring u r) :
    Ledger a (h.withTable i u r) := by
  obtain ⟨c, hc, hash⟩ := is
  have hc' : { h with ring := r }.cell? i = some c := hc
  unfold Heap.withTable Heap.updateCell
  rw [cell_eq hc', setCell_eq hc']
  exact l.deal hc (by rw [hash]; rfl) passes rfl rfl

theorem Ledger.keeps_fetch (i : CellId) (key : Spelling) : Keeps (Ledger a) (fetch i key) := by
  intro h l
  refine ((reads_table i h).imp (fun _ _ q => q) fun g e => e ▸ l).bind ?_
  rintro t g ⟨rfl, -⟩
  exact l

theorem Ledger.keeps_store (i : CellId) (key : Spelling) (v : CellId) :
    Keeps (Ledger a) (store i key v) := by
  refine Keeps.of_ends fun h l => l.onTable fun t is => Ends.read (Ends.outcome ?_ l)
  rintro ⟨old, u, r⟩ stored
  exact (l.putTable is ((l.housed is).passes_store (admitted_ok stored))).retainAll [v]

theorem Ledger.keeps_fetchOrCreate (i : CellId) (key : Spelling) :
    Keeps (Ledger a) (fetchOrCreate i key) := by
  refine Keeps.of_ends fun h l => l.onTable fun t is => ?_
  dsimp only
  split
  · exact l
  · refine Ends.read (Ends.outcome ?_ l)
    rintro ⟨old, u, r⟩ stored
    have put := l.putTable is ((l.housed is).passes_store (admitted_ok stored))
    exact (keeps_new rfl).ends put

theorem Ledger.keeps_delete (i : CellId) (key : Spelling) : Keeps (Ledger a) (delete i key) := by
  refine Keeps.of_ends fun h l => l.onTable fun t is => Ends.read (Ends.outcome ?_ l)
  rintro ⟨old, u, r⟩ deleted
  exact l.putTable is ((l.housed is).passes_delete (admitted_ok deleted))

theorem Ledger.keeps_reserve (i : CellId) (expected : Nat) :
    Keeps (Ledger a) (reserve i expected) := by
  refine Keeps.of_ends fun h l => l.onTable fun t is => ?_
  refine Ends.outcome (fun u reserved => Ends.read ?_) l
  exact l.putTable is ((l.housed is).passes_reserve (admitted_ok reserved))

theorem Ledger.keeps_setRestricted (i : CellId) (on : Bool) :
    Keeps (Ledger a) (setRestricted i on) := by
  refine Keeps.of_ends fun h l => l.onTable fun t is => Ends.read ?_
  obtain ⟨m, shows⟩ := (l.housed is).sound.toLinked.exists_shows
  have marked : t.Passes h.ring (if on then t.restrict else t.unrestrict) h.ring := by
    refine .of_same ?_ ?_ ?_
    · cases on <;> rfl
    · cases on <;> rfl
    · cases on
      · exact ((l.housed is).setMarks shows false t.pinned).1
      · exact ((l.housed is).setMarks shows true t.pinned).1
  exact l.putTable is marked

/-- A new table in the place of the one there was, whose keys go back. -/
theorem Ledger.remade (l : Ledger a h) (is : h.IsTable i t) :
    Ledger a { h.withTable i t.emptied h.ring with ring := (t.dispose h.ring).2 } := by
  obtain ⟨c, hc, hash⟩ := is
  obtain ⟨shape, seats⟩ := l.hashes i c t hc (by rw [hash]; rfl)
  have empty : Table.Housed t.emptied h.ring :=
    (Table.tidy_empty seats.housed.ring seats.housed.home).housed
  have out := l.takeOut hc (some { c with payload := .hash t.emptied }) (fun d u hd hu => by
    cases hd
    cases hu
    exact ⟨shape, empty, seats.shares⟩) fun p => ite_self _
  simp only [keysAt_table (c := c) (t := t) (by rw [hash]; rfl), Table.tally_keysIn] at out
  refine out.giveBack.of_cells ?_ rfl
  have hc' : { h with ring := h.ring }.cell? i = some c := hc
  unfold Heap.withTable Heap.updateCell
  rw [cell_eq hc', setCell_eq hc']

theorem Ledger.keeps_clearTable (i : CellId) : Keeps (Ledger a) (clearTable i) := by
  refine Keeps.of_ends fun h l => l.onTable fun t is => Ends.read ?_
  split
  · refine Ends.outcome ?_ l
    rintro ⟨gone, u, r⟩ cleared
    exact (l.putTable is ((l.housed is).passes_clear (admitted_ok cleared))).letGo gone
  · exact (l.remade is).letGo _

/-! ### Hosts -/

theorem Ledger.keeps_takeHold (held : List CellId) (found : Option CellId) :
    Keeps (Ledger a) (Op.takeHold held found) :=
  (Keeps.modify fun _ l => l.retainAll found.toList).bind fun _ => Keeps.pure _

theorem Ledger.keeps_only {α : Type} (held : List CellId) {x : OnHeap α}
    (hx : Keeps (Ledger a) x) : Keeps (Ledger a) (Op.only held x) :=
  hx.discard.bind fun _ => Keeps.pure _

/-- **Whatever a host does to cells** keeps the ledger, unless it makes a hash that shares a
pool. -/
theorem Ledger.keeps_act (held : List CellId) {op : Op} (own : ∀ p, op ≠ .hash (.pool p)) :
    Keeps (Ledger a) (op.act held) := by
  have adds {α : Type} {x : OnHeap α} (hx : Keeps (Ledger a) x) (f : α → List CellId) :
      Keeps (Ledger a) (do return f (← x)) := hx.bind fun _ => Keeps.pure _
  cases op with
  | make l => exact adds (keeps_new (by cases l <;> rfl)) _
  | refer target => exact adds (keeps_newRef target) _
  | list items => exact adds (keeps_newArray items) _
  | hash home =>
    cases home with
    | own seed => exact Keeps.read fun _ l => (adds (keeps_newHash seed) _).ends l
    | pool p => exact absurd rfl (own p)
  | clone i => exact keeps_takeHold held _
  | drop i => exact (Keeps.modify fun _ l => l.letGo [i]).bind fun _ => Keeps.pure _
  | wake weak => exact Keeps.read fun _ l => (keeps_takeHold held _).ends l
  | deref i => exact Keeps.read fun _ l => (keeps_takeHold held _).ends l
  | element i index => exact (keeps_items i).bind fun _ => keeps_takeHold held _
  | fetch i key => exact (keeps_fetch i key).bind fun _ => keeps_takeHold held _
  | fetchOrCreate i key => exact (keeps_fetchOrCreate i key).bind fun _ => keeps_takeHold held _
  | getInt i sink => exact keeps_only held (keeps_get ((converting a i).readInt sink))
  | getFloat i sink => exact keeps_only held (keeps_get ((converting a i).readFloat sink))
  | getBytes i sink => exact keeps_only held (keeps_get ((converting a i).readBytes sink))
  | getText i sink => exact keeps_only held (keeps_get ((converting a i).readText sink))
  | getTruth i => exact keeps_only held (keeps_get (Keeps.read fun _ l => l))
  | setInt i v => exact keeps_only held (keeps_set (keeps_assignInt v))
  | setFloat i v => exact keeps_only held (keeps_set (keeps_assignFloat v))
  | setBytes i b => exact keeps_only held (keeps_set (keeps_assignBytes b))
  | setText i s => exact keeps_only held (keeps_set (keeps_assignText s))
  | setRef i target => exact keeps_only held (keeps_set (keeps_assignRef target))
  | setUndef i => exact keeps_only held (keeps_set (keeps_undefine i))
  | copyFrom i source => exact keeps_only held (keeps_copyFrom i source)
  | weaken i => exact keeps_only held (keeps_weaken i)
  | bless i package => exact keeps_only held (keeps_bless i package)
  | attach i kind hook => exact keeps_only held (keeps_attach kind hook)
  | detach i kind => exact keeps_only held (keeps_detach kind)
  | runHooks phase i => exact keeps_only held (keeps_runHooks phase)
  | upgrade i shape => exact keeps_only held (keeps_upgrade i shape)
  | push i v => exact keeps_only held keeps_changeItems
  | storeItem i index v => exact keeps_only held (keeps_storeItem i index v)
  | clearItems i => exact keeps_only held keeps_changeItems
  | assignItems i vs => exact keeps_only held keeps_changeItems
  | store i key v => exact adds (keeps_store i key v) _
  | delete i key => exact adds (keeps_delete i key) _
  | reserve i expected => exact keeps_only held (keeps_reserve i expected)
  | clearTable i => exact keeps_only held (keeps_clearTable i)
  | setRestricted i on => exact keeps_only held (keeps_setRestricted i on)
  | updateRoutine i f => exact keeps_only held (keeps_updateRoutine i f)
  | call native args => exact adds (keeps_runNative native args) _
  | setReadOnly i on =>
    exact keeps_only held (keeps_updateCell i fun _ _ => .of_payload rfl rfl)
  | setTainted i on =>
    exact keeps_only held (keeps_updateCell i fun _ _ => .of_payload rfl rfl)
  | newEnvironment => exact keeps_only held (keeps_beside (fun _ => rfl) fun _ => rfl)
  | updateEnvironment e f =>
    exact keeps_only held (Keeps.modify fun _ l => l.updateEnvironment e f)
  | newTaint => exact keeps_only held (keeps_beside (fun _ => rfl) fun _ => rfl)
  | setTaint t on => exact keeps_only held (keeps_beside (fun _ => rfl) fun _ => rfl)

/-! ### What lives beside a heap -/

section
variable {σ α : Type} {charge : σ → Account} {fine : σ → Prop}

/-- The ledger of a heap beside something that has keys of its own. -/
structure Charged (charge : σ → Account) (fine : σ → Prop) (s : Beside σ) : Prop where
  ledger : Ledger (charge s.own) s.heap
  fine : fine s.own

theorem Charged.keeps_onHeap {x : OnHeap α} (hx : ∀ a, Keeps (Ledger a) x) :
    Keeps (Charged charge fine) (liftM x : OnBeside σ α) :=
  Keeps.of_ends fun _ c => (((hx _).ends c.ledger).lift).imp
    (fun _ _ q => ⟨q.1 ▸ q.2, q.1 ▸ c.fine⟩) fun _ q => ⟨q.1 ▸ q.2, q.1 ▸ c.fine⟩

theorem Charged.keeps_changeHeap {f : Heap → Heap}
    (hf : ∀ a h, Ledger a h → Ledger a (f h)) :
    Keeps (Charged charge fine) (Beside.changeHeap f : OnBeside σ Unit) :=
  fun s c => ⟨hf _ s.heap c.ledger, c.fine⟩

theorem Charged.keeps_changeSelf {f : σ → σ} (same : ∀ o, charge (f o) = charge o)
    (still : ∀ o, fine o → fine (f o)) :
    Keeps (Charged charge fine) (Beside.changeSelf f) :=
  fun s c => ⟨(same s.own).symm ▸ c.ledger, still s.own c.fine⟩

end

end

end ScriptCore.Heap
