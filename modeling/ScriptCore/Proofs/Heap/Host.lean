import ScriptCore.Proofs.Heap.Aggregates
import ScriptCore.Proofs.Table.Session

/-!
# Heap — a host and its handles

A host holds handles on cells: of those it makes, clones, is handed over or finds through others.
It names in an operation only cells that it has a handle on (`Host.step`); weak handles are cell
numbers, which it may keep for ever.

* `run_valid`: whatever a host does, every cell stays valid, and shapes only climb.
* `run_settled`: the owners of a cell are the handles, references, elements and values that hold
  it, and a cell is there exactly as long as there is one.  What has gone stays gone, references to
  it read as undefined, and an attachment takes its leave once, when it is taken off its cell or
  its cell goes.
-/

namespace ScriptCore.Heap

/-- What a new scalar, code or handle cell is made from. -/
inductive Literal
  | undef
  | int (v : Int64)
  | float (v : Binary64)
  | bytes (b : Bytes)
  | text (s : String)
  | code (routine : Routine)
  | handle (name : String)

/-- The new cell. -/
def Literal.cell : Literal → Cell
  | undef => {}
  | int v => .ofInt v
  | float v => .ofFloat v
  | bytes b => .ofBytes b
  | text s => .ofText s
  | code r => .ofRoutine r
  | handle name => .ofHandle name

/-- A shape of aggregates. -/
abbrev AggregateShape := { shape : Shape // shape.isAggregate = true }

/-- What a host may do to cells. -/
inductive Op
  | make (l : Literal)
  | refer (target : CellId)
  | list (items : List CellId)
  | hash (home : Table.Home)
  | clone (i : CellId)
  | drop (i : CellId)
  | wake (weak : CellId)
  | deref (i : CellId)
  | element (i : CellId) (index : Nat)
  | fetch (i : CellId) (key : Spelling)
  | fetchOrCreate (i : CellId) (key : Spelling)
  | getInt (i : CellId) (sink : Sink)
  | getFloat (i : CellId) (sink : Sink)
  | getBytes (i : CellId) (sink : Sink)
  | getText (i : CellId) (sink : Sink)
  | getTruth (i : CellId)
  | setInt (i : CellId) (v : Int64)
  | setFloat (i : CellId) (v : Binary64)
  | setBytes (i : CellId) (b : Bytes)
  | setText (i : CellId) (s : String)
  | setRef (i target : CellId)
  | setUndef (i : CellId)
  | copyFrom (i source : CellId)
  | weaken (i : CellId)
  | bless (i : CellId) (package : Key)
  | attach (i : CellId) (kind : HookKind) (hook : Hook)
  | detach (i : CellId) (kind : HookKind)
  | runHooks (phase : Phase) (i : CellId)
  | upgrade (i : CellId) (shape : AggregateShape)
  | push (i v : CellId)
  | storeItem (i : CellId) (index : Nat) (v : CellId)
  | clearItems (i : CellId)
  | assignItems (i : CellId) (vs : List CellId)
  | store (i : CellId) (key : Spelling) (v : CellId)
  | delete (i : CellId) (key : Spelling)
  | reserve (i : CellId) (expected : Nat)
  | clearTable (i : CellId)
  | setRestricted (i : CellId) (on : Bool)
  | updateRoutine (i : CellId) (f : Routine → Routine)
  | call (native : Native) (args : List CellId)
  | setReadOnly (i : CellId) (on : Bool)
  | setTainted (i : CellId) (on : Bool)
  | newEnvironment
  | updateEnvironment (e : Nat) (f : Environment → Environment)
  | newTaint
  | setTaint (t : Nat) (on : Bool)

namespace Op

/-- The cells that an operation names. -/
def named : Op → List CellId
  | refer i | clone i | drop i | deref i | element i _ | fetch i _ | fetchOrCreate i _
  | getInt i _ | getFloat i _ | getBytes i _ | getText i _ | getTruth i
  | setInt i _ | setFloat i _ | setBytes i _ | setText i _ | setUndef i
  | weaken i | bless i _ | attach i _ _ | detach i _ | runHooks _ i | upgrade i _
  | clearItems i | delete i _ | reserve i _ | clearTable i | setRestricted i _
  | updateRoutine i _ | setReadOnly i _ | setTainted i _ => [i]
  | setRef i j | copyFrom i j | push i j | storeItem i _ j | store i _ j => [i, j]
  | assignItems i vs => i :: vs
  | list items => items
  | call _ args => args
  | make _ | hash _ | wake _ | newEnvironment | updateEnvironment _ _ | newTaint
  | setTaint _ _ => []

/-- Takes hold of a cell that was found. -/
def takeHold (held : List CellId) (found : Option CellId) : OnHeap (List CellId) := do
  modify (·.retainAll found.toList)
  return found.toList ++ held

/-- Does something that hands over no handle. -/
def only {α : Type} (held : List CellId) (x : OnHeap α) : OnHeap (List CellId) := do
  discard x
  return held

/-- Carries out an operation for a host with some handles, and gives the handles it has then. -/
def act (held : List CellId) : Op → OnHeap (List CellId)
  | make l => do return (← new l.cell) :: held
  | refer target => do return (← newRef target) :: held
  | list items => do return (← newArray items) :: held
  | hash home => do return (← new (.ofTable (home.fresh (← get).ring))) :: held
  | clone i => takeHold held (some i)
  | drop i => do
    modify (·.release i)
    return held.erase i
  | wake weak => do takeHold held (if (← get).isAlive weak then some weak else none)
  | deref i => do takeHold held ((← get).referent? i)
  | element i index => do takeHold held (← items i)[index]?
  | fetch i key => do takeHold held (← Heap.fetch i key)
  | fetchOrCreate i key => do takeHold held (some (← Heap.fetchOrCreate i key))
  | getInt i sink => only held (Heap.getInt i sink)
  | getFloat i sink => only held (Heap.getFloat i sink)
  | getBytes i sink => only held (Heap.getBytes i sink)
  | getText i sink => only held (Heap.getText i sink)
  | getTruth i => only held (Heap.getTruth i)
  | setInt i v => only held (Heap.setInt i v)
  | setFloat i v => only held (Heap.setFloat i v)
  | setBytes i b => only held (Heap.setBytes i b)
  | setText i s => only held (Heap.setText i s)
  | setRef i target => only held (Heap.setRef i target)
  | setUndef i => only held (Heap.setUndef i)
  | copyFrom i source => only held (Heap.copyFrom i source)
  | weaken i => only held (Heap.weaken i)
  | bless i package => only held (Heap.bless i package)
  | attach i kind hook => only held (Heap.attach i kind hook)
  | detach i kind => only held (Heap.detach i kind)
  | runHooks phase i => only held (Heap.runHooks phase i)
  | upgrade i shape => only held (Heap.upgrade i shape)
  | push i v => only held (Heap.push i v)
  | storeItem i index v => only held (Heap.storeItem i index v)
  | clearItems i => only held (Heap.clearItems i)
  | assignItems i vs => only held (Heap.assignItems i vs)
  | store i key v => do return (← Heap.store i key v).toList ++ held
  | delete i key => do return (← Heap.delete i key).toList ++ held
  | reserve i expected => only held (Heap.reserve i expected)
  | clearTable i => only held (Heap.clearTable i)
  | setRestricted i on => only held (Heap.setRestricted i on)
  | updateRoutine i f => only held (Heap.updateRoutine i f)
  | call native args => do return (← runNative native args) :: held
  | setReadOnly i on => only held (modify (·.setReadOnly i on))
  | setTainted i on => only held (modify (·.setTainted i on))
  | newEnvironment => only held (modify fun h => h.newEnvironment.2)
  | updateEnvironment e f => only held (modify (·.updateEnvironment e f))
  | newTaint => only held (modify fun h => h.newTaint.2)
  | setTaint t on => only held (modify (·.setTaint t on))

end Op

/-- A heap and the handles of its host. -/
structure Host where
  heap : Heap
  held : List CellId

namespace Host

/-- A host after an operation.  One that names a cell it has no handle on is not carried out, and
one that fails leaves it the handles it had. -/
def step (s : Host) (op : Op) : Host :=
  if ∀ i ∈ op.named, i ∈ s.held then
    match op.act s.held s.heap with
    | .ok held heap => ⟨heap, held⟩
    | .error _ heap => { s with heap }
  else s

/-- A host after operations, whether they failed or not. -/
def run (s : Host) (ops : List Op) : Host := ops.foldl step s

/-- A host with pools of the given seeds and no cells. -/
def start (seeds : Array Seed) (supply : Supply) : Host :=
  ⟨{ ring := .ofSeeds seeds supply }, []⟩

end Host

/-- The elements of an array, or the values of a hash. -/
def members : Payload → List CellId
  | .array items => items
  | .hash t => t.toList.map (·.2)
  | _ => []

/-- The cells that a cell holds: by a strong reference, as elements or as values. -/
def holdsOf (c : Cell) : List CellId := kept c.target ++ members c.payload

/-- Everything that holds a cell: handles of the host and live cells, as often as they do. -/
def Host.holders (s : Host) (i : CellId) : Nat :=
  s.held.count i + (s.heap.cells.toList.flatMap fun c => (c.map holdsOf).getD []).count i

/-- The cell reads as one that holds no value. -/
structure ReadsUndef (h : Heap) (j : CellId) : Prop where
  referent : h.referent? j = none
  undefined : h.isDefined j = false
  truth : (h.cell j).truth h.isAlive = false
  int : readInt j .silent h = .ok 0 h
  float : readFloat j .silent h = .ok (.zero false) h
  bytes : readBytes j .silent h = .ok [] h
  text : readText j .silent h = .ok "" h

/-- What holds of a host at any time. -/
structure Settled (s : Host) : Prop where
  owners : ∀ i c, s.heap.cell? i = some c → c.owners = s.holders i
  alive : ∀ i, s.heap.isAlive i = true ↔ 0 < s.holders i
  dead : ∀ i j c, s.heap.cell? j = some c → c.target = some (.weak i) →
    s.heap.isAlive i = false → s.heap.ReadsUndef j
  attachments : s.heap.Accounted

/-- What holds of a host and of the same host later on. -/
structure Outlasts (s later : Host) : Prop where
  gone : ∀ i < s.heap.cells.size, s.heap.isAlive i = false → later.heap.isAlive i = false
  leaves : ∀ i a, a ∈ (s.heap.cell i).hooks →
    later.heap.departed.count a = if a ∈ (later.heap.cell i).hooks then 0 else 1

section
variable {h₀ h : Heap} {i j : CellId} {c d : Cell} {held others : List CellId}

/-! ### Every operation keeps the books -/

theorem valid_literal (l : Literal) : l.cell.Valid := by
  cases l with
  | undef => exact Cell.valid_empty
  | int v => exact Cell.valid_ofInt v
  | float v => exact Cell.valid_ofFloat v
  | bytes b => exact Cell.valid_ofBytes b
  | text s => exact Cell.valid_ofText s
  | code r => exact Cell.valid_aggregate rfl rfl
  | handle name => exact Cell.valid_aggregate rfl rfl

/-- A referent is alive. -/
theorem Kept.alive_referent (k : Kept h₀ held h) (hc : h.cell? i = some c)
    (found : h.referent? i = some j) : ∃ d, h.cell? j = some d := by
  rw [referent?, cell_eq hc, Cell.referent] at found
  split at found
  · cases target : c.target with
    | none =>
      rw [target] at found
      cases found
    | some t =>
      rw [target] at found
      cases t with
      | strong j =>
        cases found
        refine k.sound.owned.alive_held hc ?_
        rw [owned_eq, target]
        exact List.mem_cons_self
      | weak j =>
        dsimp only at found
        split at found
        · rename_i alive
          cases found
          exact Option.isSome_iff_exists.mp alive
        · cases found
  · cases found

theorem Kept.takeHold (k : Kept h₀ (held ++ others) h) {found : Option CellId}
    (alive : ∀ j, found = some j → ∃ d, h.cell? j = some d) :
    Ends (Op.takeHold held found) h (fun held => Kept h₀ (held ++ others))
      (Kept h₀ (held ++ others)) := by
  have retained := k.retainAll found.toList fun j hj => alive j (by simpa using hj)
  rw [← List.append_assoc] at retained
  exact retained

/-- A new table. -/
theorem tidy_fresh {r : Keyring} (ring : r.Sound) (home : Table.Home) :
    (home.fresh r : Table CellId).Tidy r := by
  cases home with
  | own seed => exact Table.tidy_empty ring nofun
  | pool p =>
    refine Table.tidy_empty ring fun q hq => ?_
    cases hq
    rfl

theorem leads_only {α : Type} {x : OnHeap α} (hx : Keeps (Kept h₀ (held ++ others)) x) :
    Leads (Kept h₀ (held ++ others)) (Op.only held x) (fun held => Kept h₀ (held ++ others))
      (Kept h₀ (held ++ others)) :=
  Leads.bind hx.discard fun _ => Leads.pure fun _ k => k

/-- **One operation** keeps the books, whatever handles others have. -/
theorem leads_act (others : List CellId) (op : Op) (named : ∀ i ∈ op.named, i ∈ held) :
    Leads (Kept h₀ (held ++ others)) (op.act held) (fun held => Kept h₀ (held ++ others))
      (Kept h₀ (held ++ others)) := by
  have has {i : CellId} (names : i ∈ op.named) : i ∈ held ++ others :=
    List.mem_append_left _ (named i names)
  have first {i : CellId} {is : List CellId} (names : op.named = i :: is) : i ∈ held ++ others :=
    has (names ▸ List.mem_cons_self)
  have second {i j : CellId} (names : op.named = [i, j]) : j ∈ held ++ others :=
    has (names ▸ List.mem_cons_of_mem _ List.mem_cons_self)
  cases op with
  | make l =>
    refine Leads.bind (leads_newScalar (valid_literal l) ?_ ?_ ?_) fun _ => Leads.pure fun _ k => k
    · cases l <;> rfl
    · cases l <;> rfl
    · cases l <;> exact fun _ => Payload.noConfusion
  | refer target =>
    exact Leads.bind (leads_newRef (first rfl)) fun _ => Leads.pure fun _ k => k
  | list items =>
    exact Leads.bind (leads_newArray fun _ => has) fun _ => Leads.pure fun _ k => k
  | hash home =>
    refine Leads.of_ends fun h k => Ends.read ?_
    have tidy := tidy_fresh k.sound.ring home
    refine Ends.step (a := h.cells.size) rfl
      (Kept.allocate ?_ (Cell.valid_aggregate rfl rfl) rfl ?_)
    · cases home <;> exact k
    · intro t ht
      cases ht
      exact tidy
  | clone i =>
    intro h k
    exact k.takeHold fun j hj => k.alive (Option.some.inj hj ▸ first rfl)
  | drop i =>
    intro h k
    have held := List.perm_cons_erase (named i List.mem_cons_self)
    exact Kept.letGo (k.perm (held.append_right others))
  | wake weak =>
    refine Leads.of_ends fun h k => Ends.read ?_
    refine k.takeHold fun j hj => ?_
    split at hj
    · rename_i alive
      cases hj
      exact Option.isSome_iff_exists.mp alive
    · cases hj
  | deref i =>
    refine Leads.of_ends fun h k => Ends.read ?_
    obtain ⟨c, hc⟩ := k.alive (first rfl)
    exact k.takeHold fun j => k.alive_referent hc
  | element i index =>
    refine Leads.of_ends fun h k => ?_
    obtain ⟨c, hc⟩ := k.alive (first rfl)
    refine ((ends_items hc).imp (fun _ _ q => q) fun _ e => e ▸ k).bind ?_
    rintro items g ⟨rfl, array⟩
    refine k.takeHold fun j hj => k.sound.owned.alive_held hc ?_
    rw [owned_eq, array]
    exact List.mem_append_right _ (List.mem_of_getElem? hj)
  | fetch i key =>
    exact Leads.bind (leads_fetch (first rfl)) fun _ _ ⟨k, alive⟩ => k.takeHold alive
  | fetchOrCreate i key =>
    refine Leads.bind (leads_fetchOrCreate (first rfl)) fun v _ ⟨k, alive⟩ => ?_
    exact k.takeHold fun j hj => Option.some.inj hj ▸ alive
  | getInt i sink => exact leads_only (keeps_get (first rfl) (keeps_readInt (first rfl) sink))
  | getFloat i sink => exact leads_only (keeps_get (first rfl) (keeps_readFloat (first rfl) sink))
  | getBytes i sink => exact leads_only (keeps_get (first rfl) (keeps_readBytes (first rfl) sink))
  | getText i sink => exact leads_only (keeps_get (first rfl) (keeps_readText (first rfl) sink))
  | getTruth i => exact leads_only (keeps_getTruth (first rfl))
  | setInt i v => exact leads_only (keeps_set (first rfl) (keeps_assignInt (first rfl) v))
  | setFloat i v => exact leads_only (keeps_set (first rfl) (keeps_assignFloat (first rfl) v))
  | setBytes i b => exact leads_only (keeps_set (first rfl) (keeps_assignBytes (first rfl) b))
  | setText i s => exact leads_only (keeps_set (first rfl) (keeps_assignText (first rfl) s))
  | setRef i target =>
    exact leads_only (keeps_set (first rfl) (keeps_assignRef (first rfl) (second rfl)))
  | setUndef i => exact leads_only (keeps_set (first rfl) (keeps_undefine (first rfl)))
  | copyFrom i source => exact leads_only (keeps_copyFrom (first rfl) (second rfl))
  | weaken i => exact leads_only (keeps_weaken (first rfl))
  | bless i package => exact leads_only (keeps_bless i package)
  | attach i kind hook => exact leads_only (keeps_attach (first rfl) kind hook)
  | detach i kind => exact leads_only (keeps_detach (first rfl) kind)
  | runHooks phase i => exact leads_only (keeps_runHooks (first rfl) phase)
  | upgrade i shape => exact leads_only (keeps_upgrade (first rfl) shape.2)
  | push i v => exact leads_only (keeps_push (first rfl) (second rfl))
  | storeItem i index v => exact leads_only (keeps_storeItem (first rfl) (second rfl) index)
  | clearItems i => exact leads_only (keeps_clearItems (first rfl))
  | assignItems i vs =>
    exact leads_only (keeps_assignItems (first rfl) fun v hv => has (List.mem_cons_of_mem _ hv))
  | store i key v =>
    refine Leads.bind (leads_store (first rfl) (second rfl)) fun _ => Leads.pure fun _ k => ?_
    rwa [List.append_assoc]
  | delete i key =>
    refine Leads.bind (leads_delete (first rfl)) fun _ => Leads.pure fun _ k => ?_
    rwa [List.append_assoc]
  | reserve i expected => exact leads_only (keeps_reserve (first rfl) expected)
  | clearTable i => exact leads_only (keeps_clearTable (first rfl))
  | setRestricted i on => exact leads_only (keeps_setRestricted (first rfl) on)
  | updateRoutine i f => exact leads_only (keeps_updateRoutine (first rfl) f)
  | call native args =>
    exact Leads.bind (leads_runNative native fun _ => has) fun _ => Leads.pure fun _ k => k
  | setReadOnly i on => exact leads_only (Keeps.modify fun _ k => k.setReadOnly i on)
  | setTainted i on => exact leads_only (Keeps.modify fun _ k => k.setTainted i on)
  | newEnvironment =>
    exact leads_only (keeps_beside (fun _ => rfl) (fun _ => rfl) (fun _ => rfl) fun _ => rfl)
  | updateEnvironment e f =>
    exact leads_only (keeps_beside (fun _ => rfl) (fun _ => rfl) (fun _ => rfl) fun _ => rfl)
  | newTaint =>
    exact leads_only (keeps_beside (fun _ => rfl) (fun _ => rfl) (fun _ => rfl) fun _ => rfl)
  | setTaint t on =>
    exact leads_only (keeps_beside (fun _ => rfl) (fun _ => rfl) (fun _ => rfl) fun _ => rfl)

/-! ### Runs -/

theorem kept_start (seeds : Array Seed) (supply : Supply) :
    Kept (Host.start seeds supply).heap (Host.start seeds supply).held
      (Host.start seeds supply).heap where
  sound := ⟨fun _ => rfl, fun _ _ => nofun, Keyring.sound_ofSeeds seeds supply⟩
  accounted := .refl _
  grown := .refl _

theorem Kept.step {s : Host} (k : Kept h₀ s.held s.heap) (op : Op) :
    Kept h₀ (s.step op).held (s.step op).heap := by
  unfold Host.step
  split
  · rename_i named
    have led := leads_act [] op named s.heap (by rwa [List.append_nil])
    simp only [List.append_nil] at led
    split <;> rename_i e <;> rw [e] at led <;> exact led
  · exact k

/-- **Every run** keeps the books. -/
theorem Kept.run {s : Host} (k : Kept h₀ s.held s.heap) (ops : List Op) :
    Kept h₀ (s.run ops).held (s.run ops).heap := by
  induction ops generalizing s with
  | nil => exact k
  | cons op ops ih => exact ih (k.step op)

/-- A host that has come this far goes on from here. -/
theorem Kept.again (k : Kept h₀ held h) : Kept h held h := { k with grown := .refl h }

/-- **Cells are valid**, whatever a host did, and their shapes climb whatever it does next. -/
theorem run_valid (seeds : Array Seed) (supply : Supply) (ops more : List Op) :
    (∀ i c, ((Host.start seeds supply).run ops).heap.cell? i = some c →
      c.Valid ∧ (c.shape.isAggregate = true → c.flags.holdsValue = false)) ∧
    ∀ i c d, ((Host.start seeds supply).run ops).heap.cell? i = some c →
      (((Host.start seeds supply).run ops).run more).heap.cell? i = some d →
        c.shape.climbsTo d.shape = true := by
  have k := (kept_start seeds supply).run ops
  refine ⟨fun i c hc => ⟨k.valid hc, (k.valid hc).holdsValue_aggregate⟩, fun i c d hc hd => ?_⟩
  obtain ⟨c', hc', climbs⟩ := (k.again.run more).grown.cells i d (lt_size hc) hd
  cases hc.symm.trans hc'
  exact climbs

/-! ### Owners -/

/-- The cells that a cell owns are those it holds. -/
theorem Fit.count_owned {r : Keyring} (f : Fit r c) (i : CellId) :
    c.owned.count i = (holdsOf c).count i := by
  rw [owned_eq, holdsOf, List.count_append, List.count_append]
  congr 1
  cases hp : c.payload with
  | hash t => exact (f.tidy t hp).tight i
  | _ => rfl

theorem Kept.holders {s : Host} (k : Kept h₀ s.held s.heap) (i : CellId) :
    s.holders i = s.heap.held.count i + s.held.count i := by
  unfold Host.holders Heap.held
  rw [List.count_flatMap, List.count_flatMap, Nat.add_comm]
  congr 2
  refine List.map_congr_left fun o ho => ?_
  cases o with
  | none => rfl
  | some c =>
    obtain ⟨j, hj⟩ := List.mem_iff_getElem?.mp ho
    have hc : s.heap.cell? j = some c := by
      unfold cell?
      rw [← Array.getElem?_toList, hj]
      rfl
    exact ((k.sound.fit j c hc).count_owned i).symm

/-! ### Dead references -/

/-- **A reference to a cell that has gone** reads as undefined. -/
theorem Kept.readsUndef (k : Kept h₀ held h) (hc : h.cell? j = some c)
    (weak : c.target = some (.weak i)) (gone : h.isAlive i = false) : h.ReadsUndef j := by
  have valid := k.valid hc
  have ref : c.flags.refOk = true := valid.value.ref.trans (weak ▸ rfl)
  obtain ⟨int, num, text⟩ := valid.value.alone ref
  have intOk : c.flags.intOk = false := Bool.eq_false_iff.mpr fun ok =>
    Bool.eq_false_iff.mp int (valid.value.int ok)
  have numOk : c.flags.numOk = false := Bool.eq_false_iff.mpr fun ok =>
    Bool.eq_false_iff.mp num (valid.value.num ok)
  have scalar : c.shape.isAggregate = false := Bool.eq_false_iff.mpr fun aggregate => by
    have none := valid.holdsValue_aggregate aggregate
    simp [Flags.holdsValue, ref] at none
  have referent : c.referent h.isAlive = none := by
    simp [Cell.referent, ref, weak, gone]
  have source : c.source h.isAlive = .nothing := by
    simp [Cell.source, intOk, numOk, ref, referent]
  have found : sourceOf j h = .ok .nothing h := by
    unfold sourceOf
    rw [bind_get, cell_eq hc, source, Cell.expectScalar, scalar]
    rfl
  have bytes : readBytes j .silent h = .ok [] h := by
    unfold readBytes
    rw [bind_ok found, bind_get, cell_eq hc, text]
    rfl
  refine ⟨?_, ?_, ?_, ?_, ?_, bytes, ?_⟩
  · rw [referent?, cell_eq hc, referent]
  · simp [isDefined, cell_eq hc, Cell.isDefined, scalar, ref, referent]
  · simp [cell_eq hc, Cell.truth, scalar, text, intOk, numOk, referent]
  · unfold readInt
    rw [bind_ok found]
    rfl
  · unfold readFloat
    rw [bind_ok found]
    rfl
  · unfold readText
    rw [bind_ok bytes, bind_get]
    cases (h.cell j).flags.utf8 <;> rfl

/-! ### Attachments -/

/-- What is on a cell is attached. -/
theorem mem_attached {a : Attachment} (ha : a ∈ (h.cell i).hooks) : a ∈ h.attached := by
  cases hc : h.cell? i with
  | none =>
    rw [cell, hc] at ha
    cases ha
  | some c =>
    rw [cell_eq hc] at ha
    exact List.mem_flatMap.mpr ⟨some c, List.mem_of_getElem? (getElem?_of_cell? hc), ha⟩

/-- **An attachment takes its leave once**, when it is on its cell no more. -/
theorem Kept.leaves (k : Kept h₀ held h) {a : Attachment} (ha : a ∈ (h₀.cell i).hooks) :
    h.departed.count a = if a ∈ (h.cell i).hooks then 0 else 1 := by
  have nodup : (h.attached ++ h.departed).Nodup :=
    (k.accounted.nodup_iff.mpr List.nodup_range).of_map _
  split
  · rename_i there
    refine List.count_eq_zero.mpr fun left => ?_
    exact (List.nodup_append.mp nodup).2.2 a (mem_attached there) a left rfl
  · rename_i off
    have left := (k.grown.leaves i a ha).resolve_left off
    exact List.count_eq_one_of_mem (List.nodup_append.mp nodup).2.1 left

/-- **The books balance** at any time of any run, whatever comes after it. -/
theorem run_settled (seeds : Array Seed) (supply : Supply) (ops more : List Op) :
    Settled ((Host.start seeds supply).run ops) ∧
      Outlasts ((Host.start seeds supply).run ops)
        (((Host.start seeds supply).run ops).run more) := by
  have k := (kept_start seeds supply).run ops
  have later := k.again.run more
  refine ⟨⟨fun i c hc => ?_, fun i => ?_, fun i j c hc => k.readsUndef hc, k.accounted⟩,
    ⟨fun i hi => later.grown.gone hi, fun i a => later.leaves⟩⟩
  · rw [k.holders, ← k.sound.owners, cell_eq hc]
  · rw [k.holders]
    exact k.sound.alive_iff i

end

end ScriptCore.Heap
