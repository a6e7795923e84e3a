import ScriptCore.Proofs.Heap.Audit
import ScriptCore.Proofs.Heap.Reads

/-!
# Heap — what is refused changes nothing

Every operation on cells looks at all that could refuse it before it writes.  `LooksFirst` says so:
from any heap the operation succeeds, or it leaves that heap.  Two rules put such operations
together: `OnlyReads.bind`, where what comes first changes nothing, and `LooksFirst.bind`, where
what comes last is never refused.

Hooks may do anything before they fail, so operations that run hooks do not look first.  On cells
without attachments no hook runs.

* `CellOp`: the operations on cells.
* `refused_unchanged`: none of them leaves a trace when it is refused.
-/

namespace ScriptCore.Heap

section
variable {α β : Type}

/-- A refused operation on cells leaves everything as it was. -/
def LooksFirst (x : OnHeap α) : Prop := ∀ h, Ends x h (fun _ _ => True) (· = h)

/-- The operation changes nothing, refused or not. -/
def OnlyReads (x : OnHeap α) : Prop := ∀ h, Ends x h (fun _ g => g = h) (· = h)

/-- The operation is never refused. -/
def Succeeds (x : OnHeap α) : Prop := ∀ h, Ends x h (fun _ _ => True) fun _ => False

variable {x : OnHeap α} {f : α → OnHeap β}

theorem OnlyReads.bind (reads : OnlyReads x) (looks : ∀ a, LooksFirst (f a)) :
    LooksFirst (x >>= f) := by
  refine fun h => Ends.bind (reads h) ?_
  rintro a g rfl
  exact looks a g

theorem LooksFirst.bind (looks : LooksFirst x) (sure : ∀ a, Succeeds (f a)) :
    LooksFirst (x >>= f) :=
  fun h => Ends.bind (looks h) fun a g _ => (sure a g).sure

theorem Succeeds.bind (first : Succeeds x) (sure : ∀ a, Succeeds (f a)) : Succeeds (x >>= f) :=
  fun h => Ends.bind (first h) fun a g _ => sure a g

theorem Succeeds.pure (a : α) : Succeeds (Pure.pure a) := fun _ => trivial

theorem Succeeds.modify (f : Heap → Heap) : Succeeds (modify f : OnHeap Unit) := fun _ => trivial

theorem Succeeds.looksFirst (sure : Succeeds x) : LooksFirst x := fun h => (sure h).sure

theorem OnlyReads.looksFirst (reads : OnlyReads x) : LooksFirst x :=
  fun h => (reads h).imp (fun _ _ _ => trivial) fun _ => id

end

section
variable {h g : Heap} {i : CellId} {need : Room} {gains : Option CellId} {fill : Cell → Cell}
  {as : List Attachment}

/-! ### Reads without hooks -/

theorem reads_sourceOf (i : CellId) : OnlyReads (sourceOf i) :=
  fun _ => Ends.read (Ends.outcome (fun _ _ => rfl) rfl)

theorem succeeds_report (sink : Sink) (a : Advisory) : Succeeds (report sink a) := by
  cases sink with
  | silent => exact Succeeds.pure _
  | site n => exact Succeeds.modify _

theorem looksFirst_keep (i : CellId) (f : Cell → Except Fault Cell) : LooksFirst (keep i f) :=
  fun _ => Ends.read (Ends.outcome (fun _ _ => trivial) rfl)

theorem looksFirst_numify (i : CellId) (b : Bytes) (sink : Sink) :
    LooksFirst (numify i b sink) := by
  unfold numify
  rcases parseNumber b with ⟨n, numeric⟩
  refine (looksFirst_keep i _).bind fun _ => ?_
  cases numeric with
  | true => exact Succeeds.pure n
  | false => exact (succeeds_report _ _).bind fun _ => Succeeds.pure n

theorem looksFirst_readInt (i : CellId) (sink : Sink) : LooksFirst (readInt i sink) := by
  refine (reads_sourceOf i).bind fun source => ?_
  cases source with
  | int v => exact (Succeeds.pure v).looksFirst
  | float v =>
    dsimp only
    split
    · exact (looksFirst_keep i _).bind fun _ => Succeeds.pure _
    · exact (Succeeds.pure _).looksFirst
  | text b => exact (looksFirst_numify i b sink).bind fun _ => Succeeds.pure _
  | ref j => exact (Succeeds.pure _).looksFirst
  | nothing => exact ((succeeds_report _ _).bind fun _ => Succeeds.pure _).looksFirst

theorem looksFirst_readFloat (i : CellId) (sink : Sink) : LooksFirst (readFloat i sink) := by
  refine (reads_sourceOf i).bind fun source => ?_
  cases source with
  | int v => exact (looksFirst_keep i _).bind fun _ => Succeeds.pure _
  | float v => exact (Succeeds.pure v).looksFirst
  | text b => exact (looksFirst_numify i b sink).bind fun _ => Succeeds.pure _
  | ref j => exact (Succeeds.pure _).looksFirst
  | nothing => exact ((succeeds_report _ _).bind fun _ => Succeeds.pure _).looksFirst

theorem looksFirst_keepText (i : CellId) (cs : List Char) : LooksFirst (keepText i cs) :=
  (looksFirst_keep i _).bind fun _ => Succeeds.pure _

theorem looksFirst_readBytes (i : CellId) (sink : Sink) : LooksFirst (readBytes i sink) := by
  refine (reads_sourceOf i).bind fun source h => Ends.read ?_
  by_cases text : (h.cell i).flags.textOk = true
  · rw [if_pos text]
    exact trivial
  · rw [if_neg text]
    cases source with
    | int v => exact looksFirst_keepText i _ h
    | float v => exact looksFirst_keepText i _ h
    | ref j => exact trivial
    | text b => exact trivial
    | nothing => exact ((succeeds_report _ _).bind fun _ => Succeeds.pure _).looksFirst h

theorem looksFirst_readText (i : CellId) (sink : Sink) : LooksFirst (readText i sink) :=
  (looksFirst_readBytes i sink).bind fun _ _ => trivial

/-! ### Cells without attachments -/

/-- Where nothing is attached, no hook runs. -/
theorem runHooks_unhooked (unhooked : (h.cell i).hooks = []) (phase : Phase) :
    runHooks phase i h = .ok () h := by
  rw [runHooks, bind_get, if_pos (.inl unhooked)]
  rfl

/-- What is at the place, if anything is, has these attachments. -/
def Bears (i : CellId) (as : List Attachment) (h : Heap) : Prop :=
  ∀ c, h.cell? i = some c → c.hooks = as

theorem Bears.unhooked (bears : Bears i [] h) : (h.cell i).hooks = [] := by
  cases hc : h.cell? i with
  | none =>
    rw [cell, hc]
    rfl
  | some c => exact cell_eq hc ▸ bears c hc

theorem Bears.of_holds (bears : Bears i as h) (back : ∀ d, g.cell? i = some d → h.Holds i d) :
    Bears i as g := by
  intro d hd
  obtain ⟨n, hn⟩ := back d hd
  exact bears { d with owners := n } hn

theorem bears_setCell (h : Heap) (i : CellId) (c : Cell) : Bears i c.hooks (h.setCell i c) := by
  intro d hd
  rw [cell?_setCell] at hd
  split at hd
  · cases hd
    rfl
  · rename_i gone
    exact absurd ⟨rfl, Option.isSome_iff_exists.mpr ⟨d, hd⟩⟩ gone

theorem Bears.letGo (bears : Bears i as h) (is : List CellId) : Bears i as (h.letGo is) :=
  bears.of_holds fun _ => holds_of_letGo

theorem Bears.retainAll (bears : Bears i as h) (is : List CellId) :
    Bears i as (h.retainAll is) := by
  refine bears.of_holds fun d hd => ?_
  rw [cell?_retainAll] at hd
  obtain ⟨c, hc, rfl⟩ := Option.map_eq_some_iff.mp hd
  exact ⟨c.owners, hc⟩

/-- **What storing comes to**, unless it is refused. -/
theorem ends_assign (i : CellId) (need : Room) (gains : Option CellId) (fill : Cell → Cell)
    (h : Heap) :
    Ends (assign i need gains fill) h (fun _ g => (h.cell i).checkWritable = .ok () ∧
      ∃ t, (h.cell i).makeRoom need = .ok { h.cell i with shape := t } ∧
        g = ((h.setCell i (fill { h.cell i with shape := t }.clearValue)).retainAll
          gains.toList).letGo (kept (h.cell i).target)) (· = h) := by
  refine Ends.read (Ends.outcome (fun _ writable => Ends.outcome (fun roomy made => ?_) rfl) rfl)
  obtain ⟨t, -, rfl⟩ := Cell.makeRoom_ok made
  exact ⟨writable, t, made, release_target _ (h.cell i)⟩

/-- **What undefining comes to**, unless it is refused. -/
theorem ends_undefine (i : CellId) (h : Heap) :
    Ends (undefine i) h (fun _ g => (h.cell i).checkWritable = .ok () ∧ ∃ ring,
      g = { (h.setCell i { (h.cell i).clearValue with
        payload := emptied (h.cell i).payload }).letGo (kept (h.cell i).target) with ring }.letGo
          (h.cell i).payload.cells) (· = h) := by
  refine Ends.read (Ends.outcome (fun _ writable => ⟨writable, ?_⟩) rfl)
  rw [← release_target]
  exact ⟨_, rfl⟩

theorem bears_assign (h : Heap) (hooks : ∀ c, (fill c).hooks = c.hooks) :
    Ends (assign i need gains fill) h (fun _ => Bears i (h.cell i).hooks) (· = h) := by
  refine (ends_assign i need gains fill h).imp ?_ fun _ => id
  rintro _ _ ⟨-, t, -, rfl⟩
  refine ((?_ : Bears i _ _).retainAll _).letGo _
  exact hooks { h.cell i with shape := t }.clearValue ▸ bears_setCell h i _

theorem bears_undefine (i : CellId) (h : Heap) :
    Ends (undefine i) h (fun _ => Bears i (h.cell i).hooks) (· = h) := by
  refine (ends_undefine i h).imp ?_ fun _ => id
  rintro _ _ ⟨-, ring, rfl⟩
  have released : Bears i (h.cell i).hooks ((h.setCell i { (h.cell i).clearValue with
      payload := emptied (h.cell i).payload }).letGo (kept (h.cell i).target)) :=
    (bears_setCell h i _).letGo _
  refine Bears.letGo ?_ _
  exact released

/-- A write after which no hook runs. -/
theorem ends_write {x : OnHeap Unit} (unhooked : (h.cell i).hooks = [])
    (stored : Ends x h (fun _ => Bears i (h.cell i).hooks) (· = h)) :
    Ends (x >>= fun _ => runHooks .set i) h (fun _ _ => True) (· = h) := by
  rw [unhooked] at stored
  exact stored.bind fun _ _ bears => Ends.of_ok (runHooks_unhooked bears.unhooked .set) trivial

/-- A copy between cells without attachments. -/
theorem ends_copyFrom {source : CellId} (unhooked : (h.cell i).hooks = [])
    (unhooked' : (h.cell source).hooks = []) :
    Ends (copyFrom i source) h (fun _ _ => True) (· = h) := by
  unfold copyFrom
  split
  · exact trivial
  refine Ends.step (runHooks_unhooked unhooked' .get) (Ends.read (Ends.outcome (fun _ _ => ?_) rfl))
  exact ends_write unhooked (bears_assign h fun _ => rfl)

/-! ### References -/

theorem looksFirst_upgrade (i : CellId) (shape : Shape) : LooksFirst (upgrade i shape) := by
  refine fun h => Ends.read ?_
  dsimp only
  split
  · exact trivial
  · split
    · exact rfl
    · exact trivial

theorem looksFirst_weaken (i : CellId) : LooksFirst (weaken i) := by
  refine fun h => Ends.read ?_
  dsimp only
  split
  · exact rfl
  split
  · exact rfl
  split <;> exact trivial

theorem looksFirst_bless (i : CellId) (package : Key) : LooksFirst (bless i package) := by
  intro h
  unfold bless
  refine Ends.read ?_
  split
  · exact rfl
  · dsimp only
    split
    · exact rfl
    · exact Ends.outcome (fun _ _ => trivial) rfl

/-! ### Arrays -/

theorem looksFirst_items (i : CellId) : LooksFirst (items i) :=
  fun _ => Ends.read (by dsimp only; split <;> trivial)

theorem looksFirst_changeItems (i : CellId) (f : List CellId → List CellId) (gains : List CellId)
    (loses : List CellId → List CellId) : LooksFirst (changeItems i f gains loses) := fun _ =>
  Ends.read (Ends.outcome (fun _ _ => by split <;> trivial) rfl)

theorem looksFirst_assignItems (i : CellId) (vs : List CellId) : LooksFirst (assignItems i vs) :=
  looksFirst_changeItems i _ vs id

/-- The cells that fill a gap are made when nothing can be refused any more. -/
theorem looksFirst_storeItem (i : CellId) (index : Nat) (v : CellId) :
    LooksFirst (storeItem i index v) := by
  refine fun h => Ends.read (Ends.outcome (fun _ writable => ?_) rfl)
  cases hc : h.cell? i with
  | none =>
    rw [cell, hc]
    exact rfl
  | some c =>
    rw [cell_eq hc] at writable ⊢
    cases array : c.payload with
    | array items =>
      have gap : Leads (fun g : Heap => g.cell? i = some c)
          ((List.range (index - items.length)).mapM fun _ => (new {} : OnHeap CellId))
          (fun gap g => g.cell? i = some c ∧ List.Forall₂ (fun _ _ => True)
            (List.range (index - items.length)) gap) fun _ => False := by
        refine Leads.mapM fun _ _ g hc => ⟨(cell?_allocate g {} i).trans ?_, trivial⟩
        rw [if_neg (Nat.ne_of_lt (lt_size hc)), hc]
      refine (gap.ends hc).sure.bind fun gap g made => ?_
      exact Ends.of_ok (changeItems_eq made.1 writable array _ _) trivial
    | _ => exact rfl

/-! ### Hashes and routines -/

theorem reads_fetch (i : CellId) (k : Spelling) (h : Heap) :
    Ends (fetch i k) h (fun _ h' => h' = h ∧ ∃ t, h.IsTable i t) (· = h) := by
  refine (reads_table i h).bind ?_
  rintro t g ⟨rfl, is⟩
  exact ⟨rfl, t, is⟩

theorem ends_store (i : CellId) (k : Spelling) (v : CellId) (h : Heap) :
    Ends (store i k v) h (fun _ h' => ∃ u ring, h' = (h.withTable i u ring).retain v) (· = h) := by
  refine (reads_writableTable i h).bind ?_
  rintro t g ⟨rfl, -⟩
  exact Ends.read (Ends.outcome (fun _ _ => ⟨_, _, rfl⟩) rfl)

/-- Finding the table of a hash that may be changed changes nothing. -/
theorem onlyReads_writableTable (i : CellId) : OnlyReads (writableTable i) :=
  fun h => (reads_writableTable i h).imp (fun _ _ => And.left) fun _ => id

theorem looksFirst_fetchOrCreate (i : CellId) (k : Spelling) :
    LooksFirst (fetchOrCreate i k) := by
  refine (onlyReads_writableTable i).bind fun t h => ?_
  dsimp only
  split
  · exact trivial
  · exact Ends.read (Ends.outcome (fun _ _ => trivial) rfl)

theorem looksFirst_delete (i : CellId) (k : Spelling) : LooksFirst (delete i k) :=
  (onlyReads_writableTable i).bind fun _ _ => Ends.read (Ends.outcome (fun _ _ => trivial) rfl)

theorem looksFirst_reserve (i : CellId) (expected : Nat) : LooksFirst (reserve i expected) :=
  (onlyReads_writableTable i).bind fun _ _ => Ends.outcome (fun _ _ => trivial) rfl

theorem looksFirst_clearTable (i : CellId) : LooksFirst (clearTable i) := by
  refine (onlyReads_writableTable i).bind fun t h => Ends.read ?_
  split
  · exact Ends.outcome (fun _ _ => trivial) rfl
  · exact trivial

theorem looksFirst_setRestricted (i : CellId) (on : Bool) : LooksFirst (setRestricted i on) :=
  (onlyReads_writableTable i).bind fun _ _ => trivial

theorem reads_routine (i : CellId) : OnlyReads (routine i) :=
  fun _ => Ends.read (by dsimp only; split <;> rfl)

theorem looksFirst_updateRoutine (i : CellId) (f : Routine → Routine) :
    LooksFirst (updateRoutine i f) :=
  (reads_routine i).bind fun _ => (Succeeds.modify _).looksFirst

end

/-! ### Every operation -/

/-- A plain write to a cell. -/
inductive Write
  | int (v : Int64)
  | float (v : Binary64)
  | bytes (b : Bytes)
  | text (s : String)
  | ref (target : CellId)
  | undef

namespace Write

/-- Stores, and runs no hook. -/
def store (i : CellId) : Write → OnHeap Unit
  | int v => assignInt i v
  | float v => assignFloat i v
  | bytes b => assignBytes i b
  | text s => assignText i s
  | ref target => assignRef i target
  | undef => undefine i

/-- Carries out a write. -/
def perform (i : CellId) : Write → OnHeap Unit
  | int v => setInt i v
  | float v => setFloat i v
  | bytes b => setBytes i b
  | text s => setText i s
  | ref target => setRef i target
  | undef => setUndef i

/-- Hooks run after a value is stored. -/
theorem perform_eq (i : CellId) (w : Write) :
    w.perform i = w.store i >>= fun _ => runHooks .set i := by
  cases w <;> rfl

/-- **A write** leaves the attachments of its cell, unless it is refused. -/
theorem bears_store (i : CellId) (w : Write) (h : Heap) :
    Ends (w.store i) h (fun _ => Bears i (h.cell i).hooks) (· = h) := by
  cases w with
  | undef => exact bears_undefine i h
  | _ =>
    unfold store
    exact bears_assign h fun _ => rfl

end Write

/-- What is done to cells. -/
inductive CellOp
  | read (i : CellId) (r : Read)
  | write (i : CellId) (w : Write)
  | copyFrom (i source : CellId)
  | upgrade (i : CellId) (shape : Shape)
  | weaken (i : CellId)
  | bless (i : CellId) (package : Key)
  | items (i : CellId)
  | push (i v : CellId)
  | storeItem (i : CellId) (index : Nat) (v : CellId)
  | clearItems (i : CellId)
  | assignItems (i : CellId) (vs : List CellId)
  | table (i : CellId)
  | fetch (i : CellId) (key : Spelling)
  | store (i : CellId) (key : Spelling) (v : CellId)
  | fetchOrCreate (i : CellId) (key : Spelling)
  | delete (i : CellId) (key : Spelling)
  | reserve (i : CellId) (expected : Nat)
  | clearTable (i : CellId)
  | setRestricted (i : CellId) (on : Bool)
  | routine (i : CellId)
  | updateRoutine (i : CellId) (f : Routine → Routine)

namespace CellOp

/-- The cells whose hooks an operation may run. -/
def watched : CellOp → List CellId
  | read i _ | write i _ => [i]
  | copyFrom i source => [i, source]
  | _ => []

/-- Carries out an operation, and drops its result. -/
def perform : CellOp → OnHeap Unit
  | read i r => discard (r.perform i)
  | write i w => w.perform i
  | copyFrom i source => Heap.copyFrom i source
  | upgrade i shape => Heap.upgrade i shape
  | weaken i => discard (Heap.weaken i)
  | bless i package => Heap.bless i package
  | items i => discard (Heap.items i)
  | push i v => Heap.push i v
  | storeItem i index v => Heap.storeItem i index v
  | clearItems i => Heap.clearItems i
  | assignItems i vs => Heap.assignItems i vs
  | table i => discard (Heap.table i)
  | fetch i key => discard (Heap.fetch i key)
  | store i key v => discard (Heap.store i key v)
  | fetchOrCreate i key => discard (Heap.fetchOrCreate i key)
  | delete i key => discard (Heap.delete i key)
  | reserve i expected => Heap.reserve i expected
  | clearTable i => Heap.clearTable i
  | setRestricted i on => Heap.setRestricted i on
  | routine i => discard (Heap.routine i)
  | updateRoutine i f => Heap.updateRoutine i f

end CellOp

section
variable {h : Heap} {i : CellId}

/-- A read of a cell without attachments. -/
theorem Read.ends_perform (unhooked : (h.cell i).hooks = []) (r : Read) :
    Ends (r.perform i) h (fun _ _ => True) (· = h) := by
  have hooked {α : Type} {x : OnHeap α} (look : LooksFirst x) :
      Ends (runHooks .get i >>= fun _ => x) h (fun _ _ => True) (· = h) :=
    Ends.step (runHooks_unhooked unhooked .get) (look h)
  cases r with
  | int sink => exact (hooked (looksFirst_readInt i sink)).bind fun _ _ _ => trivial
  | float sink => exact (hooked (looksFirst_readFloat i sink)).bind fun _ _ _ => trivial
  | bytes sink => exact (hooked (looksFirst_readBytes i sink)).bind fun _ _ _ => trivial
  | text sink => exact (hooked (looksFirst_readText i sink)).bind fun _ _ _ => trivial
  | truth => exact (hooked fun h => Ends.read (Ends.of_ok rfl trivial)).bind fun _ _ _ => trivial
  | numeric | defined | referent => exact trivial

/-- **Every operation** succeeds or leaves the heap, if nothing is attached to the cells that it
reads or writes. -/
theorem CellOp.ends_perform (op : CellOp) (unhooked : ∀ i ∈ op.watched, (h.cell i).hooks = []) :
    Ends op.perform h (fun _ _ => True) (· = h) := by
  cases op with
  | read i r => exact (r.ends_perform (unhooked i (by simp [watched]))).discard
  | write i w =>
    show Ends (w.perform i) h _ _
    rw [w.perform_eq]
    exact ends_write (unhooked i (by simp [watched])) (w.bears_store i h)
  | copyFrom i source =>
    exact ends_copyFrom (unhooked i (by simp [watched])) (unhooked source (by simp [watched]))
  | upgrade i shape => exact looksFirst_upgrade i shape h
  | weaken i => exact (looksFirst_weaken i h).discard
  | bless i package => exact looksFirst_bless i package h
  | items i => exact (looksFirst_items i h).discard
  | push i v => exact looksFirst_changeItems i _ _ _ h
  | storeItem i index v => exact looksFirst_storeItem i index v h
  | clearItems i => exact looksFirst_changeItems i _ _ _ h
  | assignItems i vs => exact looksFirst_assignItems i vs h
  | table i => exact ((reads_table i h).imp (fun _ _ _ => trivial) fun _ => id).discard
  | fetch i key => exact ((reads_fetch i key h).imp (fun _ _ _ => trivial) fun _ => id).discard
  | store i key v => exact ((ends_store i key v h).imp (fun _ _ _ => trivial) fun _ => id).discard
  | fetchOrCreate i key => exact (looksFirst_fetchOrCreate i key h).discard
  | delete i key => exact (looksFirst_delete i key h).discard
  | reserve i expected => exact looksFirst_reserve i expected h
  | clearTable i => exact looksFirst_clearTable i h
  | setRestricted i on => exact looksFirst_setRestricted i on h
  | routine i => exact (reads_routine i).looksFirst.bind (fun _ => Succeeds.pure _) h
  | updateRoutine i f => exact looksFirst_updateRoutine i f h

/-- **Refused operations change nothing.**  An operation on cells that is refused leaves the heap as
it was, if nothing is attached to the cells that it reads or writes: every cell, the keys, the
events and the reports. -/
theorem refused_unchanged {h' : Heap} {e : Fault} (op : CellOp)
    (unhooked : ∀ i ∈ op.watched, (h.cell i).hooks = []) (refused : op.perform h = .error e h') :
    h' = h := by
  have ends := op.ends_perform unhooked
  rwa [Ends, refused] at ends

end

/-- An integer is not copied into an array. -/
theorem refused_unchanged_array :
    let h := ((Host.start #[] {}).run [.make (.int 7), .list [0]]).heap
    (∀ i ∈ (CellOp.copyFrom 1 0).watched, (h.cell i).hooks = []) ∧
      ∃ h', (CellOp.copyFrom 1 0).perform h = .error (.mismatch (.notScalar .array)) h' ∧
        h' = h := by
  intro h
  have unhooked : ∀ i ∈ (CellOp.copyFrom 1 0).watched, (h.cell i).hooks = [] := by decide +kernel
  have refused : (CellOp.copyFrom 1 0).perform h = .error (.mismatch (.notScalar .array)) h := by
    with_unfolding_all rfl
  exact ⟨unhooked, h, refused, refused_unchanged _ unhooked refused⟩

end ScriptCore.Heap
