import ScriptCore.Proofs.Heap.Conduct
import ScriptCore.Proofs.Heap.Host

/-!
# Heap — no mark between operations

The mark of a cell bars its hooks from running and lets its hooks write where others may not.  It is
there while they run and at no other time: whatever a host does, and however that ends, no cell is
marked after it.

* `Calm`: no cell is marked.
* `Calm.spares`: what spares all cells but one leaves no mark.
* `keeps_calm`: each operation of a host, and `Calm.run`: any of its runs.
-/

namespace ScriptCore.Heap
open Cell

/-- No cell is marked as having its hooks run. -/
def Calm (h : Heap) : Prop := ∀ i c, h.cell? i = some c → c.flags.inHooks = false

section
variable {α : Type} {h g : Heap} {i : CellId} {c : Cell} {x : OnHeap α}
  {conduct : Conduct} {run : Runner}

/-! ### Steps -/

/-- What spares all cells but one leaves no mark. -/
theorem Calm.spares (calm : h.Calm) (s : h.Spares i g) : g.Calm := by
  intro j d hd
  by_cases own : j = i
  · subst own
    obtain ⟨c, hc, same⟩ := s.mark d hd
    exact same.trans (calm j c hc)
  · obtain ⟨n, hn⟩ := s.others j d own hd
    exact calm j { d with owners := n } hn

theorem Calm.of_cells (calm : h.Calm) (cells : g.cells = h.cells) : g.Calm :=
  calm.spares (spares_of_cells (i := 0) cells)

theorem Calm.retainAll (calm : h.Calm) (is : List CellId) : (h.retainAll is).Calm :=
  calm.spares (spares_retainAll (i := 0) h is)

theorem Calm.letGo (calm : h.Calm) (is : List CellId) : (h.letGo is).Calm :=
  calm.spares (spares_letGo (i := 0) h is)

theorem Calm.cell (calm : h.Calm) (i : CellId) : (h.cell i).flags.inHooks = false := by
  cases hc : h.cell? i with
  | none =>
    rw [Heap.cell, hc]
    rfl
  | some c => exact cell_eq hc ▸ calm i c hc

theorem Calm.setCell (calm : h.Calm) (clear : c.flags.inHooks = false) :
    (h.setCell i c).Calm := by
  intro j d hd
  rw [cell?_setCell] at hd
  split at hd
  · cases hd
    exact clear
  · exact calm j d hd

theorem Calm.allocate (calm : h.Calm) (clear : c.flags.inHooks = false) :
    (h.allocate c).2.Calm := by
  intro j d hd
  rw [cell?_allocate] at hd
  split at hd
  · cases hd
    exact clear
  · exact calm j d hd

theorem Calm.withTable (calm : h.Calm) (i : CellId) (t : Table CellId) (ring : Keyring) :
    (h.withTable i t ring).Calm := by
  have calm' : { h with ring }.Calm := calm
  exact calm'.setCell (calm'.cell i)

/-- What spares all cells but one keeps the heap calm. -/
theorem keeps_calm_spares (spares : ∀ h₀, Keeps (Spares i h₀) x) : Keeps Calm x := fun h calm =>
  ((spares h).ends (.refl i h)).imp (fun _ _ s => calm.spares s) fun _ s => calm.spares s

/-! ### Operations -/

theorem keeps_calm_new (clear : c.flags.inHooks = false) : Keeps Calm (new c) :=
  Keeps.read fun _ calm => calm.allocate clear

theorem Runs.keeps_calm (runs : Runs conduct run) (phase : Phase) (i : CellId) :
    Keeps Calm (run phase i) := keeps_calm_spares fun _ => runs.keeps phase

/-- What is done to a cell alone leaves no mark. -/
theorem Runs.keeps_calm_performBy (runs : Runs conduct run) (i : CellId) (op : OwnOp) :
    Keeps Calm (op.performBy run i) :=
  keeps_calm_spares fun _ => Spares.keeps_performBy (fun phase => runs.keeps phase) op

/-- A copy leaves no mark. -/
theorem Runs.keeps_calm_copyBy (runs : Runs conduct run) (i source : CellId) :
    Keeps Calm (copyBy run i source) := by
  unfold copyBy
  split
  · exact Keeps.pure _
  · refine (runs.keeps_calm .get source).bind fun _ => Keeps.bind ?_ fun _ => runs.keeps_calm .set i
    exact keeps_calm_spares (i := i) fun _ => Spares.keeps_takeOver source

theorem keeps_calm_runHooks (phase : Phase) (i : CellId) : Keeps Calm (runHooks phase i) :=
  runs_runHooks.keeps_calm phase i

theorem keeps_calm_changeItems (i : CellId) (f : List CellId → List CellId) (gains : List CellId)
    (loses : List CellId → List CellId) : Keeps Calm (changeItems i f gains loses) := by
  refine Keeps.read fun h calm => Ends.outcome (fun _ _ => ?_) calm
  split
  · rename_i items _
    have stored : (h.setCell i { h.cell i with payload := .array (f items) }).Calm :=
      calm.setCell (calm.cell i)
    exact (stored.retainAll gains).letGo (loses items)
  · exact calm

theorem keeps_calm_table (i : CellId) : Keeps Calm (table i) := by
  refine Keeps.read fun h calm => ?_
  dsimp only
  split <;> exact calm

theorem keeps_calm_writableTable (i : CellId) : Keeps Calm (writableTable i) :=
  Keeps.read fun _ calm => Ends.outcome (fun _ _ => (keeps_calm_table i).ends calm) calm

theorem keeps_calm_putTable (i : CellId) (t : Table CellId) (ring : Keyring) :
    Keeps Calm (putTable i t ring) := Keeps.modify fun _ calm => calm.withTable i t ring

theorem keeps_calm_takeHold (held : List CellId) (found : Option CellId) :
    Keeps Calm (Op.takeHold held found) :=
  Keeps.bind (Keeps.modify fun _ calm => calm.retainAll _) fun _ => Keeps.pure _

theorem keeps_calm_storeItem (i : CellId) (index : Nat) (v : CellId) :
    Keeps Calm (storeItem i index v) := by
  refine Keeps.read fun h calm => Ends.outcome (fun _ _ => ?_) calm
  split
  · refine Keeps.ends ?_ calm
    exact (Keeps.mapM (fun _ => keeps_calm_new rfl) _).bind fun _ => keeps_calm_changeItems i _ _ _
  · exact calm

theorem keeps_calm_fetch (i : CellId) (k : Spelling) : Keeps Calm (fetch i k) :=
  (keeps_calm_table i).bind fun _ => Keeps.pure _

theorem keeps_calm_store (i : CellId) (k : Spelling) (v : CellId) : Keeps Calm (store i k v) := by
  refine (keeps_calm_writableTable i).bind fun t => Keeps.read fun h calm =>
    Ends.outcome (fun stored _ => Keeps.ends ?_ calm) calm
  refine (keeps_calm_putTable i _ _).bind fun _ => ?_
  exact Keeps.bind (Keeps.modify fun _ calm => calm.retainAll [v]) fun _ => Keeps.pure _

theorem keeps_calm_fetchOrCreate (i : CellId) (k : Spelling) :
    Keeps Calm (fetchOrCreate i k) := by
  refine (keeps_calm_writableTable i).bind fun t => ?_
  split
  · exact Keeps.pure _
  · refine Keeps.read fun h calm => Ends.outcome (fun stored _ => Keeps.ends ?_ calm) calm
    exact (keeps_calm_putTable i _ _).bind fun _ => keeps_calm_new rfl

theorem keeps_calm_delete (i : CellId) (k : Spelling) : Keeps Calm (delete i k) := by
  refine (keeps_calm_writableTable i).bind fun t => Keeps.read fun h calm =>
    Ends.outcome (fun stored _ => Keeps.ends ?_ calm) calm
  exact (keeps_calm_putTable i _ _).bind fun _ => Keeps.pure _

theorem keeps_calm_reserve (i : CellId) (expected : Nat) : Keeps Calm (reserve i expected) :=
  (keeps_calm_writableTable i).bind fun _ => (Keeps.outcome _).bind fun _ =>
    Keeps.read fun _ calm => (keeps_calm_putTable i _ _).ends calm

theorem keeps_calm_clearTable (i : CellId) : Keeps Calm (clearTable i) := by
  refine (keeps_calm_writableTable i).bind fun t => Keeps.read fun h calm => ?_
  split
  · refine Ends.outcome (fun cleared _ => Keeps.ends ?_ calm) calm
    exact (keeps_calm_putTable i _ _).bind fun _ => Keeps.modify fun _ calm => calm.letGo _
  · rcases t.dispose h.ring with ⟨gone, ring⟩
    refine Keeps.ends ((keeps_calm_putTable i _ _).bind fun _ => Keeps.modify fun g calm => ?_) calm
    have calm : { g with ring }.Calm := calm
    exact calm.letGo gone

theorem keeps_calm_setRestricted (i : CellId) (on : Bool) : Keeps Calm (setRestricted i on) :=
  (keeps_calm_writableTable i).bind fun _ => Keeps.read fun _ calm =>
    (keeps_calm_putTable i _ _).ends calm

theorem keeps_calm_updateRoutine (i : CellId) (f : Routine → Routine) :
    Keeps Calm (updateRoutine i f) := by
  refine Keeps.bind (fun h calm => ?_) fun r =>
    Keeps.modify fun _ calm => calm.setCell (calm.cell i)
  exact (reads_routine i h).imp (fun _ _ same => same ▸ calm) fun _ same => same ▸ calm

theorem keeps_calm_weaken (i : CellId) : Keeps Calm (weaken i) := by
  refine Keeps.read fun h calm => ?_
  dsimp only
  split
  · exact calm
  split
  · exact calm
  split
  · rename_i j _
    have weak : (h.setCell i { h.cell i with
        target := some (.weak j), flags := { (h.cell i).flags with weak := true } }).Calm :=
      calm.setCell (calm.cell i)
    exact weak.letGo [j]
  · exact calm

theorem keeps_calm_bless (i : CellId) (package : Key) : Keeps Calm (bless i package) := by
  refine Keeps.read fun h calm => ?_
  split
  · exact calm
  · rename_i j _
    dsimp only
    split
    · exact calm
    · refine Ends.outcome (fun grown made => ?_) calm
      obtain ⟨t, -, rfl⟩ := makeRoom_ok made
      exact calm.setCell (calm.cell j)

theorem keeps_calm_upgrade (i : CellId) (shape : Shape) : Keeps Calm (upgrade i shape) := by
  refine Keeps.read fun h calm => ?_
  dsimp only
  split
  · exact calm.setCell (calm.cell i)
  · split <;> exact calm

theorem keeps_calm_runNative (n : Native) (args : List CellId) :
    Keeps Calm (runNative n args) := by
  cases n with
  | count | hello => exact keeps_calm_new rfl
  | first =>
    cases args with
    | nil => exact keeps_calm_new rfl
    | cons a args =>
      exact Keeps.bind (Keeps.modify fun _ calm => calm.retainAll [a]) fun _ => Keeps.pure _
  | fail => exact Keeps.throw _
  | sum =>
    refine Keeps.bind (Keeps.foldlM (fun a _ n => ?_) 0) fun _ => keeps_calm_new rfl
    exact ((keeps_calm_runHooks .get a).bind fun _ =>
      keeps_calm_spares fun _ => (Spares.converting _ _).readInt .silent).bind fun _ => Keeps.pure _

/-- **One operation** of a host leaves no mark. -/
theorem keeps_calm (held : List CellId) (op : Op) : Keeps Calm (op.act held) := by
  have only {β : Type} {x : OnHeap β} (keeps : Keeps Calm x) : Keeps Calm (Op.only held x) :=
    keeps.discard.bind fun _ => Keeps.pure _
  have read {β : Type} {i : CellId} {x : OnHeap β} (spares : ∀ h₀, Keeps (Spares i h₀) x) :
      Keeps Calm (runHooks .get i >>= fun _ => x) :=
    (keeps_calm_runHooks .get i).bind fun _ => keeps_calm_spares spares
  have write {i : CellId} (w : Write) : Keeps Calm (w.perform i) := by
    rw [w.perform_eq]
    exact (keeps_calm_spares fun _ => Spares.keeps_store w).bind fun _ => keeps_calm_runHooks .set i
  have beside {f : Heap → Heap} (cells : ∀ h, (f h).cells = h.cells) :
      Keeps Calm (Op.only held (modify f)) :=
    only (Keeps.modify fun h calm => calm.of_cells (cells h))
  cases op with
  | make l => exact (keeps_calm_new (by cases l <;> rfl)).bind fun _ => Keeps.pure _
  | refer target =>
    exact Keeps.bind (Keeps.bind (Keeps.modify fun _ calm => calm.retainAll [target]) fun _ =>
      keeps_calm_new rfl) fun _ => Keeps.pure _
  | list items =>
    exact Keeps.bind (Keeps.bind (Keeps.modify fun _ calm => calm.retainAll items) fun _ =>
      keeps_calm_new rfl) fun _ => Keeps.pure _
  | hash home =>
    exact Keeps.read fun _ calm => ((keeps_calm_new rfl).bind fun _ => Keeps.pure _).ends calm
  | clone i => exact keeps_calm_takeHold held _
  | drop i => exact Keeps.bind (Keeps.modify fun _ calm => calm.letGo [i]) fun _ => Keeps.pure _
  | wake weak => exact Keeps.read fun _ calm => (keeps_calm_takeHold held _).ends calm
  | deref i => exact Keeps.read fun _ calm => (keeps_calm_takeHold held _).ends calm
  | element i index =>
    refine Keeps.bind (Keeps.read fun h calm => ?_) fun _ => keeps_calm_takeHold held _
    dsimp only
    split <;> exact calm
  | fetch i key => exact (keeps_calm_fetch i key).bind fun _ => keeps_calm_takeHold held _
  | fetchOrCreate i key =>
    exact (keeps_calm_fetchOrCreate i key).bind fun _ => keeps_calm_takeHold held _
  | getInt i sink => exact only (read fun _ => (Spares.converting i _).readInt sink)
  | getFloat i sink => exact only (read fun _ => (Spares.converting i _).readFloat sink)
  | getBytes i sink => exact only (read fun _ => (Spares.converting i _).readBytes sink)
  | getText i sink => exact only (read fun _ => (Spares.converting i _).readText sink)
  | getTruth i => exact only (read (i := i) fun _ => Keeps.read fun _ s => s)
  | setInt i v => exact only (write (.int v))
  | setFloat i v => exact only (write (.float v))
  | setBytes i b => exact only (write (.bytes b))
  | setText i s => exact only (write (.text s))
  | setRef i target => exact only (write (.ref target))
  | setUndef i => exact only (write .undef)
  | copyFrom i source =>
    exact only (copyBy_runHooks i source ▸ runs_runHooks.keeps_calm_copyBy i source)
  | weaken i => exact only (keeps_calm_weaken i)
  | bless i package => exact only (keeps_calm_bless i package)
  | attach i kind hook => exact only (keeps_calm_spares fun _ => Spares.keeps_attach kind hook)
  | detach i kind => exact only (keeps_calm_spares fun _ => Spares.keeps_detach kind)
  | runHooks phase i => exact only (keeps_calm_runHooks phase i)
  | upgrade i shape => exact only (keeps_calm_upgrade i shape)
  | push i v => exact only (keeps_calm_changeItems i _ _ _)
  | storeItem i index v => exact only (keeps_calm_storeItem i index v)
  | clearItems i => exact only (keeps_calm_changeItems i _ _ _)
  | assignItems i vs => exact only (keeps_calm_changeItems i _ _ _)
  | store i key v => exact (keeps_calm_store i key v).bind fun _ => Keeps.pure _
  | delete i key => exact (keeps_calm_delete i key).bind fun _ => Keeps.pure _
  | reserve i expected => exact only (keeps_calm_reserve i expected)
  | clearTable i => exact only (keeps_calm_clearTable i)
  | setRestricted i on => exact only (keeps_calm_setRestricted i on)
  | updateRoutine i f => exact only (keeps_calm_updateRoutine i f)
  | call native args => exact (keeps_calm_runNative native args).bind fun _ => Keeps.pure _
  | setReadOnly i on => exact only (keeps_calm_spares fun _ => Spares.keeps_setReadOnly on)
  | setTainted i on => exact only (keeps_calm_spares fun _ => Spares.keeps_setTainted on)
  | newEnvironment | newTaint => exact beside fun _ => rfl
  | updateEnvironment e f => exact beside fun _ => rfl
  | setTaint t on => exact beside fun _ => rfl

end

/-! ### Runs -/

theorem calm_start (seeds : Array Seed) (supply : Supply) : (Host.start seeds supply).heap.Calm :=
  fun _ _ hc => nomatch hc

theorem Calm.step {s : Host} (calm : s.heap.Calm) (op : Op) : (s.step op).heap.Calm := by
  unfold Host.step
  split
  · have ends := (keeps_calm s.held op).ends calm
    split <;> rename_i e <;> rw [Ends, e] at ends <;> exact ends
  · exact calm

/-- **Between operations** no cell is marked. -/
theorem Calm.run {s : Host} (calm : s.heap.Calm) (ops : List Op) : (s.run ops).heap.Calm := by
  induction ops generalizing s with
  | nil => exact calm
  | cons op ops ih => exact ih (calm.step op)

end ScriptCore.Heap
