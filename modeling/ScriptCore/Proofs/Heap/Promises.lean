import ScriptCore.Proofs.Heap.Hashes
import ScriptCore.Proofs.Heap.Host
import ScriptCore.Proofs.Table.Promises

/-!
# Heap — the promises of a hash

What a host does to a hash cell, and what it leaves of the promises of its table: that a restricted
table keeps its set of keys and the read-only values in it, and that a table whose seed is pinned
keeps the seed.

* `Kept.ends_hash`: one operation honours them, but when it puts a new table in the place of the
  one there is (`HashOp.Replaces`).  That is what clearing does to a table that is not restricted
  and what undefining does to any; the new table has the old seed and promises nothing.
* `run_promises`: so promises are honoured from any time of a run to any later one that no
  replacement comes in between.
-/

namespace ScriptCore.Heap

/-- What is done to a hash. -/
inductive HashOp
  | store (key : Spelling) (v : CellId)
  | fetchOrCreate (key : Spelling)
  | delete (key : Spelling)
  | clear
  | reserve (expected : Nat)
  | undefine

namespace HashOp

/-- The operation, done to a cell. -/
def on (i : CellId) : HashOp → Op
  | store key v => .store i key v
  | fetchOrCreate key => .fetchOrCreate i key
  | delete key => .delete i key
  | clear => .clearTable i
  | reserve expected => .reserve i expected
  | undefine => .setUndef i

/-- What the operation stores. -/
def stored : HashOp → Option (Spelling × CellId)
  | store key v => some (key, v)
  | _ => none

/-- The operation does not change a table but makes a new one. -/
def remakes (t : Table CellId) : HashOp → Bool
  | clear => !t.restricted
  | undefine => true
  | _ => false

/-- The operation puts a new table in the place of that of a cell. -/
def Replaces (op : HashOp) (h : Heap) (i : CellId) (t : Table CellId) : Prop :=
  (h.cell i).checkWritable = .ok () ∧ op.remakes t = true

/-- What becomes of the table of a hash. -/
structure Makes (op : HashOp) (h : Heap) (i : CellId) (t u : Table CellId) : Prop where
  replaced : op.Replaces h i t → u = t.emptied
  honours : ¬ op.Replaces h i t → t.Honours u
  shields : ¬ op.Replaces h i t → t.restricted = true → t.Shields u h.isReadOnly op.stored

/-- A later heap in which the cell has what the operation made of its table. -/
def Leaves (op : HashOp) (h : Heap) (i : CellId) (t : Table CellId) (g : Heap) : Prop :=
  ∃ u, g.IsTable i u ∧ op.Makes h i t u

end HashOp

/-- A change to a table alone, which keeps it in order and takes no value out of it or in. -/
structure Tending where
  change : Table CellId → Keyring → Table CellId × Keyring
  tidy : ∀ (t : Table CellId) r, t.Tidy r → (change t r).1.Tidy (change t r).2
  turns : ∀ (t : Table CellId) (r : Keyring), t.Tidy r → r.Turns (change t r).2
  values : ∀ (t : Table CellId) r, t.Tidy r → ∀ j, (change t r).1.values.count j = t.values.count j

/-- To pin the seed is one. -/
def Tending.pin : Tending where
  change t r := (t.pinSeed, r)
  tidy t r h := by
    obtain ⟨m, shows⟩ := h.housed.sound.toLinked.exists_shows
    exact ⟨(h.housed.setMarks shows t.restricted true).1, h.tight⟩
  turns t r h := .refl h.housed.ring
  values t r _ j := rfl

/-- Does something to the table of a hash. -/
def tend (i : CellId) (f : Tending) : OnHeap Unit := do
  let t ← writableTable i
  let (u, ring) := f.change t (← get).ring
  putTable i u ring

/-- What a host does, to cells or to their tables. -/
inductive Deed
  | op (op : Op)
  | tend (i : CellId) (f : Tending)

/-- A host after a deed. -/
def Host.deed (s : Host) : Deed → Host
  | .op op => s.step op
  | .tend i f => if i ∈ s.held then { s with heap := after (Heap.tend i f) s.heap } else s

/-- A host after deeds. -/
def Host.deeds (s : Host) (ds : List Deed) : Host := ds.foldl Host.deed s

/-- The table of a hash. -/
def tableOf (h : Heap) (i : CellId) : Table CellId :=
  match (h.cell i).payload with
  | .hash t => t
  | _ => {}

namespace Host

/-- A host after the first so many operations on a hash. -/
def upTo (s : Host) (i : CellId) (ops : List HashOp) (n : Nat) : Host :=
  s.run ((ops.take n).map (HashOp.on i))

/-- The table of the hash by then. -/
def tableUpTo (s : Host) (i : CellId) (ops : List HashOp) (n : Nat) : Table CellId :=
  (s.upTo i ops n).heap.tableOf i

/-- No operation from one time to another puts a new table in the place of the one there is. -/
def KeepsTable (s : Host) (i : CellId) (ops : List HashOp) (m n : Nat) : Prop :=
  ∀ k op, m ≤ k → k < n → ops[k]? = some op →
    ¬ op.Replaces (s.upTo i ops k).heap i (s.tableUpTo i ops k)

/-- What holds of a hash all through a run of operations on it. -/
structure Promised (s : Host) (i : CellId) (ops : List HashOp) : Prop where
  hash : ∀ n, (s.upTo i ops n).heap.IsTable i (s.tableUpTo i ops n)
  makes : ∀ n (op : HashOp), ops[n]? = some op →
    op.Makes (s.upTo i ops n).heap i (s.tableUpTo i ops n) (s.tableUpTo i ops (n + 1))
  keys : ∀ m n, m ≤ n → s.KeepsTable i ops m n → (s.tableUpTo i ops m).restricted = true →
    (s.tableUpTo i ops n).restricted = true ∧
      (s.tableUpTo i ops m).SameSet (s.tableUpTo i ops n)
  seed : ∀ m n, m ≤ n → s.KeepsTable i ops m n → (s.tableUpTo i ops m).pinned = true →
    (s.tableUpTo i ops n).pinned = true ∧
      (s.tableUpTo i ops n).seed = (s.tableUpTo i ops m).seed

end Host

section
variable {h₀ h : Heap} {i j v : CellId} {held out : List CellId} {t u : Table CellId}
  {key : Spelling} {op : HashOp} {r : Keyring}

/-! ### Deeds keep the books -/

theorem keeps_tend (hi : i ∈ out) (f : Tending) : Keeps (Kept h₀ out) (tend i f) := by
  intro h k
  refine k.onTable hi fun t is => Ends.read ?_
  have tidy := k.tidy is
  exact Kept.putTable [] [] [] k is (f.turns t _ tidy) (f.tidy t _ tidy) nofun
    (f.values t _ tidy)

theorem Kept.deed {s : Host} (k : Kept h₀ s.held s.heap) (d : Deed) :
    Kept h₀ (s.deed d).held (s.deed d).heap := by
  cases d with
  | op op => exact k.step op
  | tend i f =>
    unfold Host.deed
    dsimp only
    split
    · rename_i hi
      exact (keeps_tend hi f).after k
    · exact k

theorem Kept.deeds {s : Host} (k : Kept h₀ s.held s.heap) (ds : List Deed) :
    Kept h₀ (s.deeds ds).held (s.deeds ds).heap := by
  induction ds generalizing s with
  | nil => exact k
  | cons d ds ih => exact ih (k.deed d)

/-! ### One operation -/

/-- An operation that replaces no table may leave everything as it is. -/
theorem HashOp.makes_same (kept : ¬ op.Replaces h i t) : op.Makes h i t t :=
  ⟨fun replaces => absurd replaces kept, fun _ => .refl t, fun _ _ _ _ found _ => .inl found⟩

/-- An operation that changes a table. -/
theorem HashOp.makes_changed (kept : op.remakes t = false) (honours : t.Honours u)
    (shields : t.restricted = true → t.Shields u h.isReadOnly op.stored) : op.Makes h i t u :=
  ⟨fun replaces => absurd (replaces.2.symm.trans kept) nofun, fun _ => honours, fun _ => shields⟩

/-- An operation that makes a new table. -/
theorem HashOp.makes_new (remakes : op.remakes t = true)
    (writable : (h.cell i).checkWritable = .ok ()) : op.Makes h i t t.emptied :=
  ⟨fun _ => rfl, fun kept => absurd ⟨writable, remakes⟩ kept,
    fun kept => absurd ⟨writable, remakes⟩ kept⟩

/-- An operation on the table of a cell. -/
theorem ends_onTable {α : Type} {f : Table CellId → OnHeap α} {Q : α → Heap → Prop}
    {E : Heap → Prop} (is : h.IsTable i t)
    (open_ : (h.cell i).checkWritable = .ok () → Ends (f t) h Q E)
    (locked : (h.cell i).checkWritable ≠ .ok () → E h) : Ends (writableTable i >>= f) h Q E := by
  obtain ⟨c, hc, hash⟩ := is
  have read : Ends (writableTable i) h
      (fun u g => g = h ∧ u = t ∧ (h.cell i).checkWritable = .ok ())
      fun g => g = h ∧ (h.cell i).checkWritable ≠ .ok () := by
    refine Ends.read ?_
    cases writable : (h.cell i).checkWritable with
    | error e => exact ⟨rfl, nofun⟩
    | ok _ =>
      refine Ends.step (a := ()) (t := h) rfl (Ends.read ?_)
      rw [cell_eq hc]
      dsimp only
      rw [hash]
      exact ⟨rfl, rfl, rfl⟩
  refine (read.imp (fun _ _ q => q) fun g q => ?_).bind ?_
  · exact q.1 ▸ locked q.2
  · rintro u g ⟨rfl, rfl, writable⟩
    exact open_ writable

theorem HashOp.leaves_same (is : h.IsTable i t) (kept : ¬ op.Replaces h i t) :
    op.Leaves h i t h := ⟨t, is, makes_same kept⟩

theorem HashOp.leaves_locked (is : h.IsTable i t) (locked : (h.cell i).checkWritable ≠ .ok ()) :
    op.Leaves h i t h := leaves_same is fun replaces => locked replaces.1

theorem Kept.ends_store (k : Kept h₀ out h) (is : h.IsTable i t) (key : Spelling) (v : CellId) :
    Ends (store i key v) h (fun _ => (HashOp.store key v).Leaves h i t)
      ((HashOp.store key v).Leaves h i t) := by
  refine ends_onTable is (fun _ => Ends.read (Ends.outcome ?_ ?_)) fun locked => ?_
  · rintro ⟨old, u, r⟩ stored
    have housed := (k.tidy is).housed
    refine ⟨u, (is.withTable u r).updateCell v fun _ => rfl, HashOp.makes_changed rfl ?_ ?_⟩
    · exact housed.honours_store (admitted_ok stored)
    · exact fun _ => housed.shields_store (admitted_ok stored)
  · exact HashOp.leaves_same is fun replaces => nomatch replaces.2
  · exact HashOp.leaves_locked is locked

/-- A new value is stored under a key that has none, so it goes over no other. -/
theorem Kept.ends_fetchOrCreate (k : Kept h₀ out h) (is : h.IsTable i t) (key : Spelling) :
    Ends (fetchOrCreate i key) h (fun _ => (HashOp.fetchOrCreate key).Leaves h i t)
      ((HashOp.fetchOrCreate key).Leaves h i t) := by
  have same : (HashOp.fetchOrCreate key).Leaves h i t h :=
    HashOp.leaves_same is fun replaces => nomatch replaces.2
  refine ends_onTable is (fun _ => ?_) fun _ => same
  cases found : t.fetch? key with
  | some v => exact same
  | none =>
    refine Ends.read (Ends.outcome ?_ same)
    rintro ⟨old, u, r⟩ stored
    have housed := (k.tidy is).housed
    refine ⟨u, (is.withTable u r).allocate {}, HashOp.makes_changed rfl ?_ fun _ => ?_⟩
    · exact housed.honours_store (admitted_ok stored)
    intro key' v there must
    refine (housed.shields_store (admitted_ok stored) key' v there must).imp_right ?_
    rintro ⟨x, hx, letters, -⟩
    cases hx
    cases found.symm.trans ((t.fetch?_congr letters).trans there)

theorem Kept.ends_delete (k : Kept h₀ out h) (is : h.IsTable i t) (key : Spelling) :
    Ends (delete i key) h (fun _ => (HashOp.delete key).Leaves h i t)
      ((HashOp.delete key).Leaves h i t) := by
  refine ends_onTable is (fun _ => Ends.read (Ends.outcome ?_ ?_)) fun locked => ?_
  · rintro ⟨old, u, r⟩ deleted
    have housed := (k.tidy is).housed
    refine ⟨u, is.withTable u r, HashOp.makes_changed rfl ?_ fun restricted => ?_⟩
    · exact housed.honours_delete (admitted_ok deleted)
    · exact housed.shields_delete restricted (admitted_ok deleted)
  · exact HashOp.leaves_same is fun replaces => nomatch replaces.2
  · exact HashOp.leaves_locked is locked

theorem Kept.ends_reserve (k : Kept h₀ out h) (is : h.IsTable i t) (expected : Nat) :
    Ends (reserve i expected) h (fun _ => (HashOp.reserve expected).Leaves h i t)
      ((HashOp.reserve expected).Leaves h i t) := by
  refine ends_onTable is (fun _ => Ends.outcome (fun u reserved => Ends.read ?_) ?_)
    fun locked => ?_
  · refine ⟨u, is.withTable u h.ring, HashOp.makes_changed rfl ?_ fun _ => ?_⟩
    · exact (k.tidy is).housed.honours_reserve (admitted_ok reserved)
    · exact (k.tidy is).housed.shields_reserve (admitted_ok reserved)
  · exact HashOp.leaves_same is fun replaces => nomatch replaces.2
  · exact HashOp.leaves_locked is locked

/-- Clearing changes a restricted table, and makes a new one of any other. -/
theorem Kept.ends_clearTable (k : Kept h₀ out h) (hi : i ∈ out) (is : h.IsTable i t) :
    Ends (clearTable i) h (fun _ => HashOp.clear.Leaves h i t) (HashOp.clear.Leaves h i t) := by
  refine ends_onTable is (fun writable => Ends.read ?_) (HashOp.leaves_locked is)
  cases restricted : t.restricted with
  | true =>
    have kept : HashOp.clear.remakes t = false := by rw [HashOp.remakes, restricted, Bool.not_true]
    refine Ends.outcome ?_ (HashOp.leaves_same is fun replaces => ?_)
    · rintro ⟨gone, u, r⟩ cleared
      obtain ⟨tidy, turns, traded⟩ := (k.tidy is).clear restricted (admitted_ok cleared)
      have put := Kept.putTable [] [] gone k is turns tidy nofun traded
      refine ⟨u, put.isTable_letGo hi (is.withTable u r), HashOp.makes_changed kept ?_ fun _ => ?_⟩
      · exact (k.tidy is).housed.honours_clear (admitted_ok cleared)
      · exact (k.tidy is).housed.shields_clear restricted (admitted_ok cleared)
    · exact nomatch replaces.2.symm.trans kept
  | false =>
    have remakes : HashOp.clear.remakes t = true := by
      rw [HashOp.remakes, restricted, Bool.not_false]
    have emptied := is.withTable t.emptied h.ring
    exact ⟨t.emptied, (k.remade is).isTable_letGo hi (emptied.of_cells rfl),
      HashOp.makes_new remakes writable⟩

theorem Kept.ends_setUndef_table (k : Kept h₀ out h) (hi : i ∈ out) (is : h.IsTable i t) :
    Ends (setUndef i) h (fun _ => HashOp.undefine.Leaves h i t) (HashOp.undefine.Leaves h i t) := by
  have emptied {g : Heap} (q : (h.cell i).checkWritable = .ok () ∧ g.IsTable i t.emptied) :
      HashOp.undefine.Leaves h i t g := ⟨t.emptied, q.2, HashOp.makes_new rfl q.1⟩
  refine (k.ends_setUndef hi is).imp (fun _ _ => emptied) ?_
  rintro g (q | ⟨locked, rfl⟩)
  · exact emptied q
  · exact HashOp.leaves_locked is locked

/-- **One operation** on a hash.  The host loses no handle by it. -/
theorem Kept.ends_hash (k : Kept h₀ held h) (hi : i ∈ held) (is : h.IsTable i t) (op : HashOp) :
    Ends ((op.on i).act held) h (fun held' g => held ⊆ held' ∧ op.Leaves h i t g)
      (op.Leaves h i t) := by
  have same := List.Subset.refl held
  cases op with
  | store key v =>
    exact (k.ends_store is key v).bind fun _ _ q => ⟨List.subset_append_right _ _, q⟩
  | fetchOrCreate key =>
    refine (k.ends_fetchOrCreate is key).bind fun v g q => ?_
    obtain ⟨u, is', makes⟩ := q
    exact ⟨List.subset_append_right _ _, u, is'.retainAll _, makes⟩
  | delete key => exact (k.ends_delete is key).bind fun _ _ q => ⟨List.subset_append_right _ _, q⟩
  | clear => exact (k.ends_clearTable hi is).discard.bind fun _ _ q => ⟨same, q⟩
  | reserve expected => exact (k.ends_reserve is expected).discard.bind fun _ _ q => ⟨same, q⟩
  | undefine => exact (k.ends_setUndef_table hi is).discard.bind fun _ _ q => ⟨same, q⟩

/-- An operation on a hash, by a host that has a handle on it. -/
theorem Kept.step_hash {s : Host} (k : Kept h₀ s.held s.heap) (hi : i ∈ s.held)
    (is : s.heap.IsTable i t) (op : HashOp) :
    s.held ⊆ (s.step (op.on i)).held ∧ op.Leaves s.heap i t (s.step (op.on i)).heap := by
  unfold Host.step
  split
  · have ends := k.ends_hash hi is op
    unfold Ends at ends
    split <;> rename_i e <;> rw [e] at ends
    · exact ends
    · exact ⟨.refl _, ends⟩
  · rename_i unnamed
    refine ⟨.refl _, HashOp.leaves_same is fun replaces => unnamed ?_⟩
    cases op with
    | clear => exact fun j hj => List.mem_singleton.mp hj ▸ hi
    | undefine => exact fun j hj => List.mem_singleton.mp hj ▸ hi
    | _ => exact nomatch replaces.2

/-! ### Runs -/

theorem IsTable.tableOf_eq (is : h.IsTable i t) : h.tableOf i = t := by
  obtain ⟨c, hc, hash⟩ := is
  unfold tableOf
  rw [cell_eq hc, hash]

/-- A cell of the shape of hashes has a table. -/
theorem Kept.isTable_of_shape (k : Kept h₀ out h) (hi : i ∈ out)
    (shape : (h.cell i).shape = .hash) : h.IsTable i (h.tableOf i) := by
  obtain ⟨c, hc⟩ := k.alive hi
  have payload := (k.valid hc).payload
  rw [cell_eq hc] at shape
  rw [shape] at payload
  refine ⟨c, hc, ?_⟩
  unfold tableOf
  rw [cell_eq hc]
  cases hash : c.payload with
  | hash t => rfl
  | _ => exact absurd (hash ▸ payload) nofun

theorem Host.upTo_succ (s : Host) (i : CellId) (ops : List HashOp) (n : Nat) :
    s.upTo i ops (n + 1) = (ops[n]?).elim (s.upTo i ops n) fun op =>
      (s.upTo i ops n).step (op.on i) := by
  unfold Host.upTo Host.run
  rw [List.take_add_one, List.map_append, List.foldl_append]
  cases ops[n]? <;> rfl

/-- A run of operations on a hash, up to any time. -/
theorem Kept.upTo {s : Host} (k : Kept h₀ s.held s.heap) (hi : i ∈ s.held)
    (is : s.heap.IsTable i (s.heap.tableOf i)) (ops : List HashOp) (n : Nat) :
    Kept h₀ (s.upTo i ops n).held (s.upTo i ops n).heap ∧ i ∈ (s.upTo i ops n).held ∧
      (s.upTo i ops n).heap.IsTable i (s.tableUpTo i ops n) := by
  induction n with
  | zero => exact ⟨k, hi, is⟩
  | succ n ih =>
    obtain ⟨kept, here, table⟩ := ih
    unfold Host.tableUpTo
    rw [Host.upTo_succ]
    cases ops[n]? with
    | none => exact ⟨kept, here, table⟩
    | some op =>
      obtain ⟨more, u, table', -⟩ := kept.step_hash here table op
      refine ⟨kept.step _, more here, ?_⟩
      rwa [Option.elim_some, table'.tableOf_eq]

/-- One operation of the run. -/
theorem Kept.makes_upTo {s : Host} (k : Kept h₀ s.held s.heap) (hi : i ∈ s.held)
    (is : s.heap.IsTable i (s.heap.tableOf i)) {ops : List HashOp} {n : Nat}
    (hop : ops[n]? = some op) :
    op.Makes (s.upTo i ops n).heap i (s.tableUpTo i ops n) (s.tableUpTo i ops (n + 1)) := by
  obtain ⟨kept, here, table⟩ := k.upTo hi is ops n
  obtain ⟨-, u, table', makes⟩ := kept.step_hash here table op
  unfold Host.tableUpTo
  rw [Host.upTo_succ, hop, Option.elim_some, table'.tableOf_eq]
  exact makes

/-- **Promises are honoured** from any time to any later one. -/
theorem Kept.honours_upTo {s : Host} (k : Kept h₀ s.held s.heap) (hi : i ∈ s.held)
    (is : s.heap.IsTable i (s.heap.tableOf i)) {ops : List HashOp} {m n : Nat} (le : m ≤ n)
    (keeps : s.KeepsTable i ops m n) : (s.tableUpTo i ops m).Honours (s.tableUpTo i ops n) := by
  induction n, le using Nat.le_induction with
  | base => exact .refl _
  | succ n le ih =>
    refine (ih fun l op lo hi => keeps l op lo (Nat.lt_succ_of_lt hi)).trans ?_
    cases hop : ops[n]? with
    | some op => exact (k.makes_upTo hi is hop).honours (keeps n op le (Nat.lt_succ_self n) hop)
    | none =>
      unfold Host.tableUpTo
      rw [Host.upTo_succ, hop, Option.elim_none]
      exact .refl _

/-- **The promises of a hash**, whatever a host did before.  They are honoured by all that is done
to the hash until its table is replaced; then the table is empty, and a promise no more than the
seed and the pool of the old one. -/
theorem run_promises (seeds : Array Seed) (supply : Supply) (deeds : List Deed) (i : CellId)
    (ops : List HashOp) (held : i ∈ ((Host.start seeds supply).deeds deeds).held)
    (hash : (((Host.start seeds supply).deeds deeds).heap.cell i).shape = .hash) :
    ((Host.start seeds supply).deeds deeds).Promised i ops := by
  have k := (kept_start seeds supply).deeds deeds
  have is := k.isTable_of_shape held hash
  refine ⟨fun n => (k.upTo held is ops n).2.2, fun n op => k.makes_upTo held is, ?_, ?_⟩
  · intro m n le keeps restricted
    obtain ⟨before, -, table⟩ := k.upTo held is ops m
    obtain ⟨later, -, table'⟩ := k.upTo held is ops n
    have same := (k.honours_upTo held is le keeps).keys restricted
    exact ⟨same.restricted.trans restricted, same.sameSet (before.tidy table).housed.sound.toLinked
      (later.tidy table').housed.sound.toLinked⟩
  · intro m n le keeps pinned
    have honours := k.honours_upTo held is le keeps
    exact ⟨honours.pinned.trans pinned, honours.seed pinned⟩

/-- A host that puts a read-only value in a hash, then fixes its keys and pins its seed. -/
def guarding : List Deed :=
  [.op (.make (.text "v")), .op (.setReadOnly 0 true), .op (.hash (.own ⟨7⟩)),
    .op (.store 1 (.ofText "k") 0), .op (.setRestricted 1 true), .tend 1 .pin]

/-- What is refused, what is done and what replaces the table. -/
theorem run_promises_guarding :
    1 ∈ ((Host.start #[] {}).deeds guarding).held ∧
      (((Host.start #[] {}).deeds guarding).heap.cell 1).shape = .hash ∧
      ((Host.start #[] {}).deeds guarding).Promised 1
        [.delete (.ofText "k"), .clear, .store (.ofText "k") 1, .undefine, .reserve 40] := by
  have held : 1 ∈ ((Host.start #[] {}).deeds guarding).held := by decide +kernel
  have hash : (((Host.start #[] {}).deeds guarding).heap.cell 1).shape = .hash := by decide +kernel
  exact ⟨held, hash, run_promises #[] {} guarding 1 _ held hash⟩

/-- **Undefining breaks the promises.**  The set of keys is fixed, the value under its only key is
read-only and the seed pinned; then neither is, and the key is unknown.  The pin is also lost when a
table is cleared whose restriction was lifted. -/
theorem undefine_breaks_promises :
    let s := (Host.start #[] {}).deeds guarding
    let t := s.heap.tableOf 1
    let u := (s.step (.setUndef 1)).heap.tableOf 1
    let w := (s.run [.setRestricted 1 false, .clearTable 1]).heap.tableOf 1
    (t.restricted = true ∧ t.pinned = true ∧ t.fetch? (.ofText "k") = some 0 ∧
      s.heap.isReadOnly 0 = true) ∧
      (u.restricted = false ∧ u.pinned = false ∧ u.presence (.ofText "k") = .absent) ∧
      ¬ t.SameSet u ∧ w.pinned = false := by
  intro s t u w
  have before : t.presence (.ofText "k") = .live := by decide +kernel
  have after : u.presence (.ofText "k") = .absent := by decide +kernel
  refine ⟨by decide +kernel, by decide +kernel, fun same => ?_, by decide +kernel⟩
  cases before.symm.trans ((same.presence _).mp after)

end

end ScriptCore.Heap
