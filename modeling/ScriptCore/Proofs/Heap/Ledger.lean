import ScriptCore.Proofs.Cell.Valid
import ScriptCore.Proofs.Heap.Host
import ScriptCore.Proofs.Table.Sharing

/-!
# Heap — the ledger of keys

Keys of a pool are in the arenas of the hashes that are alive and with others, which is all that
a `Ledger` knows of them: each key has as many users as there are of it in the one and with the
other.  It says nothing of handles, so it holds of a heap whatever a host does with cells.  What
others have, and which hashes may share a pool, is given by an `Account`.

* `Ledger.setCell`, `Ledger.allot`: a change that leaves tables alone leaves the ledger alone.
* `Ledger.deal`, `Ledger.letGo`: what a table loses goes back to its pool at once.
* `Ledger.undefined`: or it stays for a while with the one who took it.
-/

namespace ScriptCore

/-! ### What tables pass on -/

namespace Table
variable {α : Type}

/-- What an operation on a table passes on: it has dealt with its pool, and keeps keys in no
other. -/
structure Passes (t : Table α) (r : Keyring) (u : Table α) (r' : Keyring) : Prop where
  deals : t.DealsWith r u r'
  housed : u.Housed r'
  pool : ∀ p, u.pool = some p → t.pool = some p

section
variable {t u : Table α} {r r' : Keyring}

theorem Passes.of_same (pool : u.pool = t.pool) (keys : u.heldKeys = t.heldKeys)
    (housed : u.Housed r) : t.Passes r u r :=
  ⟨⟨[], [], r, .of_same pool keys r⟩, housed, fun p => by rw [pool]; exact id⟩

/-- A table that grows may give up its pool, and takes no other. -/
theorem pool_split (t : Table α) (supply : Supply) {p : Nat}
    (hp : (t.split supply).1.pool = some p) : t.pool = some p := by
  have cleared : (if 0 < t.placeholders ∧ t.restricted = false then
      t.dropPlaceholders else (t, [])).1.pool = t.pool := by
    split
    · exact (trades_dropPlaceholders t).2
    · rfl
  unfold split at hp
  generalize (if 0 < t.placeholders ∧ t.restricted = false then
    t.dropPlaceholders else (t, [])) = w at cleared hp
  dsimp only at hp
  by_cases long : w.1.doubled.mayReseed ∧ longestTolerated < w.1.doubled.longestChain
  · rw [if_pos long] at hp
    cases hp
  · rw [if_neg long] at hp
    exact cleared.symm.trans hp

theorem pool_add (t : Table α) (key : Key) (v : α) (supply : Supply) {p : Nat}
    (hp : (t.add key v supply).2.1.pool = some p) : t.pool = some p := by
  have linked : (t.link ⟨key, some v⟩).2.pool = t.pool := by
    show (t.allocate ⟨key, some v⟩).2.pool = t.pool
    unfold allocate
    split <;> rfl
  unfold add at hp
  dsimp only at hp
  split at hp
  · exact linked.symm.trans (pool_split _ supply hp)
  · exact linked.symm.trans hp

/-- An operation takes no other pool. -/
theorem Op.Does.pool {op : Op α} (does : op.Does t r u r') {p : Nat} (hp : u.pool = some p) :
    t.pool = some p := by
  cases does with
  | nothing | value | empty | restrict | unrestrict | pinSeed | rebucket | intern | release =>
    exact hp
  | insert => exact pool_add t _ _ _ hp
  | remove => exact (pool_remove t _).symm.trans hp
  | blank => exact (heldKeys_blanked t t.chained).1.symm.trans hp
  | clearPlaceholders => exact (trades_dropPlaceholders t).2.symm.trans hp
  | rewind => exact (trades_settle t).2.symm.trans hp
  | step => exact (trades_step t _).2.symm.trans hp

theorem Op.Does.passes {op : Op α} (does : op.Does t r u r') (h : t.Housed r) (own : op.IsOwn)
    (housed : u.Housed r') : t.Passes r u r' := ⟨does.dealsWith h own, housed, fun _ => does.pool⟩

theorem Housed.passes_store (h : t.Housed r) {s : Spelling} {v : α} {old : Option α}
    (e : t.store r s v = .ok (old, u, r')) : t.Passes r u r' := by
  obtain ⟨m, shows⟩ := h.sound.toLinked.exists_shows
  have stored := h.store shows s v
  rw [e] at stored
  exact ((does_store t r (.store s v) (.inl rfl)).of_ok e).passes h trivial stored.1

/-- A table that has no reason to give a key up: its seed stays, and no key is without a value. -/
structure Plain (t : Table α) : Prop where
  pinned : t.mayReseed = false
  marked : t.placeholders = 0
  free : t.restricted = false

theorem Plain.split_eq (h : t.Plain) (supply : Supply) :
    t.split supply = (t.doubled, [], supply) := by
  have still : ¬ (0 < t.placeholders ∧ t.restricted = false) := by
    rw [h.marked]
    exact fun some => Nat.lt_irrefl 0 some.1
  have never : ¬ (t.doubled.mayReseed ∧ longestTolerated < t.doubled.longestChain) :=
    fun may => Bool.false_ne_true (h.pinned.symm.trans may.1)
  unfold split
  rw [if_neg still]
  dsimp only
  rw [if_neg never]

theorem Plain.add (h : t.Plain) (key : Key) (v : α) (supply : Supply) :
    (t.add key v supply).2.1.Plain ∧ (t.add key v supply).2.1.pool = t.pool ∧
      (t.add key v supply).2.2.1 = [] := by
  have linked : (t.link ⟨key, some v⟩).2.Plain ∧ (t.link ⟨key, some v⟩).2.pool = t.pool := by
    obtain ⟨pinned, marked, free⟩ := h
    unfold link allocate
    dsimp only
    split <;> exact ⟨⟨pinned, marked, free⟩, rfl⟩
  unfold Table.add
  dsimp only
  generalize (t.link ⟨key, some v⟩).2 = u at linked
  obtain ⟨plain, pool⟩ := linked
  split
  · rw [plain.split_eq]
    exact ⟨⟨plain.pinned, plain.marked, plain.free⟩, pool, rfl⟩
  · exact ⟨plain, pool, rfl⟩

/-- A plain table admits a new key, and has its pool deal out that key alone. -/
theorem Plain.store (h : t.Plain) (sound : t.Sound) {s : Spelling} (new : t.fetch? s = none)
    (r : Keyring) (v : α) :
    ∃ u supply, t.store r s v = .ok (none, u, { (r.keyFor t.pool s t.seed).2 with supply }) ∧
      u.Plain ∧ u.pool = t.pool := by
  have absent : t.locate s = none := by
    rcases sound.locate_cases s with ⟨absent, -⟩ | ⟨i, o, found, hi, c⟩
    · exact absent
    · -- a key without a value would be marked
      have value : o = none := by
        rw [fetch?, found, Option.bind_some, valueAt_eq, c] at new
        simpa using new
      have mark : t.isPlaceholder i = true := by
        rw [isPlaceholder_eq, c, value]
        rfl
      have some := List.countP_pos_iff.mpr ⟨i, hi, mark⟩
      rw [← sound.marked, h.marked] at some
      cases some
  unfold Table.store insertNew
  rw [absent]
  dsimp only
  rw [h.free, if_neg Bool.false_ne_true]
  generalize r.keyFor t.pool s t.seed = k
  obtain ⟨key, r'⟩ := k
  obtain ⟨plain, pool, gone⟩ := h.add key v r'.supply
  refine ⟨(t.add key v r'.supply).2.1, (t.add key v r'.supply).2.2.2, ?_, plain, pool⟩
  dsimp only
  rw [gone]
  cases t.pool <;> rfl

/-- What is stored under a new key is one value more. -/
theorem Tidy.perm_store {t u : Table CellId} (h : t.Tidy r) {s : Spelling} {v : CellId}
    (new : t.fetch? s = none) {old : Option CellId} (e : t.store r s v = .ok (old, u, r')) :
    u.values.Perm (v :: t.values) := by
  obtain rfl : old = none := (h.store_old e).trans new
  obtain ⟨-, -, counts⟩ := h.store e
  refine List.perm_iff_count.mpr fun i => ?_
  have count := counts i
  rw [Option.toList_none, List.count_nil] at count
  rw [← List.singleton_append, List.count_append]
  omega

theorem Housed.passes_delete (h : t.Housed r) {readOnly : α → Bool} {s : Spelling}
    {old : Option α} (e : t.delete r readOnly s = .ok (old, u, r')) : t.Passes r u r' := by
  obtain ⟨m, shows⟩ := h.sound.toLinked.exists_shows
  have deleted := h.delete shows readOnly s
  rw [e] at deleted
  exact ((does_delete t r s readOnly false).of_ok e).passes h trivial deleted.1

theorem Housed.passes_clear (h : t.Housed r) {readOnly : α → Bool} {gone : List α}
    (e : t.clear r readOnly = .ok (gone, u, r')) : t.Passes r u r' :=
  ((does_clear t r readOnly).of_ok e).passes h trivial (h.clear e).1

theorem Housed.passes_reserve (h : t.Housed r) {n : Nat} (e : t.reserve n = .ok u) :
    t.Passes r u r := by
  obtain ⟨sound, -, seed, pool, -⟩ := h.sound.reserve e
  exact (does_reserve r e).passes h trivial (h.of_sound sound (.refl h.ring) seed pool)

end

end Table

/-! ### Keys on a heap -/

namespace Heap
open Key

/-- The keys of a pool that are at a place of the heap. -/
def keysAt (p : Nat) (c : Option Cell) : List Key :=
  (c.bind (·.payload.table?)).elim [] (·.keysIn p)

/-- The keys of a pool in the arenas of all hashes. -/
def keysIn (h : Heap) (p : Nat) : List Key := h.cells.toList.flatMap (keysAt p)

/-- What a ledger is kept on: the pools that there are, which places may hold a hash with keys of
which pool, and how many of each key others have. -/
structure Account where
  since : Keyring
  shares : CellId → Nat → Prop
  own : Nat → Bytes × Bool → Nat

/-- The table may be in a place. -/
structure Account.Seats (a : Account) (i : CellId) (r : Keyring) (t : Table CellId) : Prop where
  housed : t.Housed r
  shares : ∀ p, t.pool = some p → a.shares i p

/-- The keys of all pools are accounted for. -/
structure Ledger (a : Account) (h : Heap) : Prop where
  exact : h.ring.Exact
  turns : a.since.Turns h.ring
  pools : h.ring.pools.size = a.since.pools.size
  places : ∀ i p, a.shares i p → i < h.cells.size
  hashes : ∀ i c t, h.cell? i = some c → c.payload.table? = some t →
    c.shape = .hash ∧ a.Seats i h.ring t
  users : ∀ p < a.since.pools.size, ∀ y : Spelling,
    (h.ring.pool p).users y = tally y.letters (h.keysIn p) + a.own p y.letters

/-- A cell that has the table it had, if it had one, and is a hash if it was. -/
structure SameTable (c d : Cell) : Prop where
  table : d.payload.table? = c.payload.table?
  shape : c.shape = .hash → d.shape = .hash

section
variable {a : Account} {own : Nat → Bytes × Bool → Nat} {p : Nat} {h h' : Heap} {i j : CellId}
  {c d : Cell} {t u : Table CellId} {r r' : Keyring} {is : List CellId}

theorem Account.Seats.turn (s : a.Seats i r t) (turns : r.Turns r') : a.Seats i r' t :=
  ⟨s.housed.of_sound s.housed.sound turns rfl rfl, s.shares⟩

/-- A new table with keys of its own may be in any place. -/
theorem Account.seats_own (sound : r.Sound) (seed : Seed) : a.Seats i r { seed } :=
  ⟨(Table.tidy_empty sound fun _ hp => by cases hp).housed, fun _ hp => by cases hp⟩

/-! ### Tables that stay -/

theorem SameTable.of_payload (payload : d.payload = c.payload) (shape : d.shape = c.shape) :
    SameTable c d := ⟨by rw [payload], fun hash => shape.trans hash⟩

/-- A change of something else. -/
theorem Ledger.of_cells (l : Ledger a h) (cells : h'.cells = h.cells) (ring : h'.ring = h.ring) :
    Ledger a h' where
  exact := ring ▸ l.exact
  turns := ring ▸ l.turns
  pools := ring ▸ l.pools
  places := cells ▸ l.places
  hashes i c t hc := by
    rw [ring]
    exact l.hashes i c t ((cell?_of_cells cells i).symm.trans hc)
  users p hp y := by
    rw [ring, keysIn, cells]
    exact l.users p hp y

/-- What is at a place is replaced. -/
theorem tally_keysIn_set (hc : h.cell? i = some c) (o : Option Cell) (p : Nat)
    (x : Bytes × Bool) :
    tally x ((h.cells.setIfInBounds i o).toList.flatMap (keysAt p)) +
        tally x (keysAt p (some c)) =
      tally x (h.keysIn p) + tally x (keysAt p o) := by
  have perm := Table.perm_flatMap_set (keysAt p) o (getElem?_of_cell? hc)
  have counted : tally x (_ ++ _) = tally x (_ ++ _) := perm.countP_eq _
  rw [tally_append, tally_append] at counted
  rw [Array.toList_setIfInBounds]
  exact counted.symm

theorem cell?_set (hc : h.cell? i = some c) (o : Option Cell) (r : Keyring) (j : CellId) :
    Heap.cell? { h with cells := h.cells.setIfInBounds i o, ring := r } j =
      if i = j then o else h.cell? j := by
  unfold Heap.cell?
  dsimp only
  rw [Array.getElem?_setIfInBounds]
  by_cases hj : i = j
  · subst hj
    rw [if_pos rfl, if_pos rfl, if_pos (lt_size hc)]
    rfl
  · rw [if_neg hj, if_neg hj]

/-- **One place** is replaced, and the keyring with it. -/
theorem Ledger.set (l : Ledger a h) (hc : h.cell? i = some c) (o : Option Cell)
    (exact : r.Exact) (size : r.pools.size = h.ring.pools.size) (turns : h.ring.Turns r)
    (hash : ∀ d t, o = some d → d.payload.table? = some t → d.shape = .hash ∧ a.Seats i r t)
    (users : ∀ p < a.since.pools.size, ∀ y : Spelling,
      (r.pool p).users y + tally y.letters (keysAt p (some c)) + a.own p y.letters =
        (h.ring.pool p).users y + tally y.letters (keysAt p o) + own p y.letters) :
    Ledger { a with own } { h with cells := h.cells.setIfInBounds i o, ring := r } where
  exact := exact
  turns := l.turns.trans turns
  pools := size.trans l.pools
  places j p shares := by
    show j < (h.cells.setIfInBounds i o).size
    rw [Array.size_setIfInBounds]
    exact l.places j p shares
  hashes j d t hd ht := by
    rw [cell?_set hc] at hd
    split at hd
    · rename_i here
      subst here
      obtain ⟨shape, seats⟩ := hash d t hd ht
      exact ⟨shape, seats.housed, seats.shares⟩
    · obtain ⟨shape, seats⟩ := l.hashes j d t hd ht
      exact ⟨shape, (seats.turn turns).housed, seats.shares⟩
  users p hp y := by
    have before := l.users p hp y
    have change := users p hp y
    have sum := tally_keysIn_set hc o p y.letters
    show (r.pool p).users y =
      tally y.letters ((h.cells.setIfInBounds i o).toList.flatMap (keysAt p)) + own p y.letters
    omega

/-- **The keyring alone** changes, by what others do. -/
theorem Ledger.turn (l : Ledger a h) (exact : r.Exact)
    (size : r.pools.size = h.ring.pools.size) (turns : h.ring.Turns r)
    (users : ∀ p < a.since.pools.size, ∀ y : Spelling,
      (r.pool p).users y + a.own p y.letters = (h.ring.pool p).users y + own p y.letters) :
    Ledger { a with own } { h with ring := r } where
  exact := exact
  turns := l.turns.trans turns
  pools := size.trans l.pools
  places := l.places
  hashes j d t hd ht := by
    obtain ⟨shape, seats⟩ := l.hashes j d t hd ht
    exact ⟨shape, (seats.turn turns).housed, seats.shares⟩
  users p hp y := by
    have before := l.users p hp y
    have change := users p hp y
    show (r.pool p).users y = tally y.letters (h.keysIn p) + own p y.letters
    omega

theorem keysAt_of_same (same : SameTable c d) (p : Nat) :
    keysAt p (some d) = keysAt p (some c) := by
  unfold keysAt
  rw [Option.bind_some, Option.bind_some, same.table]

theorem setCell_eq (hc : h.cell? i = some c) (d : Cell) :
    h.setCell i d = { h with cells := h.cells.setIfInBounds i (some d) } := by
  unfold setCell
  rw [isAlive, hc, Option.isSome_some, if_pos rfl]

/-- **A cell** changes that keeps its table. -/
theorem Ledger.setCell (l : Ledger a h) (i : CellId)
    (same : ∀ c, h.cell? i = some c → SameTable c d) : Ledger a (h.setCell i d) := by
  cases hc : h.cell? i with
  | none => rwa [setCell_gone hc]
  | some c =>
    have same := same c hc
    rw [setCell_eq hc]
    refine l.set (r := h.ring) hc (some d) l.exact rfl (.refl l.exact.sound) ?_ fun p _ y => ?_
    · intro e t he ht
      cases he
      obtain ⟨shape, seats⟩ := l.hashes i c t hc (same.table ▸ ht)
      exact ⟨same.shape shape, seats⟩
    · rw [keysAt_of_same same]

theorem Ledger.updateCell (l : Ledger a h) (i : CellId) {f : Cell → Cell}
    (same : ∀ c, SameTable c (f c)) : Ledger a (h.updateCell i f) :=
  l.setCell i fun c hc => by
    rw [cell_eq hc]
    exact same c

theorem Ledger.retainAll (l : Ledger a h) (is : List CellId) : Ledger a (h.retainAll is) := by
  unfold Heap.retainAll
  induction is generalizing h with
  | nil => exact l
  | cons i is ih => exact ih (l.updateCell i fun c => .of_payload rfl rfl)

/-- Another account of the same.  A place where no cell is alive is in nobody's way. -/
theorem Ledger.rebook (l : Ledger a h) {b : Account} (since : b.since = a.since)
    (shares : ∀ i p, a.shares i p → h.isAlive i → b.shares i p)
    (places : ∀ i p, b.shares i p → i < h.cells.size)
    (own : ∀ p < a.since.pools.size, ∀ x, b.own p x = a.own p x) : Ledger b h where
  exact := l.exact
  turns := since ▸ l.turns
  pools := since ▸ l.pools
  places := places
  hashes i c t hc ht := by
    obtain ⟨shape, seats⟩ := l.hashes i c t hc ht
    have alive : h.isAlive i := by rw [isAlive, hc]; rfl
    exact ⟨shape, seats.housed, fun p hp => shares i p (seats.shares p hp) alive⟩
  users p hp y := by
    rw [since] at hp
    rw [own p hp]
    exact l.users p hp y

/-- The account from now on. -/
theorem Ledger.rebase (l : Ledger a h) : Ledger { a with since := h.ring } h where
  exact := l.exact
  turns := .refl l.exact.sound
  pools := rfl
  places := l.places
  hashes i c t hc ht := by
    obtain ⟨shape, seats⟩ := l.hashes i c t hc ht
    exact ⟨shape, seats.housed, seats.shares⟩
  users p hp y := l.users p (l.pools ▸ hp) y

/-- **A new cell**, without a table or with one that has no keys and shares a pool from now on. -/
theorem Ledger.allot (l : Ledger a h) (c : Cell) (shares : CellId → Nat → Prop)
    (more : ∀ i p, a.shares i p → shares i p) (bound : ∀ i p, shares i p → i ≤ h.cells.size)
    (hash : ∀ t, c.payload.table? = some t → c.shape = .hash ∧
      { a with shares }.Seats h.cells.size h.ring t ∧ t.heldKeys = []) :
    Ledger { a with shares } (h.allocate c).2 where
  exact := l.exact
  turns := l.turns
  pools := l.pools
  places j p there := by
    show j < (h.cells.push _).size
    rw [Array.size_push]
    exact Nat.lt_succ_of_le (bound j p there)
  hashes i d t hd ht := by
    rw [cell?_allocate] at hd
    split at hd
    · rename_i here
      cases hd
      obtain ⟨shape, seats, -⟩ := hash t ht
      exact ⟨shape, here ▸ seats⟩
    · obtain ⟨shape, seats⟩ := l.hashes i d t hd ht
      exact ⟨shape, seats.housed, fun p hp => more i p (seats.shares p hp)⟩
  users p hp y := by
    have none : keysAt p (some { c with owners := 1 }) = [] := by
      unfold keysAt
      rw [Option.bind_some]
      cases ht : c.payload.table? with
      | none => rfl
      | some t =>
        show t.keysIn p = []
        rw [Table.keysIn, (hash t ht).2.2, ite_self]
    have same : (h.allocate c).2.keysIn p = h.keysIn p := by
      show (h.cells.push (some { c with owners := 1 })).toList.flatMap (keysAt p) = _
      rw [Array.toList_push, List.flatMap_append, List.flatMap_singleton, none, List.append_nil]
      rfl
    rw [same]
    exact l.users p hp y

theorem Ledger.allocate (l : Ledger a h) (c : Cell) (hash : ∀ t, c.payload.table? = some t →
      c.shape = .hash ∧ a.Seats h.cells.size h.ring t ∧ t.heldKeys = []) :
    Ledger a (h.allocate c).2 :=
  l.allot c a.shares (fun _ _ => id) (fun i p shares => Nat.le_of_lt (l.places i p shares)) hash

/-! ### Where keys are -/

theorem toList_cells (h : Heap) : h.cells.toList = (List.range h.cells.size).map h.cell? := by
  refine List.ext_getElem (by simp) fun i hi _ => ?_
  have lt : i < h.cells.size := by simpa using hi
  rw [List.getElem_map, List.getElem_range, Heap.cell?, Array.getElem?_eq_getElem lt]
  rfl

/-- Only hashes that share a pool have keys of it. -/
theorem Ledger.keysAt_eq_nil (l : Ledger a h) (none : ¬ a.shares i p) :
    keysAt p (h.cell? i) = [] := by
  cases hc : h.cell? i with
  | none => rfl
  | some c =>
    unfold keysAt
    rw [Option.bind_some]
    cases ht : c.payload.table? with
    | none => rfl
    | some t =>
      obtain ⟨-, seats⟩ := l.hashes i c t hc ht
      exact if_neg fun hp => none (seats.shares p hp)

/-- **All keys** of a pool are in the places that may share it. -/
theorem Ledger.perm_keysIn (l : Ledger a h) (nodup : is.Nodup) (lt : ∀ i ∈ is, i < h.cells.size)
    (all : ∀ i, a.shares i p → i ∈ is) :
    (h.keysIn p).Perm (is.flatMap fun i => keysAt p (h.cell? i)) := by
  have split : (List.range h.cells.size).Perm
      (is ++ (List.range h.cells.size).filter (· ∉ is)) := by
    refine (List.perm_ext_iff_of_nodup List.nodup_range ?_).mpr fun i => ?_
    · refine List.nodup_append'.mpr ⟨nodup, List.nodup_range.filter _, fun i hi there => ?_⟩
      exact of_decide_eq_true (List.mem_filter.mp there).2 hi
    · simp only [List.mem_append, List.mem_filter, List.mem_range, decide_eq_true_eq]
      constructor
      · intro hi
        by_cases there : i ∈ is
        · exact .inl there
        · exact .inr ⟨hi, there⟩
      · rintro (there | ⟨hi, -⟩)
        · exact lt i there
        · exact hi
  have empty : ((List.range h.cells.size).filter (· ∉ is)).flatMap
      (fun i => keysAt p (h.cell? i)) = [] := by
    refine List.flatMap_eq_nil_iff.mpr fun i hi => l.keysAt_eq_nil fun shares => ?_
    exact of_decide_eq_true (List.mem_filter.mp hi).2 (all i shares)
  have perm := split.flatMap_right fun i => keysAt p (h.cell? i)
  rw [List.flatMap_append, empty, List.append_nil] at perm
  rwa [keysIn, toList_cells, List.flatMap_map]

/-! ### Tables that change -/

theorem keysAt_table (ht : c.payload.table? = some t) (p : Nat) :
    keysAt p (some c) = t.keysIn p := by
  unfold keysAt
  rw [Option.bind_some, ht]
  rfl

/-- No hash has more keys of a pool than these have users. -/
theorem Ledger.owed (l : Ledger a h) (hc : h.cell? i = some c) (hp : p < a.since.pools.size)
    (y : Spelling) : tally y.letters (keysAt p (some c)) ≤ (h.ring.pool p).users y := by
  have without := tally_keysIn_set hc none p y.letters
  have users := l.users p hp y
  have : tally y.letters (keysAt p none) = 0 := rfl
  omega

/-- **A table** deals with its pool. -/
theorem Ledger.deal (l : Ledger a h) (hc : h.cell? i = some c)
    (ht : c.payload.table? = some t) (passes : t.Passes h.ring u r)
    (hd : d.payload.table? = some u) (shape : d.shape = c.shape) :
    Ledger a { h with cells := h.cells.setIfInBounds i (some d), ring := r } := by
  obtain ⟨⟨taken, gone, mid, deals⟩, housed, pool⟩ := passes
  obtain ⟨-, exact, size⟩ := deals.exact l.exact
  refine l.set hc (some d) exact size (deals.turns l.exact.sound) ?_ fun p hp y => ?_
  · intro e w he hw
    cases he
    cases hd.symm.trans hw
    obtain ⟨hash, seats⟩ := l.hashes i c t hc ht
    exact ⟨shape.trans hash, housed, fun p hp => seats.shares p (pool p hp)⟩
  · have owed := l.owed hc hp y
    rw [keysAt_table ht] at owed ⊢
    rw [keysAt_table hd]
    have users := deals.users l.exact (l.pools ▸ hp) y owed
    omega

/-- **A table beside the heap** deals with its pool. -/
theorem Ledger.dealBeside {t u : Table CellId}
    (l : Ledger { a with own := fun p x => own p x + tally x (t.keysIn p) } h)
    (passes : t.Passes h.ring u r) :
    Ledger { a with own := fun p x => own p x + tally x (u.keysIn p) } { h with ring := r } := by
  obtain ⟨⟨taken, gone, mid, deals⟩, -, -⟩ := passes
  obtain ⟨-, exact, size⟩ := deals.exact l.exact
  refine l.turn exact size (deals.turns l.exact.sound) fun p hp y => ?_
  have users := l.users p hp y
  have owed : tally y.letters (t.keysIn p) ≤ (h.ring.pool p).users y := by
    dsimp only at users
    omega
  have dealt := deals.users l.exact (l.pools ▸ hp) y owed
  dsimp only
  omega

/-- **Keys are taken out** of the heap and stay with who took them. -/
theorem Ledger.takeOut (l : Ledger a h) (hc : h.cell? i = some c) (o : Option Cell)
    (hash : ∀ d t, o = some d → d.payload.table? = some t →
      d.shape = .hash ∧ a.Seats i h.ring t)
    (keyless : ∀ p, keysAt p o = []) :
    Ledger { a with own := fun p x => a.own p x + tally x (keysAt p (some c)) }
      { h with cells := h.cells.setIfInBounds i o } := by
  refine l.set (r := h.ring) hc o l.exact rfl (.refl l.exact.sound) hash fun p hp y => ?_
  rw [keyless, tally_nil]
  omega

/-- **Keys are given back** to their pool. -/
theorem Ledger.giveBack {pool : Option Nat} {ks : List Key}
    (l : Ledger { a with own := fun p x => own p x + if pool = some p then tally x ks else 0 } h) :
    Ledger { a with own } { h with ring := h.ring.releaseAll pool ks } := by
  obtain ⟨exact, size⟩ := l.exact.releaseAll pool ks
  refine l.turn exact size (l.exact.sound.releaseAll pool ks) fun p hp y => ?_
  have users := l.exact.users_releaseAll (l.pools ▸ hp) pool ks y
  have owed := l.users p hp y
  dsimp only at owed ⊢
  omega

/-- **A key is interned** and stays with who asked for it. -/
theorem Ledger.intern {pool : Nat} {ks : List Key}
    (l : Ledger { a with own := fun q x => own q x +
      (if (some pool) = some q then tally x ks else 0) } h) (s : Spelling) :
    Ledger { a with own := fun q x => own q x +
        (if (some pool) = some q then tally x (ks ++ [(h.ring.intern pool s).1]) else 0) }
      { h with ring := (h.ring.intern pool s).2 } := by
  obtain ⟨letters, -, turns⟩ := l.exact.sound.intern pool s
  have exact := l.exact.intern pool s
  have size := Keyring.size_intern (r := h.ring) pool s
  have users (q : Nat) (hq : q < h.ring.pools.size) := l.exact.users_intern hq pool s
  generalize h.ring.intern pool s = result at *
  obtain ⟨key, ring⟩ := result
  refine l.turn exact size turns fun q hq y => ?_
  rw [users q (l.pools ▸ hq), tally_append, tally_cons, letters, tally_nil]
  by_cases here : pool = q
  · simp only [here, true_and, if_true]
    omega
  · have other : some pool ≠ some q := fun e => here (Option.some.inj e)
    simp only [here, other, false_and, if_false, Nat.add_zero]

/-- The keys of a payload are given back. -/
theorem Ledger.releaseKeys
    (l : Ledger { a with own := fun p x => own p x + tally x (keysAt p (some c)) } h) :
    Ledger { a with own } { h with ring := releaseKeys h.ring c.payload } := by
  cases hp : c.payload with
  | hash t =>
    have keys (p : Nat) (x : Bytes × Bool) : tally x (keysAt p (some c)) =
        if t.pool = some p then tally x t.heldKeys else 0 := by
      rw [keysAt_table (t := t) (by rw [hp]; rfl), Table.tally_keysIn]
    simp only [keys] at l
    exact l.giveBack
  | _ =>
    have keys (p : Nat) : keysAt p (some c) = [] := by
      unfold keysAt
      rw [Option.bind_some, hp]
      rfl
    simp only [keys, tally_nil, Nat.add_zero] at l
    exact l

/-- **A cell that goes** gives its keys back. -/
theorem Ledger.bury (l : Ledger a h) (hc : h.cell? i = some c) : Ledger a (h.bury i c) := by
  have out := (l.takeOut hc none (fun _ _ hd => by cases hd) fun _ => rfl).releaseKeys
  exact out.of_cells rfl rfl

/-- **Letting go** keeps the ledger. -/
theorem Ledger.letGo (l : Ledger a h) (is : List CellId) : Ledger a (h.letGo is) := by
  refine letGo_rule (P := fun _ h => Ledger a h) ?gone ?drop ?bury l
  case gone =>
    intro i rest h _ l
    exact l
  case drop =>
    intro i rest h c hc _ l
    refine l.setCell i fun d hd => ?_
    cases hc.symm.trans hd
    exact .of_payload rfl rfl
  case bury =>
    intro i rest h c hc _ l
    exact l.bury hc

/-- **A cell that is emptied** keeps no keys; they stay with who emptied it. -/
theorem Ledger.undefined (l : Ledger a h) (hc : h.cell? i = some c) :
    Ledger { a with own := fun p x => a.own p x + tally x (keysAt p (some c)) }
      (h.setCell i { c.clearValue with payload := emptied c.payload }) := by
  rw [setCell_eq hc]
  have tables : ∀ d : Cell, some { c.clearValue with payload := emptied c.payload } = some d →
      ∀ u, d.payload.table? = some u → ∃ t, c.payload.table? = some t ∧ u = t.emptied ∧
        d.shape = c.shape := by
    intro d hd u hu
    cases hd
    cases hp : c.payload with
    | hash t =>
      dsimp only at hu
      rw [hp] at hu
      exact ⟨t, rfl, (Option.some.inj hu).symm, rfl⟩
    | _ =>
      dsimp only at hu
      rw [hp] at hu
      cases hu
  refine l.takeOut hc _ (fun d u hd hu => ?_) fun p => ?_
  · obtain ⟨t, ht, rfl, shape⟩ := tables d hd u hu
    obtain ⟨hash, seats⟩ := l.hashes i c t hc ht
    have housed := seats.housed
    exact ⟨shape.trans hash, (Table.tidy_empty housed.ring housed.home).housed, seats.shares⟩
  · unfold keysAt
    rw [Option.bind_some]
    cases hu : (emptied c.payload).table? with
    | none => rfl
    | some u =>
      obtain ⟨t, -, rfl, -⟩ := tables _ rfl u hu
      exact ite_self _

end

end Heap

end ScriptCore
