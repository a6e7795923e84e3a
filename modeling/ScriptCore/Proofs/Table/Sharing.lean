import ScriptCore.Proofs.Table.Changes
import ScriptCore.Proofs.Table.Keys

/-!
# Table — tables that share keys

Several tables may keep their keys in one pool, beside users who intern keys for themselves.  A
`Commons` is a keyring with the tables there are, some of which have been dropped, and the keys
that are lent to others.

* `Deals`: an operation on a table interns the keys it brings to the arena, and gives back those
  that leave it.
* `Commons.accounted_run`: whatever is done, each key of a pool has as many users as there are
  entries with it in the arenas of the tables that share the pool, and keys lent.
-/

namespace ScriptCore

namespace Table
open Key
variable {α : Type}

/-- How an operation on a table deals with its pool: it interns the keys that it brings to the
arena, and then gives back those that have left it. -/
structure Deals (t : Table α) (r : Keyring) (taken : List Spelling) (gone : List Key)
    (mid : Keyring) (u : Table α) (r' : Keyring) : Prop where
  interned : ∃ supply, mid = { r.internAll t.pool taken with supply }
  released : r' = mid.releaseAll t.pool gone
  keys : ∃ ks, ks.map Key.letters = taken.map Spelling.letters ∧ t.Trades ks gone u

section
variable {t u : Table α} {r r' : Keyring} {gone : List Key} {m : Contents α}

theorem Deals.of_trades (h : t.Trades [] gone u) (r : Keyring) :
    Deals t r [] gone r u (r.releaseAll t.pool gone) where
  interned := ⟨r.supply, by unfold Keyring.internAll; cases t.pool <;> rfl⟩
  released := rfl
  keys := ⟨[], rfl, h⟩

theorem Deals.of_same (pool : u.pool = t.pool) (keys : u.heldKeys = t.heldKeys) (r : Keyring) :
    Deals t r [] [] r u r where
  interned := ⟨r.supply, by unfold Keyring.internAll; cases t.pool <;> rfl⟩
  released := by unfold Keyring.releaseAll; cases t.pool <;> rfl
  keys := ⟨[], rfl, .of_tally pool fun x => by rw [keys]⟩

theorem Housed.deals_insertNew (h : Housed t r) (s : Spelling) (v : α) :
    ∃ gone mid, Deals t r [s] gone mid (t.insertNew r s v).2.1 (t.insertNew r s v).2.2 := by
  obtain ⟨letters, -, -⟩ := h.ring.keyFor h.home s
  have interned : ∃ supply, (r.keyFor t.pool s t.seed).2 =
      { r.internAll t.pool [s] with supply } := by
    unfold Keyring.keyFor Keyring.internAll
    cases t.pool with
    | none => exact ⟨_, rfl⟩
    | some p => exact ⟨_, rfl⟩
  unfold Table.insertNew
  generalize r.keyFor t.pool s t.seed = k at letters interned
  obtain ⟨key, r₁⟩ := k
  obtain ⟨supply, rfl⟩ := interned
  dsimp only at letters ⊢
  have trades := h.sound.toLinked.trades_add key v supply
  generalize t.add key v supply = added at trades
  obtain ⟨i, u, gone, left⟩ := added
  exact ⟨gone, _, ⟨left, rfl⟩, rfl, [key], by simp [letters], trades⟩

/-- **Removing** an entry, whatever it does to the counts. -/
theorem trades_remove (t : Table α) (i : Nat) : t.Trades [] (t.remove i).2 (t.remove i).1 :=
  .of_tally (pool_remove t i) fun _ => tally_remove t i

theorem trades_step (t : Table α) (w : Bool) :
    t.Trades [] (t.step w).2.2 (t.step w).2.1 ∧ (t.step w).2.1.pool = t.pool := by
  have settled := trades_settle t
  unfold Table.step
  dsimp only
  split <;> exact settled

theorem heldKeys_blanked (t : Table α) (places : List Nat) :
    (places.foldl (fun t i => t.setValue i none) t).pool = t.pool ∧
      (places.foldl (fun t i => t.setValue i none) t).heldKeys = t.heldKeys := by
  induction places generalizing t with
  | nil => exact ⟨rfl, rfl⟩
  | cons i places ih =>
    obtain ⟨pool, keys⟩ := ih (t.setValue i none)
    exact ⟨pool, keys.trans (heldKeys_setValue t i none)⟩

/-- What is left by something that deals with the pool in some way. -/
def DealsWith (t : Table α) (r : Keyring) (u : Table α) (r' : Keyring) : Prop :=
  ∃ taken gone mid, Deals t r taken gone mid u r'

theorem DealsWith.of_same (pool : u.pool = t.pool) (keys : u.heldKeys = t.heldKeys) :
    t.DealsWith r u r := ⟨[], [], r, .of_same pool keys r⟩

theorem DealsWith.of_trades (h : t.Trades [] gone u) :
    t.DealsWith r u (r.releaseAll t.pool gone) := ⟨[], gone, r, .of_trades h r⟩

/-- An operation on a table, and not on the pools beside it. -/
def Op.IsOwn : Op α → Prop
  | intern _ _ => False
  | release _ _ => False
  | _ => True

/-- **What an operation does to the pool** of its table. -/
theorem Op.Does.dealsWith {op : Op α} (does : op.Does t r u r') (h : Housed t r)
    (own : op.IsOwn) : t.DealsWith r u r' := by
  cases does with
  | nothing => exact .of_same rfl rfl
  | value _ v n => exact .of_same rfl (heldKeys_setValue t _ v)
  | insert => exact ⟨[_], h.deals_insertNew _ _⟩
  | remove _ _ n => exact .of_trades (trades_remove t _)
  | blank _ n =>
    obtain ⟨pool, keys⟩ := heldKeys_blanked t t.chained
    exact .of_same pool keys
  | empty => exact .of_trades (.of_tally rfl fun x => Nat.zero_add _)
  | clearPlaceholders => exact .of_trades (trades_dropPlaceholders t).1
  | restrict | unrestrict | pinSeed | rebucket => exact .of_same rfl rfl
  | rewind => exact .of_trades (trades_settle t).1
  | step => exact .of_trades (trades_step t _).1
  | intern | release => cases own

theorem Housed.deals (h : Housed t r) {op : Op α} (own : op.IsOwn) :
    Leaves (t.DealsWith r) (op.perform t r) :=
  (op.does t r).imp fun _ _ does => does.dealsWith h own

/-! ### What deals do to users -/

variable {taken : List Spelling} {mid : Keyring} {p : Nat}

/-- What is known of the keyring in between holds of it with any supply. -/
theorem Deals.exact (d : Deals t r taken gone mid u r') (exact : r.Exact) :
    (mid.Exact ∧ mid.pools.size = r.pools.size) ∧
      r'.Exact ∧ r'.pools.size = r.pools.size := by
  obtain ⟨supply, rfl⟩ := d.interned
  obtain ⟨exact', size⟩ := exact.internAll t.pool taken
  have between : Keyring.Exact { r.internAll t.pool taken with supply } := exact'
  obtain ⟨exact'', size'⟩ := between.releaseAll t.pool gone
  rw [d.released]
  exact ⟨⟨exact', size⟩, exact'', size'.trans size⟩

theorem Deals.turns (d : Deals t r taken gone mid u r') (sound : r.Sound) : r.Turns r' := by
  obtain ⟨supply, rfl⟩ := d.interned
  rw [d.released]
  have interned := (sound.internAll t.pool taken).draw supply
  exact interned.trans (interned.sound.releaseAll t.pool gone)

/-- How many of some keys are spelt by the letters that some spellings have. -/
theorem tally_eq_countP {ks : List Key} {x : Bytes × Bool}
    (letters : ks.map Key.letters = taken.map Spelling.letters) :
    tally x ks = taken.countP fun s => s.letters = x := by
  have keys : tally x ks = (ks.map Key.letters).countP (· = x) := by
    rw [List.countP_map]
    rfl
  rw [keys, letters, List.countP_map]
  rfl

/-- The users in between, and after. -/
theorem Deals.users_mid (d : Deals t r taken gone mid u r') (exact : r.Exact)
    (hp : p < r.pools.size) (y : Spelling) :
    (mid.pool p).users y + tally y.letters (t.keysIn p) = (r.pool p).users y +
      (tally y.letters (u.keysIn p) + if t.pool = some p then tally y.letters gone else 0) := by
  obtain ⟨ks, letters, trades⟩ := d.keys
  have users : (mid.pool p).users y = (r.pool p).users y +
      if t.pool = some p then taken.countP (fun s => s.letters = y.letters) else 0 := by
    obtain ⟨supply, rfl⟩ := d.interned
    exact exact.users_internAll hp t.pool taken y
  have balance := trades p y.letters
  rw [tally_eq_countP letters] at balance
  omega

/-- **Dealing.**  Where a table has no more keys of a pool than these have users, the users of a
pool change as the keys in the table do. -/
theorem Deals.users (d : Deals t r taken gone mid u r') (exact : r.Exact) (hp : p < r.pools.size)
    (y : Spelling) (owed : tally y.letters (t.keysIn p) ≤ (r.pool p).users y) :
    (r'.pool p).users y + tally y.letters (t.keysIn p) =
      (r.pool p).users y + tally y.letters (u.keysIn p) := by
  have between := d.users_mid exact hp y
  obtain ⟨⟨exact', size⟩, -⟩ := d.exact exact
  have after := exact'.users_releaseAll (size ▸ hp) t.pool gone y
  rw [d.released]
  omega

/-- The keys that an operation gives back are all found. -/
theorem Deals.finds (d : Deals t r taken gone mid u r') (exact : r.Exact) (hp : p < r.pools.size)
    (own : t.pool = some p)
    (owed : ∀ y : Spelling, tally y.letters (t.keysIn p) ≤ (r.pool p).users y) :
    mid.Finds p gone := by
  obtain ⟨⟨exact', size⟩, -⟩ := d.exact exact
  refine exact'.finds (size ▸ hp) fun y => ?_
  have between := d.users_mid exact hp y
  have := owed y
  rw [if_pos own] at between
  omega

end

end Table

/-! ### Many tables -/

/-- A keyring, the tables there are or were, and the keys lent to others. -/
structure Commons (α : Type) where
  ring : Keyring
  tables : List (Option (Table α)) := []
  lent : List (Nat × Key) := []

namespace Commons
open Key
variable {α : Type}

/-- The keys of a pool in the arenas of all tables. -/
def held (c : Commons α) (p : Nat) : List Key := c.tables.flatMap fun t => t.elim [] (·.keysIn p)

/-- The keys of a pool that are lent. -/
def lentOf (c : Commons α) (p : Nat) : List Key := (c.lent.filter (·.1 = p)).map (·.2)

/-- The key is lent by the pool. -/
def isLent (p : Nat) (k : Key) (l : Nat × Key) : Bool := l.1 = p ∧ l.2.letters = k.letters

/-- Something done to tables that share keys, or by others who intern keys.  These release no key
that they have not interned. -/
inductive Op (α : Type)
  | add (home : Table.Home)
  | perform (n : Nat) (op : { op : Table.Op α // op.IsOwn })
  | drop (n : Nat)
  | intern (p : Nat) (s : Spelling)
  | release (p : Nat) (k : Key)

/-- What is left after an operation. -/
def Op.after (c : Commons α) : Op α → Commons α
  | add home => { c with tables := c.tables ++ [some (home.fresh c.ring)] }
  | perform n op =>
    match c.tables[n]? with
    | some (some t) =>
      let (t, ring) := op.1.after (t, c.ring)
      { c with ring, tables := c.tables.set n (some t) }
    | _ => c
  | drop n =>
    match c.tables[n]? with
    | some (some t) => { c with ring := (t.dispose c.ring).2, tables := c.tables.set n none }
    | _ => c
  | intern p s =>
    let (key, ring) := c.ring.intern p s
    { c with ring, lent := (p, key) :: c.lent }
  | release p k =>
    if c.lent.any (isLent p k) then
      { c with ring := (c.ring.release p k).2, lent := c.lent.eraseP (isLent p k) }
    else c

/-- Carries out operations one after the other. -/
def run (ops : List (Op α)) (c : Commons α) : Commons α := ops.foldl Op.after c

/-- Every key of a pool has as many users as there are keys of it in arenas and lent. -/
structure Balanced (c : Commons α) : Prop where
  exact : c.ring.Exact
  housed : ∀ t, some t ∈ c.tables → t.Housed c.ring
  users : ∀ p < c.ring.pools.size, ∀ y : Spelling,
    (c.ring.pool p).users y = tally y.letters (c.held p) + tally y.letters (c.lentOf p)

section
variable {c : Commons α} {t u : Table α} {r : Keyring} {n p : Nat}

/-- One table is replaced by another, or dropped. -/
theorem tally_held_set (hn : c.tables[n]? = some (some t)) (o : Option (Table α)) (ring : Keyring)
    (x : Bytes × Bool) :
    tally x (held { c with ring, tables := c.tables.set n o } p) + tally x (t.keysIn p) =
      tally x (c.held p) + tally x (o.elim [] (·.keysIn p)) := by
  have perm := Table.perm_flatMap_set (fun t : Option (Table α) => t.elim [] (·.keysIn p)) o hn
  have counted : tally x (c.tables.flatMap _ ++ _) = tally x (_ ++ _) := perm.countP_eq _
  rw [tally_append, tally_append] at counted
  exact counted.symm

/-- No table has more keys of a pool than these have users. -/
theorem Balanced.owed (b : c.Balanced) (hn : c.tables[n]? = some (some t))
    (hp : p < c.ring.pools.size) (y : Spelling) :
    tally y.letters (t.keysIn p) ≤ (c.ring.pool p).users y := by
  have without := tally_held_set (p := p) hn none c.ring y.letters
  have users := b.users p hp y
  have : tally y.letters (Option.elim (none : Option (Table α)) [] (·.keysIn p)) = 0 := rfl
  omega

/-- **One table** changes, and its keyring with it. -/
theorem Balanced.replace (b : c.Balanced) (hn : c.tables[n]? = some (some t))
    {o : Option (Table α)} (exact : r.Exact) (size : r.pools.size = c.ring.pools.size)
    (turns : c.ring.Turns r) (housed : ∀ u, o = some u → u.Housed r)
    (users : ∀ p < c.ring.pools.size, ∀ y : Spelling,
      (r.pool p).users y + tally y.letters (t.keysIn p) =
        (c.ring.pool p).users y + tally y.letters (o.elim [] (·.keysIn p))) :
    Balanced { c with ring := r, tables := c.tables.set n o } where
  exact := exact
  housed u hu := by
    rcases List.mem_or_eq_of_mem_set hu with hu | hu
    · have h := b.housed u hu
      exact h.of_sound h.sound turns rfl rfl
    · exact housed u hu.symm
  users p hp y := by
    have hp : p < c.ring.pools.size := size ▸ hp
    have before := b.users p hp y
    have change := users p hp y
    have sum := tally_held_set (p := p) hn o r y.letters
    show (r.pool p).users y = tally y.letters (held { c with ring := r, tables := _ } p) +
      tally y.letters (c.lentOf p)
    omega

/-- A key that is lent, or given back by those to whom it was lent. -/
theorem Balanced.lend (b : c.Balanced) {lent : List (Nat × Key)} (exact : r.Exact)
    (size : r.pools.size = c.ring.pools.size) (turns : c.ring.Turns r)
    (users : ∀ p < c.ring.pools.size, ∀ y : Spelling,
      (r.pool p).users y + tally y.letters (c.lentOf p) =
        (c.ring.pool p).users y + tally y.letters (lentOf { c with lent } p)) :
    Balanced { c with ring := r, lent } where
  exact := exact
  housed t ht := by
    have h := b.housed t ht
    exact h.of_sound h.sound turns rfl rfl
  users p hp y := by
    have hp : p < c.ring.pools.size := size ▸ hp
    have before := b.users p hp y
    have change := users p hp y
    show (r.pool p).users y = tally y.letters (c.held p) +
      tally y.letters (lentOf { c with lent } p)
    omega

theorem tally_lentOf_cons (lent : List (Nat × Key)) (q : Nat) (k : Key) (x : Bytes × Bool) :
    tally x (lentOf { c with lent := (q, k) :: lent } p) =
      tally x (lentOf { c with lent } p) + if q = p ∧ k.letters = x then 1 else 0 := by
  unfold lentOf
  by_cases here : q = p <;> simp [here]

/-- Taking back a key that is lent. -/
theorem tally_lentOf_eraseP {lent : List (Nat × Key)} {q : Nat} {k : Key}
    (h : lent.any (isLent q k)) (x : Bytes × Bool) :
    tally x (lentOf { c with lent := lent.eraseP (isLent q k) } p) +
      (if q = p ∧ k.letters = x then 1 else 0) = tally x (lentOf { c with lent } p) := by
  induction lent with
  | nil => cases h
  | cons l lent ih =>
    obtain ⟨q', k'⟩ := l
    by_cases here : isLent q k (q', k')
    · obtain ⟨rfl, letters⟩ : q' = q ∧ k'.letters = k.letters := by simpa [isLent] using here
      rw [List.eraseP_cons_of_pos here, tally_lentOf_cons, letters]
    · have rest := ih (by simpa [here] using h)
      rw [List.eraseP_cons_of_neg here, tally_lentOf_cons, tally_lentOf_cons]
      omega

/-- **A step.** -/
theorem Balanced.after (b : c.Balanced) (op : Op α) : (op.after c).Balanced := by
  cases op with
  | add home =>
    refine ⟨b.exact, fun t ht => ?_, fun p hp y => ?_⟩
    · rcases List.mem_append.mp ht with ht | ht
      · exact b.housed t ht
      · cases List.mem_singleton.mp ht
        exact home.housed b.exact.sound
    · -- a new table has no keys
      have none : (home.fresh c.ring : Table α).keysIn p = [] := by
        cases home <;> simp [Table.Home.fresh, Table.keysIn, Table.inPool, Table.heldKeys]
      have same : held { c with tables := c.tables ++ [some (home.fresh c.ring)] } p =
          c.held p := by
        simp [held, none]
      show _ = tally y.letters (held { c with tables := _ } p) + _
      rw [same]
      exact b.users p hp y
  | perform n op =>
    dsimp only [Op.after]
    split
    · rename_i t hn
      have h := b.housed t (List.mem_of_getElem? hn)
      obtain ⟨m, shows⟩ := h.sound.toLinked.exists_shows
      have step := h.perform shows op.1
      have deals := h.deals op.2
      unfold Table.Op.after
      dsimp only
      cases e : op.1.perform t c.ring with
      | error why =>
        refine b.replace hn b.exact rfl (.refl b.exact.sound) (fun u hu => ?_) fun p hp y => rfl
        cases hu
        exact h
      | ok result =>
        obtain ⟨a, u, r⟩ := result
        rw [e] at step deals
        obtain ⟨taken, gone, mid, d⟩ := deals
        obtain ⟨-, exact, size⟩ := d.exact b.exact
        refine b.replace hn exact size (d.turns b.exact.sound) (fun w hw => ?_) fun p hp y => ?_
        · cases hw
          exact step.1
        · exact d.users b.exact hp y (b.owed hn hp y)
    · exact b
  | drop n =>
    dsimp only [Op.after]
    split
    · rename_i t hn
      -- a table that is dropped has no keys left
      obtain ⟨exact, size⟩ := b.exact.releaseAll t.pool t.heldKeys
      refine b.replace hn exact size (b.exact.sound.releaseAll t.pool t.heldKeys) nofun
        fun p hp y => ?_
      have owed := b.owed hn hp y
      have users := b.exact.users_releaseAll hp t.pool t.heldKeys y
      rw [Table.tally_keysIn] at owed ⊢
      show ((c.ring.releaseAll t.pool t.heldKeys).pool p).users y + _ = (c.ring.pool p).users y + 0
      omega
    · exact b
  | intern p s =>
    obtain ⟨letters, -, turns⟩ := b.exact.sound.intern p s
    refine b.lend (b.exact.intern p s) (Keyring.size_intern p s) turns fun q hq y => ?_
    have users := b.exact.users_intern hq p s y
    have more : _ = tally y.letters (c.lentOf q) + _ :=
      tally_lentOf_cons c.lent p (c.ring.intern p s).1 y.letters
    rw [letters] at more
    show ((c.ring.intern p s).2.pool q).users y + tally y.letters (c.lentOf q) =
      _ + tally y.letters (lentOf { c with lent := (p, (c.ring.intern p s).1) :: c.lent } q)
    omega
  | release p k =>
    dsimp only [Op.after]
    split
    · rename_i lent
      refine b.lend (b.exact.release p k) (Keyring.size_release p k)
        (b.exact.sound.release p k) fun q hq y => ?_
      have users := b.users q hq y
      have less : _ + _ = tally y.letters (c.lentOf q) :=
        tally_lentOf_eraseP lent y.letters
      rw [b.exact.users_release hq]
      omega
    · exact b

/-- There are as many pools as before. -/
theorem Balanced.size_after (b : c.Balanced) (op : Op α) :
    (op.after c).ring.pools.size = c.ring.pools.size := by
  cases op with
  | add home => rfl
  | perform n op =>
    dsimp only [Op.after]
    split
    · rename_i t hn
      have deals := (b.housed t (List.mem_of_getElem? hn)).deals op.2
      unfold Table.Op.after
      cases e : op.1.perform t c.ring with
      | error why => rfl
      | ok result =>
        rw [e] at deals
        obtain ⟨taken, gone, mid, d⟩ := deals
        exact (d.exact b.exact).2.2
    · rfl
  | drop n =>
    dsimp only [Op.after]
    split
    · exact (b.exact.releaseAll _ _).2
    · rfl
  | intern p s => exact Keyring.size_intern p s
  | release p k =>
    dsimp only [Op.after]
    split
    · exact Keyring.size_release p k
    · rfl

theorem Balanced.run (b : c.Balanced) (ops : List (Op α)) :
    (run ops c).Balanced ∧ (run ops c).ring.pools.size = c.ring.pools.size := by
  induction ops generalizing c with
  | nil => exact ⟨b, rfl⟩
  | cons op ops ih =>
    obtain ⟨balanced, size⟩ := ih (b.after op)
    exact ⟨balanced, size.trans (b.size_after op)⟩

/-- Empty pools, no tables, and nothing lent. -/
def start (seeds : Array Seed) (supply : Supply) : Commons α where ring := .ofSeeds seeds supply

theorem balanced_start (seeds : Array Seed) (supply : Supply) :
    (start seeds supply : Commons α).Balanced where
  exact := Keyring.exact_ofSeeds seeds supply
  housed := nofun
  users p _ y := Keyring.users_ofSeeds seeds supply p y

/-- The users of a pool are accounted for. -/
structure Accounted (c : Commons α) (p : Nat) : Prop where
  /-- A key has a user for each entry with it in the arena of a table that shares the pool, and
  for each time that it is lent. -/
  users : ∀ s : Spelling, (c.ring.pool p).users s = tally s.letters (c.held p ++ c.lentOf p)
  /-- An operation on a table finds each key that it releases. -/
  deals : ∀ t, some t ∈ c.tables → t.pool = some p → ∀ op : Table.Op α, op.IsOwn →
    ∀ a u r, op.perform t c.ring = .ok (a, u, r) →
      ∃ taken gone mid, Table.Deals t c.ring taken gone mid u r ∧ mid.Finds p gone
  /-- So does the dropping of a table. -/
  drops : ∀ t, some t ∈ c.tables → t.pool = some p → c.ring.Finds p t.heldKeys
  /-- So do those to whom a key is lent. -/
  lends : ∀ k, c.lent.any (isLent p k) → (c.ring.release p k).1 = true
  /-- A pool that no table shares, and that lends nothing, is empty. -/
  empty : (∀ t, some t ∈ c.tables → t.pool ≠ some p) → c.lentOf p = [] → (c.ring.pool p).size = 0

theorem Balanced.accounted (b : c.Balanced) (hp : p < c.ring.pools.size) : c.Accounted p where
  users y := (b.users p hp y).trans tally_append.symm
  deals t ht own op isOwn a u r e := by
    obtain ⟨n, hn⟩ := List.mem_iff_getElem?.mp ht
    have deals := (b.housed t ht).deals isOwn
    rw [e] at deals
    obtain ⟨taken, gone, mid, d⟩ := deals
    exact ⟨taken, gone, mid, d, d.finds b.exact hp own (b.owed hn hp)⟩
  drops t ht own := by
    obtain ⟨n, hn⟩ := List.mem_iff_getElem?.mp ht
    refine b.exact.finds hp fun y => ?_
    have owed := b.owed hn hp y
    rwa [Table.tally_keysIn, if_pos own] at owed
  lends k lent := by
    refine (b.exact p).toSound.finds ?_
    have users : (c.ring.pool p).users k =
        tally k.letters (c.held p) + tally k.letters (c.lentOf p) := b.users p hp k
    have less : _ + _ = tally k.letters (c.lentOf p) := tally_lentOf_eraseP lent k.letters
    rw [if_pos ⟨rfl, rfl⟩] at less
    omega
  empty apart none := by
    refine (b.exact p).size_eq_zero fun y => ?_
    have held : c.held p = [] := by
      refine List.flatMap_eq_nil_iff.mpr fun o ho => ?_
      cases o with
      | none => rfl
      | some t => exact if_neg (apart t ho)
    rw [b.users p hp y, held, none]
    rfl

/-- **Accounting for keys.**  Whatever is done to the tables there are, and by those who intern
keys for themselves, each key has as many users as there are entries with it and keys lent; no key
is released that is not held; and a pool without users is empty. -/
theorem accounted_run (seeds : Array Seed) (supply : Supply) (ops : List (Op α))
    (p : Fin seeds.size) : (run ops (start seeds supply)).Accounted p := by
  obtain ⟨balanced, size⟩ := (balanced_start seeds supply).run ops
  refine balanced.accounted ?_
  rw [size]
  exact p.isLt.trans_eq (Array.size_map ..).symm

end

end Commons

end ScriptCore
