import Mathlib.Data.List.ReduceOption
import ScriptCore.Proofs.Instance.Audit

/-!
# Instance — all instances of a process

A process has cells, and instances that come and go.  Each has names in one pool, and stashes that
share it; beside these a host may make hashes that share a pool, and a stash that a host keeps
outlives its instance.  So the keys of a pool are names of instances and keys in such hashes, and
as often as there is a key among these it has users (`Balanced.users`).

* `Balanced.split`, `Balanced.join`: what one instance does is done beside all others.
* `balanced_step`, `balanced_run`: whatever happens in a process keeps the balance.
-/

namespace ScriptCore
open Key Heap

/-- A new pool is empty, and leaves all others alone. -/
theorem Keyring.pool_newPool (r : Keyring) (seed : Seed) (p : Nat) :
    (r.newPool seed).2.pool p = if p = r.pools.size then .ofSeed seed else r.pool p := by
  unfold Keyring.pool Keyring.newPool
  simp only [Array.getD_eq_getD_getElem?, Array.getElem?_push]
  split <;> rfl

/-! ### What there is -/

namespace Instance

/-- The names of a pool that an instance has. -/
def namesIn (i : Instance) (p : Nat) : List Key :=
  (if i.pool = p then i.interned ++ i.pads.interned else []) ++ i.registry.stashes.keysIn p

/-- The stashes of an instance, which may share its pool. -/
def stashes (i : Instance) : List (CellId × Nat) := i.registry.stashes.values.map (·, i.pool)

/-- The parts of an instance have names of its one pool, which is a pool of the keyring. -/
structure Sits (r : Keyring) (i : Instance) : Prop where
  pool : i.pool < r.pools.size
  packages : i.registry.pool = i.pool
  names : i.registry.stashes.pool = some i.pool
  pads : i.pads.pool = i.pool
  tidy : i.registry.stashes.Tidy r
  plain : i.registry.stashes.Plain

theorem Sits.namesIn_eq_nil {r : Keyring} {i : Instance} {p : Nat} (s : i.Sits r)
    (other : i.pool ≠ p) : i.namesIn p = [] := by
  unfold namesIn Table.keysIn
  rw [if_neg other, s.names, if_neg fun e => other (Option.some.inj e)]
  rfl

theorem Sits.turns {r r' : Keyring} {i : Instance} (s : i.Sits r) (turns : r.Turns r')
    (size : r'.pools.size = r.pools.size) : i.Sits r' :=
  ⟨size ▸ s.pool, s.packages, s.names, s.pads, s.tidy.turns turns, s.plain⟩

end Instance

namespace Process

/-- The hashes that may share a pool, each with the pool that it may share. -/
def homes (live : List Instance) (shared : List (CellId × Nat)) : List (CellId × Nat) :=
  live.flatMap Instance.stashes ++ shared

/-- What instances have, and which hashes may share a pool. -/
def account (live : List Instance) (shared : List (CellId × Nat)) (r : Keyring) : Account where
  since := r
  shares i p := (i, p) ∈ homes live shared
  own p x := tally x (live.flatMap (·.namesIn p))

/-- The keys of a pool that there are: names of instances, and keys in hashes that share it. -/
def keysOf (live : List Instance) (shared : List (CellId × Nat)) (h : Heap) (p : Nat) :
    List Key :=
  live.flatMap (·.namesIn p) ++
    ((homes live shared).filter (·.2 = p)).flatMap fun e => keysAt e.2 (h.cell? e.1)

/-- Each hash that may share a pool does so for one reason, and with a pool there is; pool 0 is
one. -/
structure Placed (live : List Instance) (shared : List (CellId × Nat)) (r : Keyring) : Prop where
  zero : 0 < r.pools.size
  nodup : ((homes live shared).map (·.1)).Nodup
  pools : ∀ e ∈ shared, e.2 < r.pools.size
  sits : ∀ i ∈ live, i.Sits r

/-- All keys are accounted for. -/
structure Balanced (live : List Instance) (shared : List (CellId × Nat)) (h : Heap) : Prop where
  ledger : Ledger (account live shared h.ring) h
  placed : Placed live shared h.ring

section
variable {live live' rest : List Instance} {shared : List (CellId × Nat)} {h h' : Heap}
  {r r' : Keyring} {i : Instance} {pool : Nat}

/-! ### One beside the others -/

theorem homes_cons : homes (i :: rest) shared = i.stashes ++ homes rest shared := by
  rw [homes, List.flatMap_cons, List.append_assoc]
  rfl

theorem mem_stashes {j : CellId} {p : Nat} :
    (j, p) ∈ i.stashes ↔ j ∈ i.registry.stashes.values ∧ p = i.pool := by
  unfold Instance.stashes
  rw [List.mem_map]
  constructor
  · rintro ⟨k, hk, e⟩
    cases e
    exact ⟨hk, rfl⟩
  · rintro ⟨hj, rfl⟩
    exact ⟨j, hj, rfl⟩

theorem map_stashes (i : Instance) : i.stashes.map (·.1) = i.registry.stashes.values := by
  unfold Instance.stashes
  rw [List.map_map]
  exact List.map_id _

theorem Placed.turns (d : Placed live shared r) (turns : r.Turns r')
    (size : r'.pools.size = r.pools.size) : Placed live shared r' :=
  ⟨size ▸ d.zero, d.nodup, size ▸ d.pools, fun i hi => (d.sits i hi).turns turns size⟩

theorem Placed.tail (d : Placed (i :: rest) shared r) : Placed rest shared r where
  zero := d.zero
  nodup := by
    have nodup := d.nodup
    rw [homes_cons, List.map_append] at nodup
    exact nodup.of_append_right
  pools := d.pools
  sits j hj := d.sits j (List.mem_cons_of_mem _ hj)

/-- The account of all is that of one beside the others. -/
theorem own_charge (pads : i.pads.pool = i.pool) (p : Nat) (x : Bytes × Bool) :
    (i.charge (account rest shared r)).own p x = (account (i :: rest) shared r').own p x := by
  simp only [Instance.charge, Instance.named, Pads.charge, Registry.charge, account,
    List.flatMap_cons, Instance.namesIn, tally_append, pads]
  by_cases here : i.pool = p
  · rw [if_pos (congrArg some here), if_pos (congrArg some here), if_pos here, tally_append]
    omega
  · have other : some i.pool ≠ some p := fun e => here (Option.some.inj e)
    rw [if_neg other, if_neg other, if_neg here, tally_nil]
    omega

theorem shares_charge (packages : i.registry.pool = i.pool) {j : CellId} {p : Nat} :
    (i.charge (account rest shared r)).shares j p ↔ (j, p) ∈ homes (i :: rest) shared := by
  rw [homes_cons, List.mem_append, mem_stashes, ← packages]
  exact or_comm

/-- **One instance** is audited beside all others. -/
theorem Balanced.split (b : Balanced (i :: rest) shared h) :
    Instance.Audited (account rest shared h.ring) i.pool ⟨h, i⟩ := by
  obtain ⟨ledger, placed⟩ := b
  have sits := placed.sits i List.mem_cons_self
  have nodup := placed.nodup
  rw [homes_cons, List.map_append, map_stashes, List.nodup_append'] at nodup
  refine ⟨ledger.rebook rfl (fun j p there _ => (shares_charge sits.packages).mpr there)
    (fun j p there => ledger.places j p ((shares_charge sits.packages).mp there))
    fun p _ x => own_charge sits.pads p x, rfl, ?_, sits.pads⟩
  refine ⟨sits.tidy, nodup.1, fun j hj p there => ?_, sits.packages, sits.names,
    sits.plain⟩
  exact nodup.2.2 hj (List.mem_map_of_mem there)

/-- **All are balanced** when one is audited beside the others. -/
theorem Balanced.join (c : Instance.Audited (account rest shared r) pool ⟨h, i⟩)
    (placed : Placed rest shared r) (hp : pool < r.pools.size) :
    Balanced (i :: rest) shared h := by
  obtain ⟨ledger, home, registry, pads⟩ := c
  have packages : i.registry.pool = i.pool := registry.home.trans home.symm
  have all : Ledger (account (i :: rest) shared r) h :=
    ledger.rebook rfl (fun j p there _ => (shares_charge packages).mp there)
      (fun j p there => ledger.places j p ((shares_charge packages).mpr there))
      fun p _ x => (own_charge (pads.trans home.symm) p x).symm
  have others := placed.turns ledger.turns ledger.pools
  refine ⟨all.rebase, others.zero, ?_, others.pools, fun j hj => ?_⟩
  · rw [homes_cons, List.map_append, map_stashes]
    refine List.nodup_append'.mpr ⟨registry.nodup, placed.nodup, fun j hj there => ?_⟩
    obtain ⟨⟨k, p⟩, mem, rfl⟩ := List.mem_map.mp there
    exact registry.apart k hj p mem
  · rcases List.mem_cons.mp hj with rfl | hj
    · refine ⟨?_, packages, home ▸ registry.names, pads.trans home.symm,
        registry.tidy.turns ledger.turns, registry.plain⟩
      rw [home]
      exact ledger.pools ▸ hp
    · exact others.sits j hj

/-- The order of instances does not matter. -/
theorem Balanced.perm (b : Balanced live shared h) (perm : live.Perm live') :
    Balanced live' shared h := by
  have places : (homes live shared).Perm (homes live' shared) :=
    (perm.flatMap_right _).append_right _
  obtain ⟨ledger, placed⟩ := b
  refine ⟨ledger.rebook rfl (fun j p there _ => places.subset there)
    (fun j p there => ledger.places j p (places.symm.subset there)) fun p _ x => ?_,
    placed.zero, ?_, placed.pools, fun i hi => placed.sits i (perm.symm.subset hi)⟩
  · exact ((perm.flatMap_right _).countP_eq _).symm
  · exact (places.map _).nodup_iff.mp placed.nodup

/-! ### Coming and going -/

/-- An operation on cells concerns nobody in particular. -/
theorem Balanced.cells (b : Balanced live shared h)
    (l : Ledger (account live shared h.ring) h') : Balanced live shared h' :=
  ⟨l.rebase, b.placed.turns l.turns l.pools⟩

/-- **A new hash** that shares a pool. -/
theorem Balanced.share (b : Balanced live shared h) {p : Nat} (hp : p < h.ring.pools.size) :
    Balanced live ((h.cells.size, p) :: shared)
      (h.allocate (.ofTable (.inPool h.ring p))).2 := by
  obtain ⟨ledger, placed⟩ := b
  have places : (homes live ((h.cells.size, p) :: shared)).Perm
      ((h.cells.size, p) :: homes live shared) := List.perm_middle
  have there (e : CellId × Nat) (he : e ∈ homes live ((h.cells.size, p) :: shared)) :
      e = (h.cells.size, p) ∨ e ∈ homes live shared := List.mem_cons.mp (places.subset he)
  refine ⟨ledger.allot _ (account live ((h.cells.size, p) :: shared) h.ring).shares ?_ ?_ ?_,
    placed.zero, ?_, fun e he => ?_, placed.sits⟩
  · exact fun j q mem => places.symm.subset (List.mem_cons_of_mem _ mem)
  · intro j q mem
    rcases there _ mem with e | mem
    · cases e
      exact Nat.le_refl _
    · exact Nat.le_of_lt (ledger.places j q mem)
  · intro t ht
    cases ht
    refine ⟨rfl, ⟨?_, fun q hq => ?_⟩, rfl⟩
    · exact (Table.Home.pool p).housed ledger.exact.sound
    · cases hq
      exact places.symm.subset List.mem_cons_self
  · refine (places.map _).nodup_iff.mpr (List.nodup_cons.mpr ⟨fun mem => ?_, placed.nodup⟩)
    obtain ⟨⟨j, q⟩, mem, e⟩ := List.mem_map.mp mem
    exact Nat.ne_of_lt (ledger.places j q mem) e
  · rcases List.mem_cons.mp he with rfl | he
    · exact hp
    · exact placed.pools e he

/-- **A newcomer** without names. -/
theorem Balanced.join_new (b : Balanced live shared h) (sits : i.Sits h.ring)
    (names : ∀ p, i.namesIn p = []) (stashes : i.stashes = []) :
    Balanced (i :: live) shared h := by
  obtain ⟨ledger, placed⟩ := b
  have same : homes (i :: live) shared = homes live shared := by
    rw [homes_cons, stashes]
    rfl
  have shares (j : CellId) (p : Nat) : (account (i :: live) shared h.ring).shares j p ↔
      (account live shared h.ring).shares j p := by
    show (j, p) ∈ homes (i :: live) shared ↔ _
    rw [same]
    rfl
  refine ⟨ledger.rebook rfl (fun j p there _ => (shares j p).mpr there)
    (fun j p there => ledger.places j p ((shares j p).mp there)) fun p _ x => ?_,
    placed.zero, same.symm ▸ placed.nodup, placed.pools, fun j hj => ?_⟩
  · show tally x ((i :: live).flatMap (·.namesIn p)) = _
    rw [List.flatMap_cons, names]
    rfl
  · rcases List.mem_cons.mp hj with rfl | hj
    · exact sits
    · exact placed.sits j hj

/-- The stashes of an instance that outlive it. -/
def kept (i : Instance) (h : Heap) : List (CellId × Nat) := i.stashes.filter (h.isAlive ·.1)

/-- **An instance that goes** leaves no name behind, and only stashes that are kept. -/
theorem Balanced.leave (b : Balanced (i :: rest) shared h) :
    Balanced rest (shared ++ kept i (after i.dispose h)) (after i.dispose h) := by
  have sits := b.placed.sits i List.mem_cons_self
  have nodup := b.placed.nodup
  have placed := b.placed.tail
  have l := b.split.dispose
  generalize after i.dispose h = h' at l ⊢
  have same : homes rest (shared ++ kept i h') = homes rest shared ++ kept i h' :=
    (List.append_assoc _ _ _).symm
  have others := placed.turns l.turns l.pools
  have left : Ledger (account rest (shared ++ kept i h') h.ring) h' := by
    refine l.rebook rfl (fun j p there alive => ?_) (fun j p there => ?_) fun p _ x => rfl
    · show (j, p) ∈ homes rest (shared ++ kept i h')
      rw [same, List.mem_append]
      rcases there with there | ⟨hj, rfl⟩
      · exact .inl there
      · exact .inr (List.mem_filter.mpr ⟨mem_stashes.mpr ⟨hj, sits.packages⟩, alive⟩)
    · have mem : (j, p) ∈ homes rest shared ++ kept i h' := same ▸ there
      rcases List.mem_append.mp mem with mem | mem
      · exact l.places j p (.inl mem)
      · obtain ⟨hj, hp⟩ := mem_stashes.mp (List.mem_filter.mp mem).1
        exact l.places j p (.inr ⟨hj, hp.trans sits.packages.symm⟩)
  refine ⟨left.rebase, others.zero, ?_, fun e he => ?_, others.sits⟩
  · rw [homes_cons, List.map_append] at nodup
    rw [same, List.map_append]
    have fewer : ((kept i h').map (·.1)).Sublist (i.stashes.map (·.1)) :=
      List.filter_sublist.map _
    have swapped := List.perm_append_comm.nodup_iff.mp nodup
    exact swapped.sublist ((List.Sublist.refl _).append fewer)
  · rcases List.mem_append.mp he with he | he
    · exact others.pools e he
    · obtain ⟨-, hp⟩ := mem_stashes.mp (List.mem_filter.mp he).1
      rw [hp]
      exact l.pools ▸ sits.pool

/-! ### Pools -/

theorem Placed.pool_lt (d : Placed live shared r) {e : CellId × Nat}
    (he : e ∈ homes live shared) : e.2 < r.pools.size := by
  rcases List.mem_append.mp he with he | he
  · obtain ⟨i, hi, he⟩ := List.mem_flatMap.mp he
    rw [(mem_stashes.mp he).2]
    exact (d.sits i hi).pool
  · exact d.pools e he

/-- Nobody has a key of a pool that there is not. -/
theorem Balanced.keysOf_eq_nil (b : Balanced live shared h) {p : Nat}
    (hp : h.ring.pools.size ≤ p) : keysOf live shared h p = [] := by
  obtain ⟨ledger, placed⟩ := b
  refine List.append_eq_nil_iff.mpr ⟨?_, ?_⟩
  · refine List.flatMap_eq_nil_iff.mpr fun i hi => (placed.sits i hi).namesIn_eq_nil ?_
    exact Nat.ne_of_lt (Nat.lt_of_lt_of_le (placed.sits i hi).pool hp)
  · refine List.flatMap_eq_nil_iff.mpr fun e he => absurd hp (Nat.not_le_of_lt ?_)
    obtain ⟨there, rfl⟩ : e ∈ homes live shared ∧ e.2 = p := by simpa using he
    exact placed.pool_lt there

/-- The keys of a pool in all cells are those in the hashes that may share it. -/
theorem Balanced.perm_keysIn (b : Balanced live shared h) (p : Nat) :
    (h.keysIn p).Perm
      (((homes live shared).filter (·.2 = p)).flatMap fun e => keysAt e.2 (h.cell? e.1)) := by
  obtain ⟨ledger, placed⟩ := b
  have mem (e : CellId × Nat) : e ∈ (homes live shared).filter (·.2 = p) ↔
      e ∈ homes live shared ∧ e.2 = p := by simp
  have nodup : (((homes live shared).filter (·.2 = p)).map (·.1)).Nodup :=
    placed.nodup.sublist (List.filter_sublist.map _)
  have perm := ledger.perm_keysIn (p := p) nodup
    (fun i hi => by
      obtain ⟨⟨j, q⟩, he, rfl⟩ := List.mem_map.mp hi
      exact ledger.places j q ((mem _).mp he).1)
    fun i there => List.mem_map_of_mem ((mem (i, p)).mpr ⟨there, rfl⟩)
  rw [List.flatMap_map] at perm
  refine perm.trans (.of_eq (List.flatMap_congr fun e he => ?_))
  rw [((mem e).mp he).2]

/-- **Every key has as many users as there are of it.** -/
theorem Balanced.users (b : Balanced live shared h) (p : Nat) (y : Spelling) :
    (h.ring.pool p).users y = tally y.letters (keysOf live shared h p) := by
  by_cases hp : p < h.ring.pools.size
  · have counted : tally y.letters (h.keysIn p) = tally y.letters
        (((homes live shared).filter (·.2 = p)).flatMap fun e => keysAt e.2 (h.cell? e.1)) :=
      (b.perm_keysIn p).countP_eq _
    have users : (h.ring.pool p).users y =
        tally y.letters (h.keysIn p) + tally y.letters (live.flatMap (·.namesIn p)) :=
      b.ledger.users p hp y
    rw [users, counted, keysOf, tally_append, Nat.add_comm]
  · rw [b.keysOf_eq_nil (Nat.le_of_not_lt hp), Keyring.pool, Array.getD_eq_getD_getElem?,
      Array.getElem?_eq_none (Nat.le_of_not_lt hp)]
    exact (Pool.sound_ofSeed {}).users_eq_zero fun _ => Table.not_binds_new

/-- **A new pool** is nobody's concern yet. -/
theorem Balanced.newPool (b : Balanced live shared h) (seed : Seed) :
    Balanced live shared { h with ring := (h.ring.newPool seed).2 } := by
  have size : (h.ring.newPool seed).2.pools.size = h.ring.pools.size + 1 := Array.size_push _
  have old {p : Nat} (hp : p < h.ring.pools.size) :
      (h.ring.newPool seed).2.pool p = h.ring.pool p := by
    rw [Keyring.pool_newPool, if_neg (Nat.ne_of_lt hp)]
  have exact : (h.ring.newPool seed).2.Exact := by
    intro p
    rw [Keyring.pool_newPool]
    split
    · exact Pool.exact_ofSeed seed
    · exact b.ledger.exact p
  have housed {t : Table CellId} (housed : t.Housed h.ring)
      (home : ∀ p, t.pool = some p → p < h.ring.pools.size) :
      t.Housed (h.ring.newPool seed).2 :=
    ⟨housed.sound, exact.sound, fun p hp => by
      rw [old (home p hp)]
      exact housed.home p hp⟩
  refine ⟨⟨exact, .refl exact.sound, rfl, b.ledger.places, fun i c t hc ht => ?_,
    fun p hp y => ?_⟩, size ▸ Nat.succ_pos _, b.placed.nodup, fun e he => ?_, fun i hi => ?_⟩
  · obtain ⟨shape, seats⟩ := b.ledger.hashes i c t hc ht
    exact ⟨shape, housed seats.housed fun p hp => b.placed.pool_lt (seats.shares p hp),
      seats.shares⟩
  · have hp : p < (h.ring.newPool seed).2.pools.size := hp
    show ((h.ring.newPool seed).2.pool p).users y =
      tally y.letters (h.keysIn p) + tally y.letters (live.flatMap (·.namesIn p))
    rcases Nat.lt_or_eq_of_le (Nat.le_of_lt_succ (size ▸ hp)) with hp | rfl
    · rw [old hp]
      exact b.ledger.users p hp y
    · have none := b.keysOf_eq_nil (Nat.le_refl _)
      obtain ⟨names, keys⟩ := List.append_eq_nil_iff.mp none
      have inCells := b.perm_keysIn h.ring.pools.size
      rw [keys] at inCells
      rw [names, inCells.eq_nil, Keyring.pool_newPool, if_pos rfl]
      exact (Pool.sound_ofSeed seed).users_eq_zero fun _ => Table.not_binds_new
  · exact Nat.lt_of_lt_of_le (b.placed.pools e he) (size ▸ Nat.le_succ _)
  · obtain ⟨pool, packages, names, pads, tidy, plain⟩ := b.placed.sits i hi
    refine ⟨Nat.lt_of_lt_of_le pool (size ▸ Nat.le_succ _), packages, names, pads,
      ⟨housed tidy.housed fun p hp => ?_, tidy.tight⟩, plain⟩
    obtain rfl : i.pool = p := Option.some.inj (names.symm.trans hp)
    exact pool

end

end Process

/-! ### Processes -/

/-- A process: its cells, its instances, of which some have gone, and the other hashes that may
share a pool: those that hosts made, and stashes that outlived their instance. -/
structure Process where
  heap : Heap
  instances : List (Option Instance) := []
  shared : List (CellId × Nat) := []

namespace Process

/-- What happens in a process.  A host has handles on cells, and may make hashes that share a
pool. -/
inductive Event
  | create (settings : Instance.Settings) (environment : Option String)
  | ask (n : Nat) (q : Instance.Request)
  | cells (held : List CellId) (op : Instance.CellsOp)
  | share (pool : Nat)
  | drop (n : Nat)

/-- The instances that have not gone. -/
def live (w : Process) : List Instance := w.instances.reduceOption

/-- Makes an instance, which has the next number. -/
def create (w : Process) (settings : Instance.Settings) (environment : Option String) : Process :=
  let (i, ring) := Instance.ofSettings settings environment w.heap.ring
  { w with heap := { w.heap with ring }, instances := w.instances ++ [some i] }

/-- Asks an instance for something, if it has not gone. -/
def ask (w : Process) (n : Nat) (q : Instance.Request) : Process :=
  match w.instances[n]?.join with
  | none => w
  | some i =>
    let s := after q.perform ⟨w.heap, i⟩
    { w with heap := s.heap, instances := w.instances.set n (some s.own) }

/-- Gives up an instance, if it has not gone. -/
def drop (w : Process) (n : Nat) : Process :=
  match w.instances[n]?.join with
  | none => w
  | some i =>
    let heap := after i.dispose w.heap
    { heap, instances := w.instances.set n none, shared := w.shared ++ kept i heap }

/-- What an event does. -/
def step (w : Process) : Event → Process
  | .create settings environment => w.create settings environment
  | .ask n q => w.ask n q
  | .cells held op => { w with heap := after (op.val.act held) w.heap }
  | .share pool =>
    if pool < w.heap.ring.pools.size then
      let (i, heap) := w.heap.allocate (.ofTable (.inPool w.heap.ring pool))
      { w with heap, shared := (i, pool) :: w.shared }
    else w
  | .drop n => w.drop n

/-- Lets events happen one after the other. -/
def run (events : List Event) (w : Process) : Process := events.foldl step w

/-- A process at its start: pool 0 is the one that instances may share. -/
def start (seed : Seed) (supply : Supply) : Process :=
  { heap := { ring := .ofSeeds #[seed] supply } }

section
variable {w : Process} {n : Nat} {i : Instance}

/-- An instance among the others. -/
theorem live_set (hn : w.instances[n]?.join = some i) :
    ∃ rest, w.live.Perm (i :: rest) ∧
      ∀ o, (w.instances.set n o).reduceOption.Perm (o.toList ++ rest) := by
  obtain ⟨o, here, rfl⟩ : ∃ o, w.instances[n]? = some o ∧ o = some i := by
    simpa [Option.join_eq_some_iff] using hn
  obtain ⟨lt, at_n⟩ := List.getElem?_eq_some_iff.mp here
  have replaced (o : Option Instance) : (w.instances.set n o).reduceOption.Perm
      (o.toList ++ ((w.instances.take n).reduceOption ++
        (w.instances.drop (n + 1)).reduceOption)) := by
    rw [List.set_eq_take_append_cons_drop, if_pos lt, List.reduceOption_append]
    cases o with
    | none =>
      rw [List.reduceOption_cons_of_none]
      exact .refl _
    | some j =>
      rw [List.reduceOption_cons_of_some]
      exact List.perm_middle
  refine ⟨_, ?_, replaced⟩
  have same := replaced (some i)
  rwa [← at_n, List.set_getElem_self, at_n] at same

/-- An instance is made without names and packages. -/
theorem balanced_join (settings : Instance.Settings) {h : Heap} {p : Nat}
    (b : Balanced w.live w.shared h) (hp : p < h.ring.pools.size) :
    Balanced (w.instances ++ [some ({
      settings, pool := p, queue := { policy := settings.advisories }
      registry := .inPool h.ring p settings.packages
      pads := .inPool h.ring p } : Instance)]).reduceOption w.shared h := by
  rw [List.reduceOption_append]
  have none (q : Nat) {t : Table CellId} (keys : t.heldKeys = []) : t.keysIn q = [] := by
    rw [Table.keysIn, keys, ite_self]
  refine Balanced.perm (b.join_new ⟨hp, rfl, rfl, rfl, ?_, ⟨rfl, rfl, rfl⟩⟩ (fun q => ?_) rfl)
    (List.perm_append_singleton _ _).symm
  · have housed := (Table.Home.pool p).housed (α := CellId) b.ledger.exact.sound
    obtain ⟨m, shows⟩ := housed.sound.toLinked.exists_shows
    exact ⟨(housed.setMarks shows false true).1, fun _ => rfl⟩
  · refine List.append_eq_nil_iff.mpr ⟨ite_self _, none q rfl⟩

theorem balanced_create (b : Balanced w.live w.shared w.heap) (settings : Instance.Settings)
    (environment : Option String) :
    Balanced (w.create settings environment).live (w.create settings environment).shared
      (w.create settings environment).heap := by
  unfold create Instance.ofSettings
  cases settings.sharesNames with
  | true => exact balanced_join settings b b.placed.zero
  | false =>
    have size : (w.heap.ring.newPool (settings.nameSeed environment)).2.pools.size =
      w.heap.ring.pools.size + 1 := Array.size_push _
    exact balanced_join settings (b.newPool _) (size ▸ Nat.lt_succ_self _)

theorem balanced_step (b : Balanced w.live w.shared w.heap) (e : Event) :
    Balanced (w.step e).live (w.step e).shared (w.step e).heap := by
  cases e with
  | create settings environment => exact balanced_create b settings environment
  | ask n q =>
    show Balanced (w.ask n q).live (w.ask n q).shared (w.ask n q).heap
    unfold ask
    cases hn : w.instances[n]?.join with
    | none => exact b
    | some i =>
      obtain ⟨rest, perm, replaced⟩ := live_set hn
      have b := b.perm perm
      have c := (Instance.Audited.keeps_request q).after b.split
      exact (Balanced.join c b.placed.tail (b.placed.sits i List.mem_cons_self).pool).perm
        (replaced (some _)).symm
  | cells held op => exact b.cells ((Ledger.keeps_act held op.property).after b.ledger)
  | share pool =>
    show Balanced (if _ then _ else _ : Process).live (if _ then _ else _ : Process).shared
      (if _ then _ else _ : Process).heap
    split
    · exact b.share ‹_›
    · exact b
  | drop n =>
    show Balanced (w.drop n).live (w.drop n).shared (w.drop n).heap
    unfold drop
    cases hn : w.instances[n]?.join with
    | none => exact b
    | some i =>
      obtain ⟨rest, perm, replaced⟩ := live_set hn
      exact (b.perm perm).leave.perm (replaced none).symm

/-- **Whatever happens in a process** keeps the balance. -/
theorem balanced_run (b : Balanced w.live w.shared w.heap) (events : List Event) :
    Balanced (run events w).live (run events w).shared (run events w).heap := by
  induction events generalizing w with
  | nil => exact b
  | cons e events ih => exact ih (balanced_step b e)

theorem balanced_start (seed : Seed) (supply : Supply) :
    Balanced (start seed supply).live (start seed supply).shared (start seed supply).heap := by
  refine ⟨⟨Keyring.exact_ofSeeds _ _, .refl (Keyring.sound_ofSeeds _ _), rfl,
    fun _ _ there => absurd there List.not_mem_nil, fun _ _ _ hc => ?_,
    fun p _ y => Keyring.users_ofSeeds _ _ p y⟩, ?_, List.nodup_nil,
    fun _ he => absurd he List.not_mem_nil, fun _ hi => absurd hi List.not_mem_nil⟩
  · cases hc
  · show 0 < (#[seed].map Pool.ofSeed).size
    rw [Array.size_map]
    exact Nat.one_pos

end

end Process

end ScriptCore
