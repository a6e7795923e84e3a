import ScriptCore.Proofs.HashTable.Update
import ScriptCore.Proofs.Table.Session

/-!
# HashTable — everything one can do to a table

The operations of `Table.Op`, carried out by heads and links.  A refused one gives the table and the
keyring that it leaves.

* `Forms.perform`: each operation answers and leaves what it does on the table that is formed.
  A refused one leaves all as it was, unless growth was refused: then the key is bound all the same.
* `Lodged.perform`: so a table by heads and links refines the finite map that it shows.
* `wellFormed_run`: as long as memory affords its growth, a table is well formed.  Its
  chains end, its places are shared out among chains, free list and cursor, each chained entry is
  in the bucket of the low bits of its hash, and a deleted entry under the cursor links to a chained
  one, if to any.
-/

namespace ScriptCore.HashTable
open Table (Op Answer Home Housed Contents)

variable {α : Type}

/-! ### Operations -/

/-- Carries out an operation. -/
def perform (memory : Nat) (t : HashTable α) (r : Keyring) :
    Op α → Except Refusal (Answer α) × HashTable α × Keyring
  | .fetch s => (.ok (.value (t.fetch? s)), t, r)
  | .contains s => (.ok (.truth (t.contains s)), t, r)
  | .store s v => let (old, t, r) := t.store memory r s v; (old.map .value, t, r)
  | .change s f => let (new, t) := t.modify s f; (.ok (.value new), t, r)
  | .fetchOrStore s v =>
    let (v, t, r) := t.fetchOrStore memory r s v
    (v.map fun v => .value (some v), t, r)
  | .delete s readOnly discards =>
    let (old, t, r) := t.delete r readOnly s
    (old.map fun old => .value (if discards then none else old), t, r)
  | .clear readOnly => let (done, t, r) := t.clear r readOnly; (done.map fun _ => .nothing, t, r)
  | .clearPlaceholders => let (t, r) := t.clearPlaceholders r; (.ok .nothing, t, r)
  | .restrict => (.ok .nothing, t.restrict, r)
  | .unrestrict => (.ok .nothing, t.unrestrict, r)
  | .pinSeed => (.ok .nothing, t.pinSeed, r)
  | .reserve n => let (refusal, t) := t.reserve memory n; (answer .nothing refusal, t, r)
  | .startWalk => let (n, t, r) := t.startWalk r; (.ok (.count n), t, r)
  | .walk withPlaceholders => let (k, t, r) := t.walk r withPlaceholders; (.ok (.key k), t, r)
  | .intern p s => (.ok .nothing, t, (r.intern p s).2)
  | .release p k => (.ok .nothing, t, (r.release p k).2)

/-- What is left after an operation, also a refused one. -/
def after (memory : Nat) (s : HashTable α × Keyring) (op : Op α) : HashTable α × Keyring :=
  (perform memory s.1 s.2 op).2

/-- Carries out operations one after the other. -/
def run (memory : Nat) (ops : List (Op α)) (s : HashTable α × Keyring) : HashTable α × Keyring :=
  ops.foldl (after memory) s

/-- A new table. -/
def fresh (r : Keyring) : Home → HashTable α
  | .own seed => { seed }
  | .pool p => inPool r p

/-- A refusal is that of growth which an insertion needs. -/
def stunts : Op α → Except Refusal (Answer α) → Bool
  | .reserve _, _ => false
  | _, .error (.outOfMemory _) => true
  | _, _ => false

/-- Memory affords the growth that insertions need. -/
def affords (memory : Nat) : List (Op α) → HashTable α × Keyring → Bool
  | [], _ => true
  | op :: ops, s =>
    !stunts op (perform memory s.1 s.2 op).1 && affords memory ops (after memory s op)

/-! ### Well-formed tables -/

/-- The letters of the key at a place. -/
def lettersAt (t : HashTable α) (i : Nat) : Option (Bytes × Bool) :=
  (t.entry? i).map (·.key.letters)

/-- What holds of the heads, links and entries of a table. -/
structure WellFormed (t : HashTable α) : Prop where
  power : t.buckets.isPowerOfTwo
  /-- From each head on, links lead through a chain to an end. -/
  ends : ∀ b, Leads t.next? (t.head? b) (t.chain b) none
  /-- Each place is chained, free or parked, once. -/
  places : (t.chained ++ (t.free ++ t.parked.toList)).Perm (List.range t.nodes.size)
  vacant : ∀ i ∈ t.free, t.entry? i = none
  /-- What is chained or parked has an entry, whose hash is that of its bytes. -/
  filled : ∀ i, i ∈ t.chained ∨ t.parked = some i →
    ∃ e, t.entry? i = some e ∧ e.key.hash = t.seed.hash e.key.bytes
  /-- A chained entry is in the bucket of the low bits of its hash. -/
  placed : ∀ b, ∀ i ∈ t.chain b, (t.hashAt i).toNat &&& (t.buckets - 1) = b
  distinct : ∀ i ∈ t.chained, ∀ j ∈ t.chained, t.lettersAt i = t.lettersAt j → i = j
  counted : t.total = t.chained.length
  marked : t.placeholders = t.chained.countP t.isPlaceholder
  /-- The cursor stands on an entry, and goes on from a chained one if that was deleted. -/
  standing : ∀ i, t.cursor.current = some i → i ∈ t.chained ∨ t.parked = some i
  parted : t.cursor.parted = true → t.cursor.current.isSome
  onward : ∀ j, t.onward = some j → j ∈ t.chained

section
variable {t : HashTable α} {u : Table α} {r : Keyring} {m : Contents α} {memory : Nat}

/-- Heads and links that form a table that hangs together are well formed. -/
theorem Forms.wellFormed (f : t.Forms u) (counted : u.Counted) : t.WellFormed := by
  obtain ⟨cs, lays, rfl⟩ := f
  have chained : t.chained = (t.view cs).chained := chained_eq ⟨cs, lays, rfl⟩
  have chain (b : Nat) : t.chain b = (t.view cs).chain b := lays.follow_eq b
  have entry (i : Nat) : Table.entry? (t.view cs) i = t.entry? i := entry?_view t cs i
  have letters (i : Nat) : (t.view cs).lettersAt i = t.lettersAt i := by
    rw [Table.lettersAt, entry]
    rfl
  have hash (i : Nat) : (t.view cs).hashAt i = t.hashAt i := by
    rw [Table.hashAt, entry]
    rfl
  have size : (t.view cs).entries.size = t.nodes.size := by simp [view]
  refine ⟨?_, fun b => ?_, ?_, fun i hi => ?_, fun i hi => ?_, fun b i hi => ?_,
    fun i hi j hj e => ?_, ?_, ?_, fun i hi => ?_, counted.parted, fun j hj => ?_⟩
  · have power := counted.power
    rwa [← buckets_eq ⟨cs, lays, rfl⟩] at power
  · rw [chain]
    exact lays.leads b
  · rw [chained, ← size]
    exact counted.places
  · rw [← entry]
    exact counted.vacant i hi
  · rw [chained] at hi
    obtain ⟨e, he⟩ := Option.isSome_iff_exists.mp (counted.filled i hi)
    exact ⟨e, by rw [← entry, he], counted.hashed i e he⟩
  · rw [chain] at hi
    have placed := counted.placed b i hi
    rw [counted.bucketOf_eq_and, hash, ← buckets_eq ⟨cs, lays, rfl⟩] at placed
    exact placed
  · rw [chained] at hi hj
    exact counted.distinct i j hi hj (by rwa [letters, letters])
  · rw [chained]
    exact counted.counted
  · rw [chained, show t.isPlaceholder = (t.view cs).isPlaceholder from
      funext fun i => isPlaceholder_eq ⟨cs, lays, rfl⟩ i]
    exact counted.marked
  · rw [chained]
    exact counted.standing i hi
  · rw [chained]
    exact counted.next (parted_of_onward hj) j hj

/-- A well-formed table forms the table that its links make. -/
theorem WellFormed.forms (h : t.WellFormed) : t.Forms t.table := by
  have nodup := h.places.nodup_iff.mpr List.nodup_range
  refine ⟨t.chains, ⟨by simp [chains], fun b => ?_, (List.nodup_append.mp nodup).1,
    fun i hi => ?_⟩, rfl⟩
  · have chain : t.chains.getD b [] = t.chain b := by
      rw [Array.getD_eq_getD_getElem?, chains, Array.getElem?_map, chain, head?]
      cases t.heads[b]? with
      | none => cases t.nodes.size <;> rfl
      | some head => rfl
    rw [chain]
    exact h.ends b
  · exact List.mem_range.mp (h.places.subset (List.mem_append_left _ hi))

/-- The table that well-formed links make hangs together. -/
theorem WellFormed.counted_table (h : t.WellFormed) : t.table.Counted := by
  have f := h.forms
  have chain (b : Nat) : t.table.chain b = t.chain b := (chain_eq f b).symm
  have chained : t.table.chained = t.chained := rfl
  have entry (i : Nat) : t.table.entry? i = t.entry? i := (entry?_eq f i).symm
  have letters (i : Nat) : t.table.lettersAt i = t.lettersAt i := by
    rw [Table.lettersAt, entry]
    rfl
  have size : t.table.entries.size = t.nodes.size := by simp [table, view]
  have power := h.power
  rw [buckets_eq f] at power
  refine ⟨⟨Nat.pos_of_isPowerOfTwo power, fun b i hi => ?_, ?_, fun i hi => ?_, fun i hi => ?_,
    fun i e he => ?_, fun i j hi hj e => ?_, h.standing, h.parted, fun parted j hj => ?_⟩,
    power, h.counted, ?_⟩
  · rw [chain] at hi
    rw [← bucketOf_eq f power, bucketOf, Table.hashAt, entry]
    exact h.placed b i hi
  · rw [chained, size]
    exact h.places
  · rw [entry]
    exact h.vacant i hi
  · obtain ⟨e, he, -⟩ := h.filled i hi
    rw [entry, he]
    rfl
  · -- what has an entry is not free
    rw [entry] at he
    have held : i < t.nodes.size := by
      by_contra le
      simp [HashTable.entry?, le] at he
    have place := h.places.mem_iff.mpr (List.mem_range.mpr held)
    rw [List.mem_append, List.mem_append, Option.mem_toList] at place
    have used : i ∈ t.chained ∨ t.parked = some i := by
      rcases place with hi | hi | hi
      · exact .inl hi
      · rw [h.vacant i hi] at he
        cases he
      · exact .inr hi
    obtain ⟨e', he', hash⟩ := h.filled i used
    obtain rfl := Option.some.inj (he.symm.trans he')
    exact hash
  · exact h.distinct i hi j hj (by rwa [letters, letters] at e)
  · exact h.onward j hj
  · rw [show t.table.isPlaceholder = t.isPlaceholder from
      funext fun i => (isPlaceholder_eq f i).symm]
    exact h.marked

/-! ### Steps and runs -/

/-- **A step.**  An operation by heads and links answers and leaves what it does on the table that
is formed.  A refused one leaves all as it was; or it could not grow, and what is left shows the map
that the operation makes all the same. -/
theorem Forms.perform (f : t.Forms u) (housed : Housed u r) (shows : u.Shows m) (memory : Nat)
    (op : Op α) :
    Follows t r (op.effect m) (perform memory t r op) (op.perform u r) := by
  have counted := housed.sound.toCounted
  have linked := counted.toLinked
  cases op with
  | fetch s =>
    refine ⟨u, ?_, f⟩
    rw [fetch?_eq f counted.power]
    rfl
  | contains s =>
    refine ⟨u, ?_, f⟩
    rw [contains_eq f counted]
    rfl
  | store s v => exact (f.store housed shows memory s v).map Answer.value
  | change s g =>
    obtain ⟨value, formed⟩ := f.modify counted.power s g
    show Follows t r _ (.ok (Answer.value (t.modify s g).1), (t.modify s g).2, r) _
    rw [value]
    exact ⟨_, rfl, formed⟩
  | fetchOrStore s v =>
    exact (f.fetchOrStore housed shows memory s v).map fun v => Answer.value (some v)
  | delete s readOnly discards =>
    exact (f.delete housed readOnly s).map fun old => Answer.value (if discards then none else old)
  | clear readOnly =>
    have cleared := (f.clear (r := r) (m := ∅) readOnly).map fun _ => (Answer.nothing : Answer α)
    dsimp only [HashTable.perform, Op.perform]
    cases e : u.clear r readOnly <;> rw [e] at cleared <;> exact cleared
  | clearPlaceholders =>
    obtain ⟨formed, ring⟩ := f.clearPlaceholders counted r
    show Follows t r _ (.ok Answer.nothing, (t.clearPlaceholders r).1, (t.clearPlaceholders r).2) _
    rw [ring]
    exact ⟨_, rfl, formed⟩
  | restrict =>
    obtain ⟨cs, lays, rfl⟩ := f
    exact ⟨_, rfl, cs, lays.of_same rfl (Nat.le_refl _) fun _ _ => rfl, rfl⟩
  | unrestrict =>
    obtain ⟨cs, lays, rfl⟩ := f
    exact ⟨_, rfl, cs, lays.of_same rfl (Nat.le_refl _) fun _ _ => rfl, rfl⟩
  | pinSeed =>
    obtain ⟨cs, lays, rfl⟩ := f
    exact ⟨_, rfl, cs, lays.of_same rfl (Nat.le_refl _) fun _ _ => rfl, rfl⟩
  | reserve n =>
    have reserved := f.reserve counted memory n
    dsimp only [HashTable.perform, Op.perform]
    generalize t.reserve memory n = x at reserved
    obtain ⟨_ | why, t'⟩ := x
    · obtain ⟨u', e, formed⟩ := reserved
      rw [e]
      exact ⟨u', rfl, formed⟩
    · exact .inl ⟨reserved, rfl⟩
  | startWalk =>
    obtain ⟨count, formed, ring⟩ := f.startWalk linked r
    show Follows t r _
      (.ok (Answer.count (t.startWalk r).1), (t.startWalk r).2.1, (t.startWalk r).2.2) _
    rw [count, ring]
    exact ⟨_, rfl, formed⟩
  | walk w =>
    obtain ⟨key, formed, ring⟩ := f.walk linked r w
    show Follows t r _ (.ok (Answer.key (t.walk r w).1), (t.walk r w).2.1, (t.walk r w).2.2) _
    rw [key, ring]
    exact ⟨_, rfl, formed⟩
  | intern p s => exact ⟨u, rfl, f⟩
  | release p k => exact ⟨u, rfl, f⟩

/-- The table that heads and links form is housed in a keyring. -/
def Lodged (t : HashTable α) (r : Keyring) : Prop := ∃ u, t.Forms u ∧ Housed u r

/-- **A step, on the map.**  An operation does and answers what it does on the map that is shown.  A
refused one leaves all as it was; or it could not grow, and the map changes all the same. -/
theorem Lodged.perform (h : Lodged t r) (shows : t.table.Shows m) (memory : Nat) (op : Op α) :
    match HashTable.perform memory t r op with
    | (.ok a, t', r') => Lodged t' r' ∧ t'.table.Shows (op.effect m) ∧ op.Answers m a
    | (.error why, t', r') => t' = t ∧ r' = r ∨
      ∃ n, why = .outOfMemory n ∧ t'.table.Counted ∧ t'.table.Shows (op.effect m) := by
  obtain ⟨u, formed, housed⟩ := h
  rw [formed.table_eq] at shows
  have step := formed.perform housed shows memory op
  have target := housed.perform shows op
  generalize HashTable.perform memory t r op = x at step
  obtain ⟨why | a, t', r'⟩ := x
  · rcases step with same | ⟨n, w, grew, formed', counted, shown⟩
    · exact .inl same
    · exact .inr ⟨n, grew, formed'.table_eq ▸ counted, formed'.table_eq ▸ shown⟩
  · obtain ⟨u', e, formed'⟩ := step
    rw [e] at target
    obtain ⟨housed', shown, answers⟩ := target
    exact ⟨⟨u', formed', housed'⟩, formed'.table_eq ▸ shown, answers⟩

/-- A refused hint changes nothing. -/
theorem reserve_refused {n : Nat} {why : Refusal}
    (refused : (t.reserve memory n).1 = some why) : (t.reserve memory n).2 = t := by
  unfold HashTable.reserve at refused ⊢
  dsimp only at refused ⊢
  split
  · rfl
  · split
    · rfl
    · split
      · rfl
      · rename_i wrapped more full
        rw [if_neg wrapped, if_neg more, if_neg full] at refused
        cases refused

/-- What an operation leaves is lodged, unless it could not grow. -/
theorem Lodged.after (h : Lodged t r) (memory : Nat) (op : Op α)
    (grows : stunts op (HashTable.perform memory t r op).1 = false) :
    Lodged (HashTable.after memory (t, r) op).1 (HashTable.after memory (t, r) op).2 := by
  obtain ⟨m, shows⟩ : ∃ m, t.table.Shows m := by
    obtain ⟨u, formed, housed⟩ := h
    exact formed.table_eq ▸ housed.sound.toLinked.exists_shows
  have step := h.perform shows memory op
  have still (n : Nat) (e : op = .reserve n) (why : Refusal)
      (refused : (HashTable.perform memory t r op).1 = .error why) :
      (HashTable.perform memory t r op).2 = (t, r) := by
    subst e
    dsimp only [HashTable.perform] at refused ⊢
    cases full : (t.reserve memory n).1 with
    | none =>
      rw [full] at refused
      cases refused
    | some why => rw [reserve_refused full]
  unfold HashTable.after
  generalize HashTable.perform memory t r op = x at step grows still ⊢
  obtain ⟨why | a, t', r'⟩ := x
  · rcases step with ⟨rfl, rfl⟩ | ⟨n, rfl, -⟩
    · exact h
    · cases op with
      | reserve n =>
        cases still n rfl _ rfl
        exact h
      | _ => cases grows
  · exact step.1

/-- What a run leaves is lodged, as long as memory affords it. -/
theorem Lodged.run {s : HashTable α × Keyring} (h : Lodged s.1 s.2) (memory : Nat)
    (ops : List (Op α)) (grows : affords memory ops s) :
    Lodged (run memory ops s).1 (run memory ops s).2 := by
  induction ops generalizing s with
  | nil => exact h
  | cons op ops ih =>
    obtain ⟨now, later⟩ := Bool.and_eq_true_iff.mp grows
    exact ih (h.after memory op (by simpa using now)) later

/-- A new table has eight chains, all of them empty. -/
theorem lodged_fresh (seeds : Array Seed) (supply : Supply) (home : Home) :
    Lodged (fresh (.ofSeeds seeds supply) home : HashTable α) (.ofSeeds seeds supply) := by
  refine ⟨_, ?_, Table.housed_fresh seeds supply home⟩
  cases home <;> exact ⟨_, lays_replicate rfl, by simp [view, onward, parked, fresh, inPool,
    Home.fresh, Table.inPool]⟩

end

/-- **How a table lies in memory.**  Whatever is done to a new table, it is well formed and has as
many buckets as keys or more, as long as memory affords its growth. -/
theorem wellFormed_run (memory : Nat) (seeds : Array Seed) (supply : Supply) (home : Home)
    (ops : List (Op α))
    (grows : let r := Keyring.ofSeeds seeds supply; affords memory ops (fresh r home, r)) :
    let r := Keyring.ofSeeds seeds supply
    let t := (run memory ops (fresh r home, r)).1
    t.WellFormed ∧ t.total ≤ t.buckets := by
  intro r t
  obtain ⟨u, formed, housed⟩ := Lodged.run (s := (fresh r home, r))
    (lodged_fresh seeds supply home) memory ops grows
  refine ⟨formed.wellFormed housed.sound.toCounted, ?_⟩
  rw [total_eq formed, buckets_eq formed]
  exact housed.sound.roomy

/-- An entry is deleted under the cursor, then the table grows.  The link of the entry still leads
on into a chain. -/
theorem wellFormed_run_parked :
    let r := Keyring.ofSeeds #[] {}
    let store (n : UInt8) : Op Nat := .store (.ofBytes [n]) n.toNat
    let ops := [1, 2, 3, 4, 5, 6, 7, 8].map store ++
      [.startWalk, .walk false, .delete (.ofBytes [5]) (fun _ => false) false, store 9, store 10]
    let t := (run 17 ops (fresh r (.own {}), r)).1
    affords 17 ops (fresh r (.own {}), r) ∧ t.WellFormed ∧ t.total = 9 ∧
      t.buckets = 16 ∧ t.parked = some 4 ∧ t.onward = some 1 := by
  intro r store ops t
  have grows : affords 17 ops (fresh r (.own {}), r) := by decide +kernel
  exact ⟨grows, (wellFormed_run 17 #[] {} (.own {}) ops grows).1, by decide +kernel,
    by decide +kernel, by decide +kernel, by decide +kernel⟩

end ScriptCore.HashTable
