import Mathlib.Data.List.Fold
import Mathlib.Data.List.MinMax
import ScriptCore.Proofs.Table.Sparing

/-!
# Table — how many buckets a table takes

Buckets double in two cases: the table is full, or the chain of the new key is longer than
tolerated.  In the first case the buckets that there are then are at most twice the keys.  In the
second the table *crowds*: it has room left and doubles all the same, and it keeps its seed when
the one bit that became significant divides the chain.

* `Housed.widens`: an operation that reserves no room leaves the buckets, or doubles them in one of
  the two cases.
* `buckets_le_peak`: so the buckets are at most twice the most keys there were at a time, doubled
  once more each time the table crowded; and a table that keeps its seed for good does not crowd.
* `crowded_storage`: a table may crowd over and over.  Keys whose hashes agree in their low bits
  crowd it at every store, and none of them makes it give up its seed.
-/

namespace ScriptCore.Table
variable {α : Type}

/-- What the buckets of a table become when no room is reserved: they stay, or they double because
the table was full or one of its chains as long as is tolerated.  A seed that is kept for good is
kept. -/
structure Widens (t u : Table α) : Prop where
  buckets : u.buckets = t.buckets ∨ u.buckets = t.buckets + t.buckets ∧
    (t.total = t.buckets ∨ t.mayReseed = true ∧ longestTolerated ≤ t.longestChain)
  mayReseed : u.mayReseed = true → t.mayReseed = true

/-- The most keys a table had at a time while operations were carried out. -/
def peak : List (Op α) → Table α × Keyring → Nat
  | [], s => s.1.total
  | op :: ops, s => max s.1.total (peak ops (op.after s))

/-- The operation makes a table grow that has room left. -/
def Op.crowds (s : Table α × Keyring) (op : Op α) : Bool :=
  s.1.total < s.1.buckets && s.1.buckets < (op.after s).1.buckets

/-- How often a table crowds while operations are carried out. -/
def crowdings : List (Op α) → Table α × Keyring → Nat
  | [], _ => 0
  | op :: ops, s => (op.crowds s).toNat + crowdings ops (op.after s)

section
variable {t u v : Table α} {r : Keyring} {i : Nat}

/-! ### The longest chain -/

theorem length_chain_le (t : Table α) (b : Nat) : (t.chain b).length ≤ t.longestChain := by
  rw [longestChain, List.foldl_eq_foldr, chain, Array.getD_eq_getD_getElem?]
  cases hb : t.chains[b]? with
  | none => simp
  | some c =>
    have listed : c ∈ t.chains.toList := by
      rw [List.mem_iff_getElem?]
      exact ⟨b, by rwa [Array.getElem?_toList]⟩
    exact List.le_max_of_le' 0 (List.mem_map_of_mem listed) (Nat.le_refl _)

/-- A new entry makes a chain longer by one at most. -/
theorem length_chain_link (t : Table α) (e : Entry α) (b : Nat) :
    ((t.link e).2.chain b).length ≤ (t.chain b).length + 1 := by
  have alloc : (t.allocate e).2.chains = t.chains := by
    unfold allocate
    split <;> rfl
  have chains : (t.link e).2.chains =
      t.chains.modify ((t.allocate e).2.bucketOf e.key.hash) ((t.allocate e).1 :: ·) := by
    simp only [link, alloc]
  simp only [chain, chains, Array.getD_eq_getD_getElem?, Array.getElem?_modify]
  split <;> cases t.chains[b]? <;> simp

/-! ### One operation -/

theorem Widens.of_same (buckets : u.buckets = t.buckets)
    (mayReseed : u.mayReseed = true → t.mayReseed = true) : t.Widens u := ⟨.inl buckets, mayReseed⟩

theorem Widens.refl (t : Table α) : t.Widens t := .of_same rfl id

theorem Widens.of_settings (h : u.settings = t.settings) : t.Widens u := by
  refine .of_same (congrArg Settings.buckets h) ?_
  have fixed := Fixed.of_settings h
  cases may : t.mayReseed with
  | true => exact fun _ => rfl
  | false =>
    intro given
    rw [(fixed.seed may).1] at given
    exact given

/-- **Adding.**  A table that receives an entry doubles when it was full, and when the chain of the
entry was as long as is tolerated. -/
theorem Sound.widens_add (h : t.Sound) {key : Key} (hash : key.hash = t.seed.hash key.bytes)
    (fresh : ∀ i ∈ t.chained, t.lettersAt i ≠ some key.letters) (v : α) (supply : Supply) :
    t.Widens (t.add key v supply).2.1 := by
  have fixed := (h.add key hash fresh v supply).fixed
  refine ⟨?_, fun given => ?_⟩
  · have gains := h.toLinked.link ⟨key, some v⟩
    have counted := gains.counted h.toCounted hash fresh rfl
    have longer := length_chain_link t ⟨key, some v⟩
    unfold Table.add
    generalize t.link ⟨key, some v⟩ = linked at gains counted longer
    obtain ⟨i, w⟩ := linked
    dsimp only at gains counted longer ⊢
    have buckets : w.buckets = t.buckets := congrArg Settings.buckets gains.settings
    split
    · rename_i outgrown
      refine .inr ⟨(counted.buckets_split supply).trans (by rw [buckets]), ?_⟩
      rw [Table.outgrown, Bool.or_eq_true, decide_eq_true_eq, Bool.and_eq_true,
        decide_eq_true_eq] at outgrown
      rcases outgrown with full | ⟨may, long⟩
      · -- one key more than buckets
        have roomy := h.roomy
        rw [buckets, gains.total] at full
        exact .inl (by omega)
      · have chain := longer (w.bucketOf key.hash)
        have longest := length_chain_le t (w.bucketOf key.hash)
        exact .inr ⟨(Widens.of_settings gains.settings).mayReseed may, by omega⟩
    · exact .inl buckets
  · cases may : t.mayReseed with
    | true => rfl
    | false => rwa [(fixed.seed may).1] at given

theorem Housed.widens_insertNew (h : Housed t r) {s : Spelling} (absent : t.locate s = none)
    (v : α) : t.Widens (t.insertNew r s v).2.1 := by
  have unmet := (locate_eq_none_iff h.sound.toLinked).mp absent
  obtain ⟨letters, hash, -⟩ := h.ring.keyFor h.home s
  unfold Table.insertNew
  generalize r.keyFor t.pool s t.seed = k at letters hash
  obtain ⟨key, r'⟩ := k
  exact h.sound.widens_add (by rwa [show key.bytes = s.bytes from congrArg Prod.fst letters])
    (letters ▸ unmet) v r'.supply

/-- **A step.**  An operation that reserves no room leaves the buckets, or doubles them where the
table was full or a chain as long as is tolerated. -/
theorem Op.Does.widens {r' : Keyring} {op : Op α} (does : op.Does t r u r') (h : Housed t r)
    (free : ∀ n, op ≠ .reserve n) : t.Widens u := by
  have linked := h.sound.toLinked
  cases does with
  | nothing | intern | release => exact .refl t
  | value | restrict | unrestrict => exact .of_same rfl id
  | insert _ absent => exact h.widens_insertNew absent _
  | remove found =>
    have removes := removes_remove linked ((locate_eq_some_iff linked).mp found).1
    have left := Widens.of_settings removes.settings
    exact .of_same (congrArg Settings.buckets removes.settings) left.mayReseed
  | blank =>
    obtain ⟨-, -, settings, -⟩ := linked.blanked t.chained
    have left := Widens.of_settings settings
    exact .of_same (congrArg Settings.buckets settings) left.mayReseed
  | empty => exact .of_same Array.size_map id
  | clearPlaceholders => exact .of_settings h.sound.toCounted.dropPlaceholders.2.1
  | pinSeed =>
    refine .of_same rfl fun may => ?_
    have never : t.pinSeed.mayReseed = false := by simp [Table.pinSeed, Table.mayReseed]
    exact absurd (never ▸ may) Bool.false_ne_true
  | rebucket => exact absurd rfl (free _)
  | rewind => exact .of_settings h.sound.rewind.2.1
  | step => exact .of_settings (h.sound.step _).2.1

theorem Housed.widens {s : Table α × Keyring} (h : Housed s.1 s.2) {op : Op α}
    (free : ∀ n, op ≠ .reserve n) : s.1.Widens (op.after s).1 := (op.does_after s).widens h free

/-- A table that crowds may still give up its seed, and has a chain as long as is tolerated. -/
theorem Housed.of_crowds {s : Table α × Keyring} (h : Housed s.1 s.2) {op : Op α}
    (free : ∀ n, op ≠ .reserve n) (crowds : op.crowds s = true) :
    s.1.mayReseed = true ∧ longestTolerated ≤ s.1.longestChain := by
  rw [Op.crowds, Bool.and_eq_true, decide_eq_true_eq, decide_eq_true_eq] at crowds
  obtain ⟨room, grown⟩ := crowds
  rcases (h.widens free).buckets with same | ⟨-, full | long⟩
  · exact absurd same (Nat.ne_of_gt grown)
  · exact absurd full (Nat.ne_of_lt room)
  · exact long

/-! ### Runs -/

/-- **A run.**  Only what was reached in keys, and crowding, makes the buckets more. -/
theorem Housed.buckets_run {s : Table α × Keyring} (h : Housed s.1 s.2) {ops : List (Op α)}
    (free : ∀ op ∈ ops, ∀ n, op ≠ .reserve n) :
    (Table.run ops s).1.buckets ≤ max s.1.buckets (2 * peak ops s) * 2 ^ crowdings ops s := by
  induction ops generalizing s with
  | nil => exact Nat.le_trans (Nat.le_max_left _ _) (Nat.le_of_eq (Nat.mul_one _).symm)
  | cons op ops ih =>
    obtain ⟨first, rest⟩ := List.forall_mem_cons.mp free
    refine Nat.le_trans (ih (h.after op) rest) ?_
    show max (op.after s).1.buckets (2 * peak ops (op.after s)) * 2 ^ crowdings ops (op.after s) ≤
      max s.1.buckets (2 * max s.1.total (peak ops (op.after s))) *
        2 ^ ((op.crowds s).toNat + crowdings ops (op.after s))
    rw [Nat.pow_add, ← Nat.mul_assoc]
    refine Nat.mul_le_mul_right _ ?_
    rcases (h.widens first).buckets with same | ⟨doubled, -⟩
    · have more : 1 ≤ 2 ^ (op.crowds s).toNat := Nat.one_le_two_pow
      exact Nat.le_trans (by omega) (Nat.le_mul_of_pos_right _ more)
    · rcases Nat.lt_or_ge s.1.total s.1.buckets with room | full
      · have positive := h.sound.positive
        have crowds : op.crowds s = true := by
          rw [Op.crowds, Bool.and_eq_true, decide_eq_true_eq, decide_eq_true_eq]
          exact ⟨room, by omega⟩
        rw [crowds, Bool.toNat_true, Nat.pow_one]
        omega
      · -- the buckets that there are now are twice the keys that there were
        have more : 1 ≤ 2 ^ (op.crowds s).toNat := Nat.one_le_two_pow
        exact Nat.le_trans (by omega) (Nat.le_mul_of_pos_right _ more)

/-- A table that keeps its seed for good does not crowd. -/
theorem Housed.crowdings_eq_zero {s : Table α × Keyring} (h : Housed s.1 s.2)
    (settled : s.1.mayReseed = false) {ops : List (Op α)}
    (free : ∀ op ∈ ops, ∀ n, op ≠ .reserve n) : crowdings ops s = 0 := by
  induction ops generalizing s with
  | nil => rfl
  | cons op ops ih =>
    obtain ⟨first, rest⟩ := List.forall_mem_cons.mp free
    have calm : op.crowds s = false := by
      rw [← Bool.not_eq_true]
      intro crowds
      rw [(h.of_crowds first crowds).1] at settled
      cases settled
    have settled' : (op.after s).1.mayReseed = false := by
      rw [← Bool.not_eq_true]
      intro may
      rw [(h.widens first).mayReseed may] at settled
      cases settled
    show (op.crowds s).toNat + crowdings ops (op.after s) = 0
    rw [calm, ih (h.after op) settled' rest]
    rfl

end

/-- **How many buckets a table takes.**  Whatever is done to a new table but reserving room: its
buckets are at most eight or twice the most keys it had at a time, doubled once more each time it
crowded.  So they are at most four times eight or those keys unless it crowded twice.  It crowds
only on a chain as long as is tolerated, and never again once it keeps its seed for good, be it
pinned or drawn. -/
theorem buckets_le_peak (seeds : Array Seed) (supply : Supply) (home : Home) (ops : List (Op α))
    (free : ∀ op ∈ ops, ∀ n, op ≠ .reserve n) :
    let r := Keyring.ofSeeds seeds supply
    let s := (home.fresh r, r)
    let t := (run ops s).1
    t.buckets ≤ max 8 (2 * peak ops s) * 2 ^ crowdings ops s ∧
      (crowdings ops s ≤ 1 → t.buckets ≤ 4 * max 8 (peak ops s)) ∧
      ∀ before after, ops = before ++ after →
        (∀ op ∈ after.head?, op.crowds (run before s) = true →
          longestTolerated ≤ (run before s).1.longestChain) ∧
        ((run before s).1.mayReseed = false → crowdings after (run before s) = 0) := by
  intro r s t
  have housed : Housed s.1 s.2 := housed_fresh seeds supply home
  have eight : s.1.buckets = 8 := by
    simp only [s]
    cases home <;> exact Array.size_replicate
  have most : t.buckets ≤ max 8 (2 * peak ops s) * 2 ^ crowdings ops s :=
    eight ▸ housed.buckets_run free
  refine ⟨most, fun once => ?_, fun before after split => ?_⟩
  · have twice : 2 ^ crowdings ops s ≤ 2 := Nat.pow_le_pow_right Nat.two_pos once
    calc t.buckets ≤ max 8 (2 * peak ops s) * 2 := Nat.le_trans most (Nat.mul_le_mul_left _ twice)
      _ ≤ 4 * max 8 (peak ops s) := by omega
  · subst split
    have reached : Housed (run before s).1 (run before s).2 :=
      (housed.run (shows_fresh r home) before).1
    have rest : ∀ op ∈ after, ∀ n, op ≠ .reserve n := fun op hop =>
      free op (List.mem_append_right _ hop)
    refine ⟨fun op hop crowds => ?_, fun settled => reached.crowdings_eq_zero settled rest⟩
    exact (reached.of_crowds (rest op (List.mem_of_mem_head? hop)) crowds).2

/-- Two keys: no bucket more than there were. -/
theorem buckets_le_peak_two :
    let r := Keyring.ofSeeds #[] {}
    let s := ((Home.own {}).fresh r, r)
    let ops : List (Op Nat) := [.store (.ofText "a") 1, .pinSeed, .store (.ofText "b") 2]
    (∀ op ∈ ops, ∀ n, op ≠ .reserve n) ∧ (run ops s).1.buckets ≤ 4 * max 8 (peak ops s) ∧
      peak ops s = 2 ∧ crowdings ops s = 0 := by
  intro r s ops
  have free : ∀ op ∈ ops, ∀ n, op ≠ .reserve n := by simp [ops]
  have calm : crowdings ops s = 0 := by decide +kernel
  have once : crowdings ops s ≤ 1 := by
    rw [calm]
    exact Nat.zero_le 1
  obtain ⟨-, bound, -⟩ := buckets_le_peak #[] {} (.own {}) ops free
  exact ⟨free, bound once, by decide +kernel, calm⟩

/-- **Storage that is not linear in the keys.**  The hashes of seventeen keys agree in their low
bits, so that the last three each make a chain longer than tolerated: the buckets double from 16 to
128, and the table keeps its seed. -/
theorem crowded_storage :
    let r := Keyring.ofSeeds #[] {}
    let s := ((Home.own {}).fresh r, r)
    let names := ["abq", "adp", "aer", "agk", "ahx", "amj", "ams", "asd", "ayt", "bcc", "bgu",
      "bhb", "bkh", "bkr", "aav", "aec", "aez"]
    let ops : List (Op Nat) := names.map fun name => .store (.ofText name) 0
    let t := (run ops s).1
    4 * max 8 (peak ops s) < t.buckets ∧ t.buckets = 128 ∧ peak ops s = 17 ∧
      crowdings ops s = 3 ∧ t.mayReseed = true := by
  decide +kernel

end ScriptCore.Table
