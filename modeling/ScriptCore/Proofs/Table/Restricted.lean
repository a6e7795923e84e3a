import ScriptCore.Proofs.Table.Changes

/-!
# Table — restricted tables

The set of keys of a restricted table is fixed: a later table has the same keys in the same places
(`SameKeys`), whatever became of their values.  What is refused is told from the set and the values
alone (`Strict`): to store outside the set, to delete outside it, and to delete or clear a value
that is read-only.

* `Op.Does.sameKeys`: one operation on a restricted table, unless it lifts the restriction or clears
  placeholders, leaves the same keys.
* `restricted_run`: so does every run of them; the rules of refusal hold all along; and what is
  refused, on this or on any table, changes nothing.
-/

namespace ScriptCore.Table
variable {α : Type}

/-- `u` has the keys of `t`, each in the place it had there. -/
structure SameKeys (t u : Table α) : Prop where
  chained : u.chained.Perm t.chained
  key : ∀ i ∈ t.chained, (u.entry? i).map (·.key) = (t.entry? i).map (·.key)
  total : u.total = t.total
  seed : u.seed = t.seed
  restricted : u.restricted = t.restricted

/-- To who asks, `u` has the set of keys of `t`: the same spellings have an entry, under the same
keys. -/
structure SameSet (t u : Table α) : Prop where
  presence : ∀ k, u.presence k = .absent ↔ t.presence k = .absent
  storedKey : ∀ k, u.storedKey? k = t.storedKey? k
  total : u.total = t.total

/-- When a table refuses, and with which reason. -/
structure Strict (t : Table α) (r : Keyring) : Prop where
  store : ∀ k v e, t.store r k v = .error e ↔
    t.presence k = .absent ∧ e = .ofKey k.bytes .disallowedKey
  fetchOrStore : ∀ k v e, t.fetchOrStore r k v = .error e ↔
    t.presence k = .absent ∧ e = .ofKey k.bytes .disallowedKey
  delete : ∀ readOnly k e, t.delete r readOnly k = .error e ↔
    t.presence k = .absent ∧ e = .ofKey k.bytes .deleteDisallowed ∨
      (∃ v, t.fetch? k = some v ∧ readOnly v = true) ∧ e = .ofKey k.bytes .deleteReadOnly
  clear : ∀ readOnly, (∃ e, t.clear r readOnly = .error e) ↔
    ∃ k v, t.fetch? k = some v ∧ readOnly v = true
  cleared : ∀ readOnly gone u r', t.clear r readOnly = .ok (gone, u, r') →
    t.SameKeys u ∧ (∀ i ∈ u.chained, u.isPlaceholder i = true) ∧ u.placeholders = t.total

/-- The operation neither lifts a restriction nor clears placeholders. -/
def Op.KeepsSet : Op α → Prop
  | unrestrict => False
  | clearPlaceholders => False
  | _ => True

section
variable {t u v : Table α} {r : Keyring} {i : Nat}

/-! ### Tables with the same keys -/

theorem SameKeys.refl (t : Table α) : t.SameKeys t := ⟨.refl _, fun _ _ => rfl, rfl, rfl, rfl⟩

theorem SameKeys.trans (h : t.SameKeys u) (h' : u.SameKeys v) : t.SameKeys v where
  chained := h'.chained.trans h.chained
  key i hi := (h'.key i (h.chained.mem_iff.mpr hi)).trans (h.key i hi)
  total := h'.total.trans h.total
  seed := h'.seed.trans h.seed
  restricted := h'.restricted.trans h.restricted

/-- Same keys spell the same. -/
theorem SameKeys.lettersAt (h : t.SameKeys u) (hi : i ∈ t.chained) :
    u.lettersAt i = t.lettersAt i := by
  have letters := congrArg (Option.map Key.letters) (h.key i hi)
  simpa [Table.lettersAt, Function.comp_def] using letters

/-- A spelling has the place it had. -/
theorem SameKeys.locate (h : t.SameKeys u) (linked : t.Linked) (linked' : u.Linked)
    (k : Spelling) : u.locate k = t.locate k := by
  refine Option.ext fun i => ?_
  rw [locate_eq_some_iff linked, locate_eq_some_iff linked', h.chained.mem_iff]
  refine and_congr_right fun hi => ?_
  rw [h.lettersAt hi]

/-- A spelling has the key it had. -/
theorem SameKeys.storedKey? (h : t.SameKeys u) (linked : t.Linked) (linked' : u.Linked)
    (k : Spelling) : u.storedKey? k = t.storedKey? k := by
  unfold Table.storedKey?
  rw [h.locate linked linked']
  cases found : t.locate k with
  | none => rfl
  | some i => exact h.key i ((locate_eq_some_iff linked).mp found).1

theorem presence_eq_absent_iff (t : Table α) (k : Spelling) :
    t.presence k = .absent ↔ t.locate k = none := by
  unfold presence
  cases t.locate k with
  | none => simp
  | some i =>
    dsimp only
    split <;> simp

/-- A value may change, and so may the count of placeholders and the cursor. -/
theorem sameKeys_setValue (t : Table α) (i : Nat) (v : Option α) (placeholders : Nat) :
    t.SameKeys { t.setValue i v with placeholders } where
  chained := .refl _
  key j _ := by
    show (Table.entry? (t.setValue i v) j).map (·.key) = _
    rw [entry?_setValue]
    split
    · simp [Function.comp_def]
    · rfl
  total := rfl
  seed := rfl
  restricted := rfl

theorem sameKeys_blanked (t : Table α) (places : List Nat) :
    t.SameKeys (places.foldl (fun t i => t.setValue i none) t) := by
  induction places generalizing t with
  | nil => exact .refl t
  | cons i places ih => exact (sameKeys_setValue t i none t.placeholders).trans (ih _)

theorem Settles.sameKeys (h : t.Settles u) (c : Cursor) :
    t.SameKeys { u with cursor := c } where
  chained := by
    show (u.chains.toList.flatten).Perm _
    rw [h.chains]
    exact .refl _
  key i hi := congrArg (Option.map (·.key)) (h.entries i hi)
  total := h.total
  seed := congrArg Settings.seed h.settings
  restricted := congrArg Settings.restricted h.settings

/-! ### One operation -/

theorem sameKeys_rebucket (t : Table α) (n : Nat) :
    t.SameKeys (t.rebucket (powerAbove n)) :=
  have positive := Nat.pos_of_isPowerOfTwo (isPowerOfTwo_powerAbove n)
  ⟨chained_rebucket t positive, fun _ _ => rfl, rfl, rfl, rfl⟩

theorem sameKeys_step (linked : t.Linked) (w : Bool) : t.SameKeys (t.step w).2.1 := by
  have settled := settles_settle linked
  unfold Table.step
  dsimp only
  split
  · exact settled.sameKeys _
  · exact settled.sameKeys _

/-- **A step.**  An operation on a restricted table leaves it its keys. -/
theorem Op.Does.sameKeys {r' : Keyring} {op : Op α} (does : op.Does t r u r') (linked : t.Linked)
    (restricted : t.restricted = true) (keeps : op.KeepsSet) : t.SameKeys u := by
  have closed : t.restricted ≠ false := fun free => by cases restricted.symm.trans free
  cases does with
  | nothing | intern | release => exact .refl t
  | value _ v n => exact sameKeys_setValue t _ v n
  | insert _ _ free => exact absurd free closed
  | remove _ free => exact absurd free closed
  | empty free => exact absurd free closed
  | blank =>
    have blanked := sameKeys_blanked t t.chained
    exact ⟨blanked.chained, blanked.key, blanked.total, blanked.seed, blanked.restricted⟩
  | clearPlaceholders | unrestrict => exact keeps.elim
  | restrict => exact ⟨.refl _, fun _ _ => rfl, rfl, rfl, restricted.symm⟩
  | pinSeed => exact ⟨.refl _, fun _ _ => rfl, rfl, rfl, rfl⟩
  | rebucket => exact sameKeys_rebucket t _
  | rewind => exact (settles_settle linked).sameKeys {}
  | step => exact sameKeys_step linked _

/-! ### Refusals -/

theorem store_eq_error_iff {k : Spelling} {w : α} {e : Refusal} :
    t.store r k w = .error e ↔
      t.restricted = true ∧ t.presence k = .absent ∧ e = .ofKey k.bytes .disallowedKey := by
  unfold Table.store
  rw [presence_eq_absent_iff]
  cases t.locate k with
  | none => by_cases restricted : t.restricted = true <;> simp [restricted, eq_comm (a := e)]
  | some i => simp

theorem fetchOrStore_eq_error_iff {k : Spelling} {w : α} {e : Refusal} :
    t.fetchOrStore r k w = .error e ↔
      t.restricted = true ∧ t.presence k = .absent ∧ e = .ofKey k.bytes .disallowedKey := by
  unfold Table.fetchOrStore
  rw [← store_eq_error_iff (r := r) (w := w)]
  cases found : t.fetch? k with
  | some old =>
    -- what has a value has an entry
    have there : t.locate k ≠ none := by
      intro none
      simp [Table.fetch?, none] at found
    rw [store_eq_error_iff, presence_eq_absent_iff]
    simp [there]
  | none => cases t.store r k w <;> simp [Except.map]

theorem delete_eq_error_iff {readOnly : α → Bool} {k : Spelling} {e : Refusal} :
    t.delete r readOnly k = .error e ↔ t.restricted = true ∧
      (t.presence k = .absent ∧ e = .ofKey k.bytes .deleteDisallowed ∨
        (∃ v, t.fetch? k = some v ∧ readOnly v = true) ∧
          e = .ofKey k.bytes .deleteReadOnly) := by
  unfold Table.delete Table.fetch?
  rw [presence_eq_absent_iff]
  cases t.locate k with
  | none => by_cases restricted : t.restricted = true <;> simp [restricted, eq_comm (a := e)]
  | some i =>
    cases value : t.valueAt i with
    | none => simp [value]
    | some v =>
      by_cases restricted : t.restricted = true <;> by_cases ro : readOnly v = true <;>
        simp [value, restricted, ro, eq_comm (a := e)]

theorem clear_eq_error_iff {readOnly : α → Bool} {e : Refusal} :
    t.clear r readOnly = .error e ↔ t.restricted = true ∧
      ∃ kv, t.toList.find? (fun kv => readOnly kv.2) = some kv ∧
        e = .ofKey kv.1.bytes .clearReadOnly := by
  unfold Table.clear
  by_cases restricted : t.restricted = true
  · rw [if_pos restricted]
    cases t.toList.find? fun kv => readOnly kv.2 <;> simp [restricted, eq_comm (a := e)]
  · rw [if_neg restricted]
    simp [restricted]

/-- A pair that is listed is what its spelling fetches. -/
theorem Linked.exists_fetch?_iff (h : t.Linked) {P : α → Prop} :
    (∃ k v, t.fetch? k = some v ∧ P v) ↔ ∃ e ∈ t.toList, P e.2 := by
  obtain ⟨m, shows⟩ := h.exists_shows
  have listed (x : Bytes × Bool) (v : α) :
      t.Binds x (some v) ↔ ∃ e ∈ t.toList, e.1.letters = x ∧ e.2 = v := by
    rw [← mem_live_iff, ← map_toList]
    simp [and_comm]
  constructor
  · rintro ⟨k, v, found, hv⟩
    rw [shows.fetch? h, shows, listed] at found
    obtain ⟨e, he, -, rfl⟩ := found
    exact ⟨e, he, hv⟩
  · rintro ⟨⟨k, v⟩, he, hv⟩
    refine ⟨.ofKey k, v, ?_, hv⟩
    rw [shows.fetch? h, shows, listed]
    exact ⟨_, he, rfl, rfl⟩

theorem Linked.exists_clear_eq_error_iff (h : t.Linked) (restricted : t.restricted = true)
    (readOnly : α → Bool) : (∃ e, t.clear r readOnly = .error e) ↔
      ∃ k v, t.fetch? k = some v ∧ readOnly v = true := by
  rw [h.exists_fetch?_iff (P := fun v => readOnly v = true)]
  simp only [clear_eq_error_iff, restricted, true_and]
  cases found : t.toList.find? (fun e => readOnly e.2) with
  | none => simpa using List.find?_eq_none.mp found
  | some e =>
    have hit := List.find?_some found
    have listed := List.mem_of_find?_eq_some found
    exact iff_of_true ⟨_, e, rfl, rfl⟩ ⟨e, listed, hit⟩

/-- **Clearing** leaves a placeholder for every key. -/
theorem Linked.cleared (h : t.Linked) (restricted : t.restricted = true) {readOnly : α → Bool}
    {gone : List α} {r' : Keyring} (e : t.clear r readOnly = .ok (gone, u, r')) :
    t.SameKeys u ∧ (∀ i ∈ u.chained, u.isPlaceholder i = true) ∧ u.placeholders = t.total := by
  have does := (does_clear t r readOnly).of_ok e
  have same := does.sameKeys h restricted trivial
  unfold Table.clear at e
  rw [if_pos restricted] at e
  split at e
  · cases e
  · cases e
    obtain ⟨-, -, -, total, content⟩ := h.blanked t.chained
    refine ⟨same, fun i hi => ?_, total⟩
    have hi : i ∈ t.chained := same.chained.mem_iff.mp hi
    obtain ⟨e, he⟩ := h.entry_eq hi
    show isPlaceholder (t.chained.foldl (fun t i => t.setValue i none) t) i = true
    rw [isPlaceholder_eq, content, if_pos hi]
    simp [contentAt, he]

theorem Linked.strict (h : t.Linked) (restricted : t.restricted = true) : t.Strict r where
  store _ _ _ := store_eq_error_iff.trans (and_iff_right restricted)
  fetchOrStore _ _ _ := fetchOrStore_eq_error_iff.trans (and_iff_right restricted)
  delete _ _ _ := delete_eq_error_iff.trans (and_iff_right restricted)
  clear := h.exists_clear_eq_error_iff restricted
  cleared _ _ _ _ := h.cleared restricted

/-! ### Runs -/

/-- **A run.**  A restricted table keeps its keys and its restriction. -/
theorem Housed.locked_run {s : Table α × Keyring} (h : Housed s.1 s.2)
    (restricted : s.1.restricted = true) {ops : List (Op α)} (keep : ∀ op ∈ ops, op.KeepsSet) :
    Housed (Table.run ops s).1 (Table.run ops s).2 ∧ s.1.SameKeys (Table.run ops s).1 := by
  induction ops generalizing s with
  | nil => exact ⟨h, .refl s.1⟩
  | cons op ops ih =>
    obtain ⟨first, rest⟩ := List.forall_mem_cons.mp keep
    have same := (op.does_after s).sameKeys h.sound.toLinked restricted first
    obtain ⟨housed, same'⟩ := ih (h.after op) (same.restricted.trans restricted) rest
    exact ⟨housed, same.trans same'⟩

theorem SameKeys.sameSet (h : t.SameKeys u) (linked : t.Linked) (linked' : u.Linked) :
    t.SameSet u where
  presence k := by rw [presence_eq_absent_iff, presence_eq_absent_iff, h.locate linked linked']
  storedKey := h.storedKey? linked linked'
  total := h.total

/-- A restricted table denies; any table may be asked for more room than there is. -/
def Refused (t : Table α) (op : Op α) (e : Refusal) : Prop :=
  t.restricted = true ∧ (∃ key why, e = .denied key why) ∨
    (∃ n, op = .reserve n) ∧ ∃ n, e = .outOfMemory n

theorem outOfMemory_of_reserve {n : Nat} {e : Refusal} (he : t.reserve n = .error e) :
    ∃ n, e = .outOfMemory n := by
  unfold Table.reserve at he
  dsimp only at he
  split at he
  · exact ⟨_, (Except.error.inj he).symm⟩
  · split at he
    · cases he
    · split at he
      · exact ⟨_, (Except.error.inj he).symm⟩
      · cases he

/-- **What is refused** changes nothing, and is refused for one of two causes. -/
theorem Op.after_of_error {s : Table α × Keyring} {op : Op α} {e : Refusal}
    (he : op.perform s.1 s.2 = .error e) : op.after s = s ∧ s.1.Refused op e := by
  have unmapped {β γ : Type} {f : β → γ} {x : Except Refusal β} (hx : x.map f = .error e) :
      x = .error e := by
    cases x with
    | error e' => exact congrArg Except.error (Except.error.inj hx)
    | ok b => cases hx
  constructor
  · unfold Op.after
    rw [he]
  cases op with
  | store =>
    obtain ⟨restricted, -, rfl⟩ := store_eq_error_iff.mp (unmapped he)
    exact .inl ⟨restricted, _, _, rfl⟩
  | fetchOrStore =>
    obtain ⟨restricted, -, rfl⟩ := fetchOrStore_eq_error_iff.mp (unmapped he)
    exact .inl ⟨restricted, _, _, rfl⟩
  | delete =>
    obtain ⟨restricted, ⟨-, rfl⟩ | ⟨-, rfl⟩⟩ := delete_eq_error_iff.mp (unmapped he) <;>
      exact .inl ⟨restricted, _, _, rfl⟩
  | clear =>
    obtain ⟨restricted, _, -, rfl⟩ := clear_eq_error_iff.mp (unmapped he)
    exact .inl ⟨restricted, _, _, rfl⟩
  | reserve n => exact .inr ⟨⟨n, rfl⟩, outOfMemory_of_reserve (unmapped he)⟩
  | _ => cases he

end

/-- **While a table is restricted.**  Whatever was done to a new table before it was restricted, and
whatever is done to it while it is, but for clearing placeholders: its set of keys is the same, and
the rules of refusal hold.  What is refused, of a restricted table or of any other, leaves the
table as it was; only restricted tables deny, and only reserving runs out of memory. -/
theorem restricted_run (seeds : Array Seed) (supply : Supply) (home : Home)
    (ops locked : List (Op α)) (keep : ∀ op ∈ locked, op.KeepsSet) :
    let r := Keyring.ofSeeds seeds supply
    let s := Op.restrict.after (run ops (home.fresh r, r))
    let u := run locked s
    s.1.SameSet u.1 ∧ u.1.Strict u.2 ∧
      ∀ (any : Table α × Keyring) (op : Op α) (e : Refusal),
        op.perform any.1 any.2 = .error e → op.after any = any ∧ any.1.Refused op e := by
  intro r s u
  obtain ⟨housed, -⟩ := Housed.run (s := (home.fresh r, r)) (housed_fresh seeds supply home)
    (shows_fresh r home) ops
  have before : Housed s.1 s.2 := housed.after .restrict
  obtain ⟨after, same⟩ := before.locked_run rfl keep
  have linked := after.sound.toLinked
  exact ⟨same.sameSet before.sound.toLinked linked, linked.strict same.restricted,
    fun _ _ _ => Op.after_of_error⟩

/-- A walk over a restricted table, from which everything is deleted on the way. -/
theorem restricted_run_walk :
    let r := Keyring.ofSeeds #[] {}
    let stores : List (Op Nat) := [.store (.ofText "a") 1, .store (.ofText "b") 2]
    let s := Op.restrict.after (run stores ((Home.pool 0).fresh r, r))
    let locked : List (Op Nat) := [.startWalk, .walk false, .delete (.ofText "a") (· == 2) true,
      .delete (.ofText "b") (· == 2) false, .clear (· == 3), .walk true, .store (.ofText "c") 3]
    (∀ op ∈ locked, op.KeepsSet) ∧ s.1.SameSet (run locked s).1 ∧ s.1.total = 2 := by
  intro r stores s locked
  have keep : ∀ op ∈ locked, op.KeepsSet := by simp [locked, Op.KeepsSet]
  exact ⟨keep, (restricted_run #[] {} (.pool 0) stores locked keep).1, by decide +kernel⟩

end ScriptCore.Table
