import ScriptCore.Proofs.Table.Update

/-!
# Table — everything one can do to a table

An `Op` is one operation on a table, or what another user of its pool does meanwhile; `run` goes
on after those that are refused.

* `sound_run`: whatever is done to a new table, its places hang together and its counts are
  right.
* `run_agrees`: it always answers from the finite map that the operations make, of which the
  refused ones make nothing.

Seeds are drawn from any supply there may be, so both hold of whatever seed a table turns to.
-/

namespace ScriptCore.Table
variable {α : Type}

/-- An operation on a table, or on the pools beside it. -/
inductive Op (α : Type)
  | fetch (s : Spelling)
  | contains (s : Spelling)
  | store (s : Spelling) (v : α)
  | change (s : Spelling) (f : α → α)
  | fetchOrStore (s : Spelling) (v : α)
  | delete (s : Spelling) (readOnly : α → Bool) (discards : Bool)
  | clear (readOnly : α → Bool)
  | clearPlaceholders
  | restrict
  | unrestrict
  | pinSeed
  | reserve (expected : Nat)
  | startWalk
  | walk (withPlaceholders : Bool)
  | intern (p : Nat) (s : Spelling)
  | release (p : Nat) (k : Key)

/-- What an operation answers. -/
inductive Answer (α : Type)
  | nothing
  | value (v : Option α)
  | truth (b : Bool)
  | count (n : Nat)
  | key (k : Option Key)

/-- Carries out an operation. -/
def Op.perform (t : Table α) (r : Keyring) :
    Op α → Except Refusal (Answer α × Table α × Keyring)
  | fetch s => .ok (.value (t.fetch? s), t, r)
  | contains s => .ok (.truth (t.contains s), t, r)
  | store s v => (t.store r s v).map fun (old, t, r) => (.value old, t, r)
  | change s f => let (new, t) := t.modify s f; .ok (.value new, t, r)
  | fetchOrStore s v => (t.fetchOrStore r s v).map fun (v, t, r) => (.value (some v), t, r)
  | delete s readOnly discards => (t.delete r readOnly s).map fun (old, t, r) =>
    (.value (if discards then none else old), t, r)
  | clear readOnly => (t.clear r readOnly).map fun (_, t, r) => (.nothing, t, r)
  | clearPlaceholders => let (t, r) := t.clearPlaceholders r; .ok (.nothing, t, r)
  | restrict => .ok (.nothing, t.restrict, r)
  | unrestrict => .ok (.nothing, t.unrestrict, r)
  | pinSeed => .ok (.nothing, t.pinSeed, r)
  | reserve n => (t.reserve n).map fun t => (.nothing, t, r)
  | startWalk => let (n, t, r) := t.startWalk r; .ok (.count n, t, r)
  | walk withPlaceholders => let (k, t, r) := t.walk r withPlaceholders; .ok (.key k, t, r)
  | intern p s => .ok (.nothing, t, (r.intern p s).2)
  | release p k => .ok (.nothing, t, (r.release p k).2)

/-- What holds of the table and the keyring that something leaves, unless it is refused. -/
def Leaves (P : Table α → Keyring → Prop) {β : Type} :
    Except Refusal (β × Table α × Keyring) → Prop
  | .ok (_, u, r) => P u r
  | .error _ => True

theorem Leaves.map {β γ : Type} {P : Table α → Keyring → Prop}
    {x : Except Refusal (β × Table α × Keyring)} (h : Leaves P x) (f : β → γ) :
    Leaves P (x.map fun (b, t, r) => (f b, t, r)) := by
  cases x with
  | error => trivial
  | ok result => exact h

/-- What is left after an operation: a refused one leaves all as it was. -/
def Op.after (s : Table α × Keyring) (op : Op α) : Table α × Keyring :=
  match op.perform s.1 s.2 with
  | .ok (_, s) => s
  | .error _ => s

/-- Carries out operations one after the other. -/
def run (ops : List (Op α)) (s : Table α × Keyring) : Table α × Keyring := ops.foldl Op.after s

/-- Where a new table has its keys from. -/
inductive Home
  | own (seed : Seed)
  | pool (p : Nat)

/-- A new table. -/
def Home.fresh (r : Keyring) : Home → Table α
  | own seed => { seed }
  | pool p => .inPool r p

/-! ### Operations on a map -/

/-- What an operation makes of a map. -/
def Op.effect (m : Contents α) : Op α → Contents α
  | store s v => m.insert s.letters v
  | change s f => (m.lookup s.letters).elim m fun v => m.insert s.letters (f v)
  | fetchOrStore s v => if s.letters ∈ m then m else m.insert s.letters v
  | delete s _ _ => m.erase s.letters
  | clear _ => ∅
  | _ => m

/-- What an operation may answer on a map.  Which key a walk comes to, the map does not say. -/
def Op.Answers (m : Contents α) (a : Answer α) : Op α → Prop
  | fetch s => a = .value (m.lookup s.letters)
  | contains s => a = .truth (decide (s.letters ∈ m))
  | store s _ => a = .value (m.lookup s.letters)
  | change s f => a = .value ((m.lookup s.letters).map f)
  | fetchOrStore s v => a = .value (some ((m.lookup s.letters).getD v))
  | delete s _ discards => a = .value (if discards then none else m.lookup s.letters)
  | startWalk => a = .count m.keys.card
  | walk _ => ∃ k, a = .key k
  | _ => a = .nothing

/-- The map that the operations on a table make, of which the refused ones make nothing. -/
def mapAfter : List (Op α) → Table α × Keyring → Contents α → Contents α
  | [], _, m => m
  | op :: ops, s, m =>
    mapAfter ops (op.after s) (if (op.perform s.1 s.2).isOk then op.effect m else m)

/-! ### Steps and runs -/

section
variable {t : Table α} {r : Keyring} {m : Contents α}

/-- **A step.**  An operation on a housed table does and answers what it does on the map, or is
refused, for which the table must be restricted or the buckets too many. -/
theorem Housed.perform (h : Housed t r) (shows : t.Shows m) (op : Op α) :
    match op.perform t r with
    | .ok (a, u, r') => Housed u r' ∧ u.Shows (op.effect m) ∧ op.Answers m a
    | .error _ => t.restricted = true ∨ ∃ n, op = .reserve n := by
  cases op with
  | fetch s => exact ⟨h, shows, congrArg _ (shows.fetch? h.sound.toLinked s)⟩
  | contains s =>
    refine ⟨h, shows, congrArg _ ?_⟩
    rw [Bool.eq_iff_iff, decide_eq_true_iff]
    exact shows.contains h.sound.toLinked s
  | store s v =>
    have := h.store shows s v
    dsimp only [Op.perform]
    cases e : t.store r s v with
    | error => exact Or.inl (by rwa [e] at this)
    | ok =>
      rw [e] at this
      exact ⟨this.1, this.2.1, congrArg _ this.2.2.1⟩
  | change s f =>
    obtain ⟨housed, shown, value⟩ := h.modify shows s f
    exact ⟨housed, shown, congrArg _ value⟩
  | fetchOrStore s v =>
    have := h.fetchOrStore shows s v
    dsimp only [Op.perform]
    cases e : t.fetchOrStore r s v with
    | error => exact Or.inl (by rwa [e] at this)
    | ok =>
      rw [e] at this
      exact ⟨this.1, this.2.1, congrArg (Answer.value ∘ some) this.2.2⟩
  | delete s readOnly discards =>
    have := h.delete shows readOnly s
    dsimp only [Op.perform]
    cases e : t.delete r readOnly s with
    | error => exact Or.inl (by rwa [e] at this)
    | ok =>
      rw [e] at this
      refine ⟨this.1, this.2.1, ?_⟩
      rw [this.2.2.1]
      rfl
  | clear readOnly =>
    dsimp only [Op.perform]
    cases e : t.clear r readOnly with
    | error => exact Or.inl (restricted_of_clear e)
    | ok =>
      obtain ⟨housed, shown⟩ := h.clear e
      exact ⟨housed, shown, rfl⟩
  | clearPlaceholders =>
    obtain ⟨housed, shown⟩ := h.clearPlaceholders shows
    exact ⟨housed, shown, rfl⟩
  | restrict =>
    obtain ⟨housed, shown⟩ := h.setMarks shows true t.pinned
    exact ⟨housed, shown, rfl⟩
  | unrestrict =>
    obtain ⟨housed, shown⟩ := h.setMarks shows false t.pinned
    exact ⟨housed, shown, rfl⟩
  | pinSeed =>
    obtain ⟨housed, shown⟩ := h.setMarks shows t.restricted true
    exact ⟨housed, shown, rfl⟩
  | reserve n =>
    dsimp only [Op.perform]
    cases e : t.reserve n with
    | error => exact Or.inr ⟨n, rfl⟩
    | ok =>
      obtain ⟨housed, shown⟩ := h.reserve shows e
      exact ⟨housed, shown, rfl⟩
  | startWalk =>
    obtain ⟨housed, shown, count⟩ := h.startWalk shows
    exact ⟨housed, shown, congrArg _ (count.trans (h.sound.agrees shows).size)⟩
  | walk w =>
    obtain ⟨housed, shown⟩ := h.walk shows w
    exact ⟨housed, shown, _, rfl⟩
  | intern p s =>
    exact ⟨h.of_sound h.sound (h.ring.intern p s).2.2 rfl rfl, shows, rfl⟩
  | release p k =>
    exact ⟨h.of_sound h.sound (h.ring.release p k) rfl rfl, shows, rfl⟩

/-- **A run.**  A housed table stays housed, and shows the map that the operations make. -/
theorem Housed.run {s : Table α × Keyring} (h : Housed s.1 s.2) (shows : s.1.Shows m)
    (ops : List (Op α)) :
    Housed (run ops s).1 (run ops s).2 ∧ (run ops s).1.Shows (mapAfter ops s m) := by
  induction ops generalizing s m with
  | nil => exact ⟨h, shows⟩
  | cons op ops ih =>
    have step := h.perform shows op
    have : Housed (op.after s).1 (op.after s).2 ∧ (op.after s).1.Shows
        (if (op.perform s.1 s.2).isOk then op.effect m else m) := by
      unfold Op.after
      cases e : op.perform s.1 s.2 with
      | error => exact ⟨h, shows⟩
      | ok =>
        rw [e] at step
        exact ⟨step.1, step.2.1⟩
    exact ih this.1 this.2

/-- A new table in sound pools. -/
theorem Home.housed (sound : r.Sound) (home : Home) : Housed (home.fresh r : Table α) r := by
  cases home with
  | own seed => exact ⟨sound_new seed false none, sound, nofun⟩
  | pool p =>
    refine ⟨sound_new _ false (some p), sound, fun q hq => ?_⟩
    cases hq
    rfl

/-- A new table in pools without a key. -/
theorem housed_fresh (seeds : Array Seed) (supply : Supply) (home : Home) :
    Housed (home.fresh (.ofSeeds seeds supply) : Table α) (.ofSeeds seeds supply) :=
  home.housed (Keyring.sound_ofSeeds seeds supply)

/-- What is left of a housed table is housed. -/
theorem Housed.after {s : Table α × Keyring} (h : Housed s.1 s.2) (op : Op α) :
    Housed (op.after s).1 (op.after s).2 := by
  obtain ⟨m, shows⟩ := h.sound.toLinked.exists_shows
  exact (h.run shows [op]).1

theorem shows_fresh (r : Keyring) (home : Home) : (home.fresh r : Table α).Shows ∅ := by
  intro x v
  rw [Finmap.lookup_empty]
  refine iff_of_false (by simp) ?_
  cases home <;> exact not_binds_new

end

/-- A bucket is the low bits of a hash. -/
theorem Counted.bucketOf_eq_and {t : Table α} (h : t.Counted) (hash : UInt32) :
    t.bucketOf hash = hash.toNat &&& (t.buckets - 1) := by
  obtain ⟨k, hk⟩ := h.power
  rw [bucketOf, hk, Nat.and_two_pow_sub_one_eq_mod]

/-- **How the places of a table hang together.**  Whatever is done to a new table, it is sound: its
buckets are a power of two and at least its keys; every place is chained, free or parked, once;
what is chained is filled, hashed by the seed, in the bucket of its hash and different from the
rest; the counts are right; the cursor stands on an entry and goes on from a chained one. -/
theorem sound_run (seeds : Array Seed) (supply : Supply) (home : Home) (ops : List (Op α)) :
    let r := Keyring.ofSeeds seeds supply
    let t := (run ops (home.fresh r, r)).1
    t.Sound ∧ (∀ b i, i ∈ t.chain b → (t.hashAt i).toNat &&& (t.buckets - 1) = b) ∧
      ∀ i, t.cursor.current = some i → (t.entry? i).isSome = true := by
  intro r t
  have h : t.Sound := (Housed.run (s := (home.fresh r, r)) (housed_fresh seeds supply home)
    (shows_fresh r home) ops).1.sound
  refine ⟨h, fun b i hi => ?_, fun i hi => h.filled i (h.standing i hi)⟩
  rw [← h.bucketOf_eq_and]
  exact h.placed b i hi

/-- **Which map a table is.**  Whatever was done to a new table, it answers from the map that the
operations made; and the next operation does and answers what it does on that map, or is refused,
for which the table must be restricted or the buckets too many. -/
theorem run_agrees (seeds : Array Seed) (supply : Supply) (home : Home) (ops : List (Op α))
    (op : Op α) :
    let r := Keyring.ofSeeds seeds supply
    let s := run ops (home.fresh r, r)
    let m := mapAfter ops (home.fresh r, r) ∅
    s.1.Agrees m ∧ match op.perform s.1 s.2 with
      | .ok (a, u, _) => op.Answers m a ∧ u.Agrees (op.effect m)
      | .error _ => s.1.restricted = true ∨ ∃ n, op = .reserve n := by
  intro r s m
  obtain ⟨housed, shown⟩ := Housed.run (s := (home.fresh r, r)) (housed_fresh seeds supply home)
    (shows_fresh r home) ops
  have step := housed.perform shown op
  refine ⟨housed.sound.agrees shown, ?_⟩
  cases e : op.perform s.1 s.2 with
  | error => rwa [e] at step
  | ok =>
    rw [e] at step
    exact ⟨step.2.2, step.1.sound.agrees step.2.1⟩

end ScriptCore.Table
