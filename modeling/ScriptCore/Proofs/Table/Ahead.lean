import ScriptCore.Proofs.Table.Cursor

/-!
# Table — what is ahead of the cursor

The cursor goes on with the rest of its chain, and then with every later chain.

A step comes to the first place ahead that it shows, and leaves the places after it ahead; when it
shows none of them, the walk is at its end (`Linked.comes_step`).
-/

namespace ScriptCore.Table
variable {α : Type}

/-- The first bucket that the cursor has not come to. -/
def upcoming (t : Table α) : Nat := (t.cursor.bucket.map (· + 1)).getD 0

/-- The chains from a bucket on, one after the other. -/
def chainsFrom (t : Table α) (b : Nat) : List Nat :=
  (List.range' b (t.buckets - b)).flatMap t.chain

/-- The places ahead of the cursor, in the order in which it comes to them. -/
def ahead (t : Table α) : List Nat := t.resume ++ t.chainsFrom t.upcoming

/-- A walk shows what is at a place. -/
def isShown (t : Table α) (withPlaceholders : Bool) (i : Nat) : Bool :=
  withPlaceholders || !t.isPlaceholder i

/-- The places that a walk is to show. -/
def pending (t : Table α) (withPlaceholders : Bool) : List Nat :=
  t.ahead.filter (t.isShown withPlaceholders)

/-- The place that the cursor goes on from. -/
def goesOn (t : Table α) : Option Nat :=
  if t.cursor.parted then t.cursor.next
  else t.cursor.current.bind fun i => successor i (t.chain (t.bucketOf (t.hashAt i)))

/-- The rest of a chain, from a place on. -/
def onward (t : Table α) : Option Nat → List Nat
  | none => []
  | some j => (t.chain (t.bucketOf (t.hashAt j))).dropWhile (· ≠ j)

theorem resume_eq (t : Table α) : t.resume = t.onward t.goesOn := by
  unfold resume goesOn onward
  rfl

/-- The rest of the chain that the cursor is in belongs to the bucket that the cursor is in. -/
def InStep (t : Table α) : Prop :=
  ∀ i ∈ t.resume, t.cursor.bucket = some (t.bucketOf (t.hashAt i))

section
variable {t u : Table α} {w : Bool} {b i j : Nat} {pre post : List Nat}

/-! ### Where a walk goes on -/

theorem dropWhile_ne (h : i ∉ pre) : (pre ++ i :: post).dropWhile (· ≠ i) = i :: post := by
  rw [List.dropWhile_append_of_pos fun j hj => by simpa using ne_of_mem_of_not_mem hj h]
  simp

theorem successor_append (h : i ∉ pre) : successor i (pre ++ i :: post) = post.head? := by
  rw [successor, dropWhile_ne h]
  rfl

/-- The rest of a chain is found from its first place. -/
theorem Linked.onward_head? (h : t.Linked) (c : t.chain b = pre ++ post) :
    t.onward post.head? = post := by
  cases post with
  | nil => rfl
  | cons j post =>
    have nodup := nodup_chain h b
    have home : t.bucketOf (t.hashAt j) = b := h.placed b j (by simp [c])
    rw [c] at nodup
    show (t.chain (t.bucketOf (t.hashAt j))).dropWhile (· ≠ j) = j :: post
    rw [home, c]
    exact dropWhile_ne fun hj => (List.nodup_append.mp nodup).2.2 j hj j (by simp) rfl

theorem Linked.chain_split (h : t.Linked) (hi : i ∈ t.chained) :
    ∃ pre post, i ∉ pre ∧ t.chain (t.bucketOf (t.hashAt i)) = pre ++ i :: post := by
  obtain ⟨pre, post, c⟩ := List.append_of_mem (h.mem_chain hi)
  refine ⟨pre, post, fun hp => ?_, c⟩
  have nodup := nodup_chain h (t.bucketOf (t.hashAt i))
  rw [c] at nodup
  exact (List.nodup_append.mp nodup).2.2 i hp i (by simp) rfl

/-- **Where a walk goes on.**  What is left of its chain are the places behind the one that the
cursor stands on, or, if that has parted, behind where it stood. -/
theorem Linked.resume_cases (h : t.Linked) :
    ∃ b pre, t.chain b = pre ++ t.resume ∧ t.goesOn = t.resume.head? := by
  suffices ∃ b pre post, t.chain b = pre ++ post ∧ t.goesOn = post.head? by
    obtain ⟨b, pre, post, c, on⟩ := this
    have rest : t.resume = post := by rw [resume_eq, on, h.onward_head? c]
    exact ⟨b, pre, by rw [rest, c], by rw [rest, on]⟩
  unfold goesOn
  cases hp : t.cursor.parted with
  | true =>
    cases hn : t.cursor.next with
    | none => exact ⟨0, t.chain 0, [], by simp, rfl⟩
    | some j =>
      obtain ⟨pre, post, -, c⟩ := h.chain_split (h.next hp j hn)
      exact ⟨_, pre, j :: post, c, rfl⟩
  | false =>
    cases hc : t.cursor.current with
    | none => exact ⟨0, t.chain 0, [], by simp, rfl⟩
    | some i =>
      have hi : i ∈ t.chained := (h.standing i hc).resolve_right (by simp [parked, hp])
      obtain ⟨pre, post, apart, c⟩ := h.chain_split hi
      refine ⟨_, pre ++ [i], post, by rw [c]; simp, ?_⟩
      show successor i (t.chain (t.bucketOf (t.hashAt i))) = post.head?
      rw [c, successor_append apart]

/-- Where a walk goes on from the entry it stands on. -/
theorem Linked.resume_of_current (h : t.Linked) (still : t.cursor.parted = false)
    (hc : t.cursor.current = some i) (c : t.chain b = pre ++ i :: post) : t.resume = post := by
  have nodup := nodup_chain h b
  have home : t.bucketOf (t.hashAt i) = b := h.placed b i (by simp [c])
  have on : t.goesOn = successor i (t.chain (t.bucketOf (t.hashAt i))) := by
    simp [goesOn, still, hc]
  rw [home, c, successor_append] at on
  · rw [resume_eq, on]
    have split : t.chain b = (pre ++ [i]) ++ post := by simp [c]
    exact h.onward_head? split
  · rw [c] at nodup
    exact fun hi => (List.nodup_append.mp nodup).2.2 i hi i (by simp) rfl

/-! ### What is ahead -/

theorem mem_chainsFrom : i ∈ t.chainsFrom b ↔ ∃ c, b ≤ c ∧ c < t.buckets ∧ i ∈ t.chain c := by
  simp only [chainsFrom, List.mem_flatMap, List.mem_range'_1]
  constructor
  · rintro ⟨c, hc, hi⟩
    exact ⟨c, hc.1, by omega, hi⟩
  · rintro ⟨c, le, lt, hi⟩
    exact ⟨c, ⟨le, by omega⟩, hi⟩

theorem Linked.mem_ahead (h : t.Linked) :
    i ∈ t.ahead ↔ i ∈ t.resume ∨ i ∈ t.chained ∧ t.upcoming ≤ t.bucketOf (t.hashAt i) := by
  rw [ahead, List.mem_append, mem_chainsFrom]
  refine or_congr_right ⟨?_, fun ⟨hi, le⟩ => ?_⟩
  · rintro ⟨c, le, -, hi⟩
    rw [h.placed c i hi]
    exact ⟨mem_chained_iff.mpr ⟨c, hi⟩, le⟩
  · exact ⟨_, le, Nat.mod_lt _ h.positive, h.mem_chain hi⟩

/-- What is chained, chain by chain. -/
theorem chained_eq (t : Table α) : t.chained = (List.range t.buckets).flatMap t.chain := by
  rw [chained, List.flatMap, buckets]
  congr 1
  refine List.ext_getElem (by simp) fun b _ hb => ?_
  have lt : b < t.chains.size := by simpa using hb
  simp [chain, Array.getD_eq_getD_getElem?, lt]

/-- Before it has moved, the cursor has everything ahead. -/
theorem ahead_of_start (start : t.cursor = {}) : t.ahead = t.chained := by
  have resume : t.resume = [] := by simp [Table.resume, start]
  have upcoming : t.upcoming = 0 := by simp [Table.upcoming, start]
  rw [ahead, resume, upcoming, List.nil_append, chainsFrom, chained_eq, Nat.sub_zero,
    ← List.range_eq_range']

theorem pending_eq_nil_iff : t.pending w = [] ↔ ∀ i ∈ t.ahead, t.isShown w i = false := by
  simp [pending, List.filter_eq_nil_iff]

/-! ### Looking for the next entry -/

theorem chainsFrom_of_lt (h : b < t.buckets) :
    t.chainsFrom b = t.chain b ++ t.chainsFrom (b + 1) := by
  obtain ⟨n, hn⟩ : ∃ n, t.buckets - b = n + 1 := ⟨t.buckets - b - 1, by omega⟩
  have rest : t.buckets - (b + 1) = n := by omega
  rw [chainsFrom, chainsFrom, hn, rest, List.range'_succ, List.flatMap_cons]

theorem chainsFrom_of_le (h : t.buckets ≤ b) : t.chainsFrom b = [] := by
  rw [chainsFrom, Nat.sub_eq_zero_of_le h]
  rfl

/-- A search through chains comes to the first place that is shown and leaves the places after it,
or finds nothing shown. -/
theorem findSome?_chainsFrom (t : Table α) (p : Nat → Bool) (b : Nat) :
    let found := (List.range' b (t.buckets - b)).findSome? fun b =>
      ((t.chain b).find? p).map (some b, ·)
    (found = none ∧ (t.chainsFrom b).filter p = []) ∨
    ∃ c i pre post, found = some (some c, i) ∧ b ≤ c ∧ t.chain c = pre ++ i :: post ∧
      (t.chainsFrom b).filter p = i :: (post ++ t.chainsFrom (c + 1)).filter p := by
  generalize hn : t.buckets - b = n
  induction n generalizing b with
  | zero => exact .inl ⟨rfl, by rw [chainsFrom_of_le (by omega)]; rfl⟩
  | succ n ih =>
    rw [chainsFrom_of_lt (by omega), List.range'_succ, List.findSome?_cons, List.filter_append]
    cases found : (t.chain b).find? p with
    | some i =>
      obtain ⟨hi, pre, post, c, hidden⟩ := List.find?_eq_some_iff_append.mp found
      have hidden : pre.filter p = [] := by simpa using hidden
      exact .inr ⟨b, i, pre, post, rfl, Nat.le_refl b, c, by simp [c, hidden, hi]⟩
    | none =>
      have hidden : (t.chain b).filter p = [] := by simpa using found
      rw [hidden, List.nil_append]
      refine (ih (b + 1) (by omega)).imp_right ?_
      rintro ⟨c, i, pre, post, later, le, split, rest⟩
      exact ⟨c, i, pre, post, later, by omega, split, rest⟩

/-- **The first shown entry.**  So does a search that starts with the rest of a chain. -/
theorem firstShown_cases (t : Table α) (w : Bool) (bucket : Option Nat) (rest : List Nat) :
    let start := (bucket.map (· + 1)).getD 0
    (t.firstShown w bucket rest = none ∧
      (rest ++ t.chainsFrom start).filter (t.isShown w) = []) ∨
    ∃ bucket' i post, t.firstShown w bucket rest = some (bucket', i) ∧
      (rest ++ t.chainsFrom start).filter (t.isShown w) =
        i :: (post ++ t.chainsFrom ((bucket'.map (· + 1)).getD 0)).filter (t.isShown w) ∧
      (bucket' = bucket ∧ (∃ pre, rest = pre ++ i :: post) ∨
        ∃ b pre, bucket' = some b ∧ start ≤ b ∧ t.chain b = pre ++ i :: post) := by
  intro start
  have shown : (fun i => w || !t.isPlaceholder i) = t.isShown w := rfl
  unfold firstShown
  dsimp only
  rw [shown]
  cases found : rest.find? (t.isShown w) with
  | some i =>
    obtain ⟨hi, pre, post, rfl, hidden⟩ := List.find?_eq_some_iff_append.mp found
    have hidden : pre.filter (t.isShown w) = [] := by simpa using hidden
    exact .inr ⟨bucket, i, post, rfl, by simp [hidden, hi, start], .inl ⟨rfl, pre, rfl⟩⟩
  | none =>
    have hidden : rest.filter (t.isShown w) = [] := by simpa using found
    rw [List.filter_append, hidden, List.nil_append]
    refine (findSome?_chainsFrom t (t.isShown w) start).imp_right ?_
    rintro ⟨c, i, pre, post, later, le, split, rest⟩
    exact ⟨some c, i, post, later, rest, .inr ⟨c, pre, rfl, le, split⟩⟩

/-! ### A step of the cursor -/

/-- The cursor of `t` comes to the place `i`, which leaves `u`: the same chains and entries, and
ahead what was ahead behind `i`. -/
structure Comes (t : Table α) (w : Bool) (i : Nat) (u : Table α) : Prop where
  linked : u.Linked
  chains : u.chains = t.chains
  entries : ∀ j ∈ t.chained, u.entry? j = t.entry? j
  seed : u.seed = t.seed
  pending : t.pending w = i :: u.pending w
  bucket : u.cursor.bucket = some (t.bucketOf (t.hashAt i))
  later : t.upcoming ≤ u.upcoming
  behind : ∀ j ∈ u.resume, j ≠ i ∧ t.bucketOf (t.hashAt j) = t.bucketOf (t.hashAt i) ∧
    (j ∈ t.resume ∨ t.upcoming ≤ t.bucketOf (t.hashAt i))

theorem bucket_settle (t : Table α) : t.settle.1.cursor.bucket = t.cursor.bucket := by
  unfold settle
  split <;> rfl

/-- What is to be shown is the same once the table has settled. -/
theorem Settles.pending_eq (s : t.Settles u) (bucket : u.cursor.bucket = t.cursor.bucket) :
    (t.resume ++ u.chainsFrom u.upcoming).filter (u.isShown w) = t.pending w := by
  have rest (b : Nat) : u.chainsFrom b = t.chainsFrom b := by
    unfold chainsFrom chain buckets
    rw [s.chains]
  rw [rest, upcoming, bucket]
  refine List.filter_congr fun i hi => ?_
  have hi : i ∈ t.chained := by
    rcases List.mem_append.mp hi with hi | hi
    · exact mem_of_mem_resume hi
    · obtain ⟨c, -, -, hi⟩ := mem_chainsFrom.mp hi
      exact mem_chained_iff.mpr ⟨c, hi⟩
  unfold isShown isPlaceholder
  rw [s.entries i hi]

/-- **A step.**  The cursor comes to the first place ahead that it shows, and to the end if there
is none. -/
theorem Linked.comes_step (h : t.Linked) (inStep : t.InStep) (w : Bool) :
    (t.step w).1 = none ∧ t.pending w = [] ∨
      ∃ i, (t.step w).1 = (t.entry? i).map (·.key) ∧ t.Comes w i (t.step w).2.1 := by
  have s := settles_settle h
  have bucket := bucket_settle t
  have pending := s.pending_eq (w := w) bucket
  have search := firstShown_cases t.settle.1 w t.settle.1.cursor.bucket t.resume
  unfold Table.step
  dsimp only at search ⊢
  generalize t.settle = settled at s bucket pending search
  obtain ⟨u, gone⟩ := settled
  dsimp only at s bucket pending search ⊢
  have chain (b : Nat) : u.chain b = t.chain b := by rw [Table.chain, s.chains]; rfl
  rcases search with ⟨found, none⟩ | ⟨bucket', i, post, found, rest, place⟩
  · rw [found]
    exact .inl ⟨rfl, pending.symm.trans none⟩
  -- the place is in the chain that the cursor moves to
  obtain ⟨b, pre, c, rfl, later, behind⟩ : ∃ b pre, t.chain b = pre ++ i :: post ∧
      bucket' = some b ∧ t.upcoming ≤ b + 1 ∧ ∀ j ∈ post, j ∈ t.resume ∨ t.upcoming ≤ b := by
    rcases place with ⟨rfl, pre, split⟩ | ⟨b, pre, rfl, le, c⟩
    · obtain ⟨b, before, c, -⟩ := h.resume_cases
      have hi : i ∈ t.resume := by simp [split]
      have home : t.bucketOf (t.hashAt i) = b := h.placed b i (c ▸ List.mem_append_right _ hi)
      have stands : t.cursor.bucket = some b := home ▸ inStep i hi
      refine ⟨b, before ++ pre, by simp [c, split], bucket.trans stands, ?_, fun j hj => ?_⟩
      · simp [upcoming, stands]
      · exact .inl (by simp [split, hj])
    · rw [chain] at c
      rw [bucket] at le
      exact ⟨b, pre, c, rfl, Nat.le_succ_of_le le, fun j _ => .inr le⟩
  have hi : i ∈ t.chained := mem_chained_iff.mpr ⟨b, by simp [c]⟩
  have home {j : Nat} (hj : j ∈ i :: post) : t.bucketOf (t.hashAt j) = b :=
    h.placed b j (c ▸ List.mem_append_right _ hj)
  have linked : Linked { u with cursor := { bucket := some b, current := some i } } :=
    s.linked.setCursor s.parked rfl fun j hj => by
      cases hj
      rwa [Table.chained, s.chains]
  have resume : resume { u with cursor := { bucket := some b, current := some i } } = post :=
    linked.resume_of_current rfl rfl ((chain b).trans c)
  have nodup := nodup_chain h b
  rw [c] at nodup
  rw [found]
  refine .inr ⟨i, congrArg (Option.map (·.key)) (s.entries i hi), linked, s.chains, s.entries,
    ?_, ?_, ?_, later, fun j hj => ?_⟩
  · exact congrArg Settings.seed s.settings
  · rw [← pending, Table.pending, ahead, resume]
    exact rest
  · rw [home (List.mem_cons_self ..)]
  · rw [resume] at hj
    refine ⟨?_, ?_, ?_⟩
    · rintro rfl
      exact (List.nodup_cons.mp nodup.of_append_right).1 hj
    · rw [home (List.mem_cons_of_mem _ hj), home (List.mem_cons_self ..)]
    · rw [home (List.mem_cons_self ..)]
      exact behind j hj

end

end ScriptCore.Table
