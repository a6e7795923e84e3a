import ScriptCore.Proofs.Key.Users
import ScriptCore.Proofs.Table.Sparing

/-!
# Table — walks

A walk starts anew and steps on until it comes to its end.  Meanwhile keys may be stored, changed
and deleted, also where the cursor stands, as long as the table does not grow.

* `Course.progress`: what a part of a walk makes of what is ahead and what is past.
* `walk_untouched`: a walk that meets no change comes to its end.
* `walk_complete`: a walk comes once to each key that is live all the time, twice to none, and
  to a key only while it is live; if it meets no change, it comes to the keys in their order.
-/

namespace ScriptCore.Table
open Key
variable {α : Type}

/-- An operation that only looks at the table. -/
def Op.Looks : Op α → Prop
  | fetch _ => True
  | contains _ => True
  | _ => False

/-- The key that a step of a walk comes to, or none at the end, with the table that is left. -/
def Op.visit (s : Table α × Keyring) (op : Op α) : List (Option Key × Table α) :=
  match op.perform s.1 s.2 with
  | .ok (.key k, u, _) => [(k, u)]
  | _ => []

/-- What the steps among some operations come to. -/
def visits : List (Op α) → Table α × Keyring → List (Option Key × Table α)
  | [], _ => []
  | op :: ops, s => op.visit s ++ visits ops (op.after s)

/-- The operations are part of a walk that comes to the keys: no step finds the end, and the table
does not grow. -/
structure Course (withPlaceholders : Bool) (s : Table α × Keyring) (ops : List (Op α))
    (ks : List Key) : Prop where
  during : ∀ op ∈ ops, op.During withPlaceholders
  buckets : ∀ n ≤ ops.length, (run (ops.take n) s).1.buckets = s.1.buckets
  comes : (visits ops s).map (·.1) = ks.map some

/-- The next step finds the end. -/
structure Walked (withPlaceholders : Bool) (s : Table α × Keyring) (ops : List (Op α))
    (ks : List Key) : Prop extends Course withPlaceholders s ops ks where
  ends : ((run ops s).1.walk (run ops s).2 withPlaceholders).1 = none

section
variable {t u : Table α} {r : Keyring} {w : Bool} {i : Nat} {x : Bytes × Bool}

/-! ### Letters ahead and behind -/

/-- The letters have a place ahead. -/
def Awaits (t : Table α) (x : Bytes × Bool) : Prop := ∃ i ∈ t.ahead, t.lettersAt i = some x

/-- The cursor is past the letters: they belong to a bucket that it has come to, and are not in
what is left of its chain. -/
structure Passed (t : Table α) (x : Bytes × Bool) : Prop where
  bucket : t.bucketOf (t.seed.hash x.1) < t.upcoming
  rest : ∀ i ∈ t.resume, t.lettersAt i ≠ some x

/-- The letters have a value. -/
def Lives (t : Table α) (x : Bytes × Bool) : Prop := ∃ v, t.Binds x (some v)

theorem Linked.contains_iff (h : t.Linked) (s : Spelling) :
    t.contains s = true ↔ t.Lives s.letters := by
  obtain ⟨m, shows⟩ := h.exists_shows
  rw [shows.contains h, ← Finmap.lookup_isSome, Option.isSome_iff_exists]
  exact exists_congr fun v => shows s.letters v

/-- The hash of a key is that of its letters. -/
theorem Linked.hashAt_eq (h : t.Linked) (letters : t.lettersAt i = some x) :
    t.hashAt i = t.seed.hash x.1 := by
  obtain ⟨e, he, rfl⟩ := lettersAt_eq_some_iff.mp letters
  rw [hashAt, he]
  exact h.hashed i e he

/-- What is past is not ahead. -/
theorem Passed.not_ahead (p : t.Passed x) (h : t.Linked) (hi : i ∈ t.ahead) :
    t.lettersAt i ≠ some x := by
  intro letters
  rcases h.mem_ahead.mp hi with hi | ⟨-, le⟩
  · exact p.rest i hi letters
  · rw [h.hashAt_eq letters] at le
    exact absurd p.bucket (Nat.not_lt.mpr le)

theorem Lives.isShown (l : t.Lives x) (h : t.Linked) (hi : i ∈ t.chained)
    (letters : t.lettersAt i = some x) (w : Bool) : t.isShown w i = true := by
  obtain ⟨v, j, hj, c⟩ := l
  obtain rfl := h.distinct i j hi hj (letters.trans (by simp [lettersAt_eq, c]))
  simp [Table.isShown, isPlaceholder_eq, c]

/-- What is shown where placeholders are not wanted is live. -/
theorem lives_of_shown (hi : i ∈ t.chained)
    (shown : t.isShown false i = true) (letters : t.lettersAt i = some x) : t.Lives x := by
  obtain ⟨e, he, rfl⟩ := lettersAt_eq_some_iff.mp letters
  obtain ⟨v, hv⟩ : ∃ v, e.value = some v := by
    simpa [Table.isShown, isPlaceholder, he, Option.isSome_iff_exists] using shown
  exact ⟨v, i, hi, by simp [contentAt, he, hv]⟩

theorem Linked.chained_of_ahead (h : t.Linked) (hi : i ∈ t.ahead) : i ∈ t.chained := by
  rcases h.mem_ahead.mp hi with hi | ⟨hi, -⟩
  · exact mem_of_mem_resume hi
  · exact hi

/-! ### Sparing, by letters -/

theorem Spared.bucketOf_eq (s : t.Spared u) (hash : UInt32) :
    u.bucketOf hash = t.bucketOf hash := by
  rw [bucketOf, s.buckets]
  rfl

theorem Spared.upcoming_eq (s : t.Spared u) : u.upcoming = t.upcoming := by
  rw [upcoming, s.bucket]
  rfl

/-- A place that is left has the hash it had. -/
theorem Spared.hashAt_eq (s : t.Spared u) (h : t.Linked) (hi : i ∈ t.chained)
    (hu : i ∈ u.chained) : u.hashAt i = t.hashAt i := by
  obtain ⟨x, letters⟩ := Option.isSome_iff_exists.mp (isSome_lettersAt.trans (h.filled i (.inl hi)))
  rw [h.hashAt_eq letters, s.linked.hashAt_eq ((s.kept i hi hu).trans letters), s.seed]

theorem Spared.inStep (s : t.Spared u) (h : t.Linked) (inStep : t.InStep) : u.InStep := by
  intro i hi
  obtain ⟨hr, hu⟩ := (s.resume i).mp hi
  rw [s.bucket, s.bucketOf_eq, s.hashAt_eq h (mem_of_mem_resume hr) hu]
  exact inStep i hr

theorem Spared.passed (s : t.Spared u) (p : t.Passed x) : u.Passed x where
  bucket := by
    rw [s.bucketOf_eq, s.seed, s.upcoming_eq]
    exact p.bucket
  rest i hi := by
    obtain ⟨hr, hu⟩ := (s.resume i).mp hi
    rw [s.kept i (mem_of_mem_resume hr) hu]
    exact p.rest i hr

/-- Letters that stay live stay ahead. -/
theorem Spared.awaits (s : t.Spared u) (h : t.Linked) (a : t.Awaits x) (l : u.Lives x) :
    u.Awaits x := by
  obtain ⟨i, hi, letters⟩ := a
  have hc := h.chained_of_ahead hi
  obtain ⟨v, j, hj, c⟩ := l
  have letters' : u.lettersAt j = some x := by simp [lettersAt_eq, c]
  -- the place that holds them now held them before
  have old : j ∈ t.chained := by
    by_contra new
    exact s.fresh j hj new i hc (letters.trans letters'.symm)
  obtain rfl := h.distinct i j hc old (letters.trans ((s.kept j old hj).symm.trans letters').symm)
  refine ⟨i, s.linked.mem_ahead.mpr ?_, letters'⟩
  rcases h.mem_ahead.mp hi with hr | ⟨-, le⟩
  · exact .inl ((s.resume i).mpr ⟨hr, hj⟩)
  · rw [s.upcoming_eq, s.bucketOf_eq, s.hashAt_eq h old hj]
    exact .inr ⟨hj, le⟩

/-! ### Stepping, by letters -/

theorem Comes.mem_ahead (c : t.Comes w i u) : i ∈ t.ahead ∧ t.isShown w i = true := by
  have pending : i ∈ t.pending w := by simp [c.pending]
  exact List.mem_filter.mp pending

theorem Comes.chained_eq (c : t.Comes w i u) : u.chained = t.chained := by
  rw [chained, c.chains]
  rfl

theorem Comes.bucketOf_eq (c : t.Comes w i u) (hash : UInt32) :
    u.bucketOf hash = t.bucketOf hash := by
  rw [bucketOf, buckets, c.chains]
  rfl

theorem Comes.lettersAt_eq (c : t.Comes w i u) {j : Nat} (hj : j ∈ t.chained) :
    u.lettersAt j = t.lettersAt j := by
  rw [lettersAt, c.entries j hj]
  rfl

theorem Comes.mem_chained (c : t.Comes w i u) {j : Nat} (hj : j ∈ u.resume) : j ∈ t.chained :=
  c.chained_eq ▸ mem_of_mem_resume hj

theorem Comes.upcoming_eq (c : t.Comes w i u) :
    u.upcoming = t.bucketOf (t.hashAt i) + 1 := by simp [upcoming, c.bucket]

theorem Comes.inStep (c : t.Comes w i u) : u.InStep := by
  intro j hj
  have hash : u.hashAt j = t.hashAt j := by
    rw [hashAt, c.entries j (c.mem_chained hj)]
    rfl
  rw [c.bucket, c.bucketOf_eq, hash, (c.behind j hj).2.1]

/-- What was past stays so. -/
theorem Comes.passed (c : t.Comes w i u) (h : t.Linked) (p : t.Passed x) : u.Passed x where
  bucket := by
    rw [c.bucketOf_eq, c.seed]
    exact Nat.lt_of_lt_of_le p.bucket c.later
  rest j hj letters := by
    rw [c.lettersAt_eq (c.mem_chained hj)] at letters
    obtain ⟨-, home, hr | le⟩ := c.behind j hj
    · exact p.rest j hr letters
    · rw [← home, h.hashAt_eq letters] at le
      exact absurd p.bucket (Nat.not_lt.mpr le)

/-- What the cursor comes to is past. -/
theorem Comes.passed_new (c : t.Comes w i u) (h : t.Linked) (letters : t.lettersAt i = some x) :
    u.Passed x where
  bucket := by
    rw [c.bucketOf_eq, c.seed, c.upcoming_eq, h.hashAt_eq letters]
    exact Nat.lt_succ_self _
  rest j hj letters' := by
    have hc := c.mem_chained hj
    rw [c.lettersAt_eq hc] at letters'
    exact (c.behind j hj).1
      (h.distinct j i hc (h.chained_of_ahead c.mem_ahead.1) (letters'.trans letters.symm))

/-- Live letters stay ahead until the cursor comes to them. -/
theorem Comes.awaits (c : t.Comes w i u) (h : t.Linked) (a : t.Awaits x) (l : t.Lives x) :
    t.lettersAt i = some x ∨ u.Awaits x := by
  obtain ⟨j, hj, letters⟩ := a
  have hc := h.chained_of_ahead hj
  have pending : j ∈ t.pending w := List.mem_filter.mpr ⟨hj, l.isShown h hc letters w⟩
  rw [c.pending] at pending
  rcases List.mem_cons.mp pending with rfl | later
  · exact .inl letters
  · exact .inr ⟨j, (List.mem_filter.mp later).1, (c.lettersAt_eq hc).trans letters⟩

theorem Comes.lives_iff (c : t.Comes w i u) : u.Lives x ↔ t.Lives x := by
  refine exists_congr fun v => ?_
  unfold Binds
  rw [c.chained_eq]
  refine exists_congr fun j => and_congr_right fun hj => ?_
  rw [contentAt, c.entries j hj]
  rfl

/-! ### A part of a walk -/

variable {s : Table α × Keyring} {op : Op α} {ops : List (Op α)} {ks : List Key}

/-- Only the steps of a walk answer keys. -/
theorem Op.Answers.ne_key {m : Contents α} {a : Answer α} (h : op.Answers m a)
    (other : ∀ w, op ≠ .walk w) (k : Option Key) : a ≠ .key k := by
  rintro rfl
  cases op with
  | walk w => exact other w rfl
  | _ => cases h

theorem visit_walk (s : Table α × Keyring) (w : Bool) :
    (Op.walk w).visit s = [((s.1.step w).1, (s.1.step w).2.1)] := rfl

/-- **One operation of a walk** spares it, or finds the end, or comes to a place. -/
theorem Housed.course_step (h : Housed s.1 s.2) (inStep : s.1.InStep) (during : op.During w)
    (buckets : (op.after s).1.buckets = s.1.buckets) :
    op.visit s = [] ∧ s.1.Spared (op.after s).1 ∨
      op.visit s = [(none, (op.after s).1)] ∨
      ∃ i e, op.visit s = [(some e.key, (op.after s).1)] ∧ Table.entry? s.1 i = some e ∧
        s.1.Comes w i (op.after s).1 := by
  obtain ⟨t, r⟩ := s
  dsimp only at h inStep buckets ⊢
  by_cases step : ∃ w, op = .walk w
  · obtain ⟨w', rfl⟩ := step
    obtain rfl : w' = w := during
    right
    rcases h.sound.toLinked.comes_step inStep w' with ⟨none, -⟩ | ⟨i, key, comes⟩
    · rw [visit_walk, none]
      exact .inl rfl
    · obtain ⟨e, he⟩ := h.sound.entry_eq (h.sound.chained_of_ahead comes.mem_ahead.1)
      rw [he] at key
      rw [visit_walk, key]
      exact .inr ⟨i, e, rfl, he, comes⟩
  · have other (w : Bool) (e : op = .walk w) : False := step ⟨w, e⟩
    obtain ⟨m, shows⟩ := h.sound.toLinked.exists_shows
    have performed := h.perform shows op
    have spared := h.spared during other
    left
    unfold Op.visit
    unfold Op.after at buckets ⊢
    dsimp only at buckets ⊢
    cases e : op.perform t r with
    | error why => exact ⟨rfl, .refl h.sound.toLinked⟩
    | ok result =>
      obtain ⟨a, u, r'⟩ := result
      rw [e] at performed spared buckets
      refine ⟨?_, spared buckets⟩
      cases a with
      | key k => exact absurd rfl (performed.2.2.ne_key other k)
      | _ => rfl

/-- What a part of a walk makes of letters. -/
structure Progress (w : Bool) (s : Table α × Keyring) (ops : List (Op α)) (ks : List Key) :
    Prop where
  housed : Housed (run ops s).1 (run ops s).2
  inStep : (run ops s).1.InStep
  passed : ∀ x, s.1.Passed x → tally x ks = 0
  once : ∀ x, tally x ks ≤ 1
  awaits : ∀ x, (∀ n ≤ ops.length, (run (ops.take n) s).1.Lives x) → s.1.Awaits x →
    0 < tally x ks ∨ (run ops s).1.Awaits x
  lives : w = false → ∀ v ∈ visits ops s, ∀ k : Key, v.1 = some k → v.2.contains k = true

theorem run_take_succ (op : Op α) (ops : List (Op α)) (s : Table α × Keyring) (n : Nat) :
    run ((op :: ops).take (n + 1)) s = run (ops.take n) (op.after s) := by
  rw [List.take_succ_cons]
  rfl

theorem Course.tail (c : Course w s (op :: ops) ks) {ks' : List Key}
    (comes : (visits ops (op.after s)).map (·.1) = ks'.map some) :
    Course w (op.after s) ops ks' where
  during op hop := c.during op (List.mem_cons_of_mem _ hop)
  buckets n hn := (c.buckets (n + 1) (Nat.succ_le_succ hn)).trans (c.buckets 1 (by simp)).symm
  comes := comes

/-- **A part of a walk.** -/
theorem Course.progress (c : Course w s ops ks) (h : Housed s.1 s.2) (inStep : s.1.InStep) :
    Progress w s ops ks := by
  induction ops generalizing s ks with
  | nil =>
    obtain rfl : ks = [] := by simpa [visits] using c.comes.symm
    exact ⟨h, inStep, fun _ _ => rfl, fun _ => Nat.zero_le _, fun _ _ a => .inr a,
      fun _ v hv => absurd hv List.not_mem_nil⟩
  | cons op ops ih =>
    have comes := c.comes
    rw [visits, List.map_append] at comes
    have linked := h.sound.toLinked
    rcases h.course_step inStep (c.during op (List.mem_cons_self ..)) (c.buckets 1 (by simp)) with
      ⟨nothing, spared⟩ | last | ⟨i, e, key, he, place⟩
    · rw [nothing, List.map_nil, List.nil_append] at comes
      have rest := ih (c.tail comes) (h.after op) (spared.inStep linked inStep)
      refine ⟨rest.housed, rest.inStep, fun x p => rest.passed x (spared.passed p), rest.once,
        fun x live a => ?_, fun hw v hv => ?_⟩
      · have live' := fun n hn => run_take_succ op ops s n ▸ live (n + 1) (Nat.succ_le_succ hn)
        exact rest.awaits x live' (spared.awaits linked a (live' 0 (Nat.zero_le _)))
      · rw [visits, nothing] at hv
        exact rest.lives hw v hv
    · -- a step that finds the end is no part of it
      rw [last] at comes
      cases ks <;> cases comes
    · rw [key] at comes
      cases ks with
      | nil => cases comes
      | cons k ks =>
        obtain ⟨rfl, later⟩ : e.key = k ∧ (visits ops (op.after s)).map (·.1) = ks.map some := by
          simpa using comes
        have letters : s.1.lettersAt i = some e.key.letters := by
          rw [lettersAt, he]
          rfl
        have rest := ih (c.tail later) (h.after op) place.inStep
        have new := rest.passed _ (place.passed_new linked letters)
        refine ⟨rest.housed, rest.inStep, fun x p => ?_, fun x => ?_, fun x live a => ?_,
          fun hw v hv => ?_⟩
        · have other : e.key.letters ≠ x := by
            rintro rfl
            exact p.not_ahead linked place.mem_ahead.1 letters
          rw [tally_cons, rest.passed x (place.passed linked p), if_neg other]
        · rw [tally_cons]
          split
          · rename_i here
            rw [← here, new]
          · exact rest.once x
        · rw [tally_cons]
          rcases place.awaits linked a (live 0 (Nat.zero_le _)) with here | a
          · rw [letters, Option.some.injEq] at here
            rw [if_pos here]
            exact .inl (Nat.succ_pos _)
          · have live' := fun n hn => run_take_succ op ops s n ▸ live (n + 1) (Nat.succ_le_succ hn)
            exact (rest.awaits x live' a).imp_left (Nat.lt_add_right _)
        · rw [visits, key] at hv
          rcases List.mem_cons.mp hv with rfl | hv
          · -- what has no value is not shown
            intro k hk
            cases hk
            obtain ⟨hi, shown⟩ := place.mem_ahead
            rw [hw] at shown
            refine (place.linked.contains_iff e.key).mpr (place.lives_iff.mpr ?_)
            exact lives_of_shown (linked.chained_of_ahead hi) shown letters
          · exact rest.lives hw v hv

/-! ### A walk that meets no change -/

/-- The keys that a walk is to come to, where placeholders are not wanted. -/
def pendingKeys (t : Table α) : List Key :=
  (t.pending false).filterMap fun i => (t.entry? i).map (·.key)

/-- At the start these are the live keys, in their order. -/
theorem Linked.pendingKeys_of_start (h : t.Linked) (start : t.cursor = {}) :
    t.pendingKeys = t.keys := by
  rw [pendingKeys, pending, ahead_of_start start, List.filterMap_filter, keys, toList,
    List.map_filterMap]
  refine List.filterMap_congr fun i hi => ?_
  obtain ⟨⟨k, v⟩, he⟩ := h.entry_eq hi
  cases v <;> simp [Table.isShown, isPlaceholder, he]

theorem Comes.pendingKeys_eq (c : t.Comes false i u) (h : t.Linked) {e : Entry α}
    (he : t.entry? i = some e) : t.pendingKeys = e.key :: u.pendingKeys := by
  have rest : u.pendingKeys = (u.pending false).filterMap fun i => (t.entry? i).map (·.key) := by
    refine List.filterMap_congr fun j hj => ?_
    have hj : j ∈ t.pending false := c.pending ▸ List.mem_cons_of_mem _ hj
    rw [c.entries j (h.chained_of_ahead (List.mem_filter.mp hj).1)]
  rw [pendingKeys, c.pending, List.filterMap_cons, he, rest]
  rfl

/-- **A part of a walk that meets no change** takes what is to come as it is. -/
theorem Course.pendingKeys_eq (c : Course false s ops ks) (h : Housed s.1 s.2)
    (inStep : s.1.InStep) (still : ∀ op ∈ ops, op.Looks ∨ op = .walk false) :
    s.1.pendingKeys = ks ++ (run ops s).1.pendingKeys := by
  induction ops generalizing s ks with
  | nil =>
    obtain rfl : ks = [] := by simpa [visits] using c.comes.symm
    rfl
  | cons op ops ih =>
    have comes := c.comes
    rw [visits, List.map_append] at comes
    have still' (op : Op α) (hop : op ∈ ops) := still op (List.mem_cons_of_mem _ hop)
    rcases still op (List.mem_cons_self ..) with looks | rfl
    · obtain ⟨same, nothing⟩ : op.after s = s ∧ op.visit s = [] := by
        cases op with
        | fetch s => exact ⟨rfl, rfl⟩
        | contains s => exact ⟨rfl, rfl⟩
        | _ => cases looks
      rw [nothing, List.map_nil, List.nil_append] at comes
      have rest := ih (c.tail comes) (h.after op) (by rwa [same]) still'
      have skips : run (op :: ops) s = run ops s := congrArg (run ops) same
      rwa [same, ← skips] at rest
    · have linked := h.sound.toLinked
      rw [visit_walk] at comes
      rcases linked.comes_step inStep false with ⟨none, -⟩ | ⟨i, key, place⟩
      · rw [none] at comes
        cases ks <;> cases comes
      · obtain ⟨e, he⟩ := linked.entry_eq (linked.chained_of_ahead place.mem_ahead.1)
        rw [key, he] at comes
        cases ks with
        | nil => cases comes
        | cons k ks =>
          obtain ⟨rfl, later⟩ : e.key = k ∧
              (visits ops (Op.after s (.walk false))).map (·.1) = ks.map some := by
            simpa using comes
          have rest := ih (c.tail later) (h.after _) place.inStep still'
          rw [place.pendingKeys_eq linked he, List.cons_append]
          exact congrArg _ rest

/-! ### Whole walks -/

theorem Walked.pending_eq_nil (c : Walked w s ops ks) (h : Housed s.1 s.2) (inStep : s.1.InStep) :
    (run ops s).1.pending w = [] := by
  have part := c.progress h inStep
  have linked := part.housed.sound.toLinked
  rcases linked.comes_step part.inStep w with ⟨-, nothing⟩ | ⟨i, key, place⟩
  · exact nothing
  · obtain ⟨e, he⟩ := linked.entry_eq (linked.chained_of_ahead place.mem_ahead.1)
    rw [he] at key
    have ends : ((run ops s).1.step w).1 = none := c.ends
    rw [key] at ends
    cases ends

/-- A walk that meets no change comes to its end. -/
theorem Housed.walked_untouched (h : Housed s.1 s.2) (inStep : s.1.InStep) :
    Walked false s (List.replicate s.1.pendingKeys.length (.walk false)) s.1.pendingKeys := by
  generalize hk : s.1.pendingKeys = ks
  induction ks generalizing s with
  | nil =>
    refine ⟨⟨nofun, fun n hn => ?_, rfl⟩, ?_⟩
    · rw [Nat.le_zero.mp hn]
      rfl
    · rcases h.sound.toLinked.comes_step inStep false with ⟨none, -⟩ | ⟨i, -, place⟩
      · exact none
      · obtain ⟨e, he⟩ :=
          h.sound.entry_eq (h.sound.chained_of_ahead place.mem_ahead.1)
        rw [place.pendingKeys_eq h.sound.toLinked he] at hk
        cases hk
  | cons k ks ih =>
    rcases h.sound.toLinked.comes_step inStep false with ⟨-, none⟩ | ⟨i, key, place⟩
    · rw [pendingKeys, none] at hk
      cases hk
    obtain ⟨e, he⟩ := h.sound.entry_eq (h.sound.chained_of_ahead place.mem_ahead.1)
    rw [place.pendingKeys_eq h.sound.toLinked he] at hk
    obtain ⟨rfl, left⟩ := List.cons.inj hk
    have rest := ih (h.after (.walk false)) place.inStep left
    have buckets : (Op.after s (.walk false)).1.buckets = s.1.buckets :=
      congrArg Array.size place.chains
    refine ⟨⟨fun op hop => ?_, fun n hn => ?_, ?_⟩, rest.ends⟩
    · rw [List.eq_of_mem_replicate hop]
      rfl
    · cases n with
      | zero => rfl
      | succ n => exact (rest.buckets n (Nat.le_of_succ_le_succ hn)).trans buckets
    · rw [List.length_cons, List.replicate_succ, visits, visit_walk, key, he, List.map_append]
      exact congrArg _ rest.comes

/-- A walk that starts anew, whatever was done before. -/
theorem housed_started (seeds : Array Seed) (supply : Supply) (home : Home) (before : List (Op α)) :
    let r := Keyring.ofSeeds seeds supply
    let s := run (before ++ [.startWalk]) (home.fresh r, r)
    Housed s.1 s.2 ∧ s.1.cursor = {} := by
  intro r s
  refine ⟨(Housed.run (s := (home.fresh r, r)) (housed_fresh seeds supply home)
    (shows_fresh r home) _).1, ?_⟩
  show (run (before ++ [.startWalk]) (home.fresh r, r)).1.cursor = {}
  rw [run, List.foldl_append]
  rfl

theorem inStep_of_start (start : t.cursor = {}) : t.InStep := by
  intro i hi
  simp [resume, start] at hi

/-- A walk comes once to letters that are live all the time. -/
theorem Walked.tally_of_lives (c : Walked w s ops ks) (h : Housed s.1 s.2)
    (start : s.1.cursor = {}) (lives : ∀ n ≤ ops.length, (run (ops.take n) s).1.Lives x) :
    tally x ks = 1 := by
  have part := c.progress h (inStep_of_start start)
  have awaits : s.1.Awaits x := by
    have first : s.1.Lives x := lives 0 (Nat.zero_le _)
    obtain ⟨v, i, hi, bound⟩ := first
    refine ⟨i, ?_, by simp [lettersAt_eq, bound]⟩
    rw [ahead_of_start start]
    exact hi
  have once := part.once x
  rcases part.awaits x lives awaits with shown | ⟨i, hi, letters⟩
  · omega
  · -- nothing that is live is left ahead at the end
    have none := c.pending_eq_nil h (inStep_of_start start)
    have linked := part.housed.sound.toLinked
    have last := lives ops.length le_rfl
    rw [List.take_length] at last
    have shown := last.isShown linked (linked.chained_of_ahead hi) letters w
    rw [pending_eq_nil_iff.mp none i hi] at shown
    cases shown

/-- **A walk without changes** comes to the live keys in their order, and then to its end. -/
theorem walk_untouched (seeds : Array Seed) (supply : Supply) (home : Home)
    (before : List (Op α)) :
    let r := Keyring.ofSeeds seeds supply
    let s := run (before ++ [.startWalk]) (home.fresh r, r)
    Walked false s (List.replicate s.1.size (.walk false)) s.1.keys := by
  intro r s
  obtain ⟨h, start⟩ := housed_started seeds supply home before
  have walked := h.walked_untouched (inStep_of_start start)
  have size : s.1.size = s.1.keys.length := by rw [h.sound.size_eq, keys, List.length_map]
  rwa [h.sound.pendingKeys_of_start start, ← size] at walked

/-- **A whole walk** of a table, whatever was done to it before.  It comes once to each key that is
live all the time, and never twice to a key.  Where placeholders are not wanted, it comes to a key
only while that is live; and when the table is only looked at meanwhile, it comes to the live keys
in their order. -/
theorem walk_complete (seeds : Array Seed) (supply : Supply) (home : Home) (before : List (Op α))
    (w : Bool) (ops : List (Op α)) (ks : List Key) :
    let r := Keyring.ofSeeds seeds supply
    let s := run (before ++ [.startWalk]) (home.fresh r, r)
    Walked w s ops ks →
      (∀ x : Spelling, (∀ n ≤ ops.length, (run (ops.take n) s).1.contains x = true) →
        tally x.letters ks = 1) ∧
      (ks.map Key.letters).Nodup ∧
      (w = false → ∀ v ∈ visits ops s, ∀ k : Key, v.1 = some k → v.2.contains k = true) ∧
      (w = false → (∀ op ∈ ops, op.Looks ∨ op = .walk false) → ks = s.1.keys) := by
  intro r s walked
  obtain ⟨h, start⟩ : Housed s.1 s.2 ∧ s.1.cursor = {} := housed_started seeds supply home before
  have inStep : s.1.InStep := inStep_of_start start
  have part := walked.progress h inStep
  obtain ⟨m, shows⟩ := h.sound.toLinked.exists_shows
  refine ⟨fun x live => ?_, ?_, fun hw v hv k hk => ?_, fun hw still => ?_⟩
  · refine walked.tally_of_lives h start fun n hn => ?_
    have linked := (h.run shows (ops.take n)).1.sound.toLinked
    exact (linked.contains_iff x).mp (live n hn)
  · rw [List.nodup_iff_count_le_one]
    intro x
    rw [← tally_eq_count]
    exact part.once x
  · exact part.lives hw v hv k hk
  · subst hw
    have keys := walked.pendingKeys_eq h inStep still
    have none := walked.pending_eq_nil h inStep
    rw [h.sound.pendingKeys_of_start start, pendingKeys, none] at keys
    simpa using keys.symm

end

/-- Entries are deleted under the cursor and ahead of it, and the place of 5 goes to 7. -/
theorem walk_complete_deleting :
    let r := Keyring.ofSeeds #[] {}
    let fill : List (Op Nat) := [1, 2, 3, 4, 5, 6].map fun n => .store (.ofBytes [n]) n.toNat
    let s := run (fill ++ [.startWalk]) ((Home.own {}).fresh r, r)
    let delete (n : UInt8) : Op Nat := .delete (.ofBytes [n]) (fun _ => false) false
    let ops := [.walk false, delete 5, delete 2, .walk false, .store (.ofBytes [7]) 7, delete 6,
      .walk false, .walk false, delete 3, .walk false]
    ∃ ks, Walked false s ops ks ∧ ks.map (·.bytes) = [[5], [6], [1], [4], [7]] ∧
      tally (Spelling.ofBytes [4]).letters ks = 1 ∧ (ks.map Key.letters).Nodup := by
  intro r fill s delete ops
  have walked : Walked false s ops ((visits ops s).filterMap (·.1)) :=
    ⟨⟨by simp [ops, delete, Op.During], by decide +kernel, by decide +kernel⟩, by decide +kernel⟩
  obtain ⟨once, nodup, -⟩ := walk_complete #[] {} (.own {}) fill false ops _ walked
  have stays : ∀ n ≤ ops.length, (run (ops.take n) s).1.contains (.ofBytes [4]) = true := by
    decide +kernel
  exact ⟨_, walked, by decide +kernel, once _ stays, nodup⟩

end ScriptCore.Table
