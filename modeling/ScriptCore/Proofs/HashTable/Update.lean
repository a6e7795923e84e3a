import ScriptCore.Proofs.HashTable.Growth
import ScriptCore.Proofs.Table.Update

/-!
# HashTable — storing, deleting and walking

Each update of a table by heads and links does what it does to the table that is formed, with the
same answer and the same keyring, unless growth is refused.  Whatever else is refused leaves all as
it was.
-/

namespace ScriptCore.HashTable
variable {α : Type} {t : HashTable α} {u : Table α} {r : Keyring} {m : Table.Contents α}
  {b i n : Nat} {pre post c : List Nat}

/-! ### Finding -/

/-- Where a search along a chain ends. -/
theorem search_spec (answers : Nat → Bool) (b : Nat) (pre c : List Nat) :
    match search answers b pre.getLast? c with
    | none => c.find? answers = none
    | some f => c.find? answers = some f.place ∧ ∃ mid post, c = mid ++ f.place :: post ∧
        f = ⟨b, (pre ++ mid).getLast?, f.place⟩ := by
  induction c generalizing pre with
  | nil => rfl
  | cons i c ih =>
    unfold search
    cases ha : answers i with
    | true => exact ⟨by simp [ha], [], c, rfl, by simp⟩
    | false =>
      have step := ih (pre ++ [i])
      rw [List.getLast?_concat] at step
      rw [if_neg Bool.false_ne_true]
      cases found : search answers b (some i) c with
      | none => simpa [found, ha] using step
      | some f =>
        rw [found] at step
        obtain ⟨place, mid, post, split, e⟩ := step
        exact ⟨by simpa [ha] using place, i :: mid, post, by rw [split]; rfl, by simpa using e⟩

/-- **Finding.**  Going along a chain finds what the table that is formed has, and where. -/
theorem locate_cases (f : t.Forms u) (power : u.buckets.isPowerOfTwo) (s : Spelling) :
    t.locate s = none ∧ u.locate s = none ∨
      ∃ b pre i post, t.locate s = some ⟨b, pre.getLast?, i⟩ ∧ u.locate s = some i ∧
        u.chain b = pre ++ i :: post := by
  have seed : t.seed = u.seed := by
    rw [← f.table_eq]
    rfl
  have hash : t.hashOf s = u.hashOf s := by rw [hashOf, seed]; rfl
  have ans : t.answers (u.hashOf s) s = u.answers (u.hashOf s) s := by
    funext i
    rw [answers, entry?_eq f]
    rfl
  have spec := search_spec (u.answers (u.hashOf s) s) (u.bucketOf (u.hashOf s)) []
    (u.chain (u.bucketOf (u.hashOf s)))
  unfold locate Table.locate
  dsimp only
  rw [hash, ans, bucketOf_eq f power, chain_eq f]
  cases found : search _ _ none _ with
  | none =>
    rw [List.getLast?_nil, found] at spec
    exact .inl ⟨rfl, spec⟩
  | some f =>
    rw [List.getLast?_nil, found] at spec
    obtain ⟨place, mid, post, split, e⟩ := spec
    exact .inr ⟨_, mid, f.place, post, by rw [← List.nil_append mid, ← e], place, split⟩

theorem valueAt_eq (f : t.Forms u) (i : Nat) : t.valueAt i = u.valueAt i := by
  rw [valueAt, entry?_eq f]
  rfl

theorem fetch?_eq (f : t.Forms u) (power : u.buckets.isPowerOfTwo) (s : Spelling) :
    t.fetch? s = u.fetch? s := by
  unfold fetch? Table.fetch?
  rcases locate_cases f power s with ⟨absent, absent'⟩ | ⟨b, pre, i, post, found, found', -⟩
  · rw [absent, absent']
    rfl
  · rw [found, found']
    exact valueAt_eq f i

theorem contains_eq (f : t.Forms u) (counted : u.Counted) (s : Spelling) :
    t.contains s = u.contains s := by
  unfold contains Table.contains Table.presence
  rw [fetch?_eq f counted.power, Table.fetch?]
  cases found : u.locate s with
  | none => rfl
  | some i =>
    obtain ⟨e, he⟩ := counted.entry_eq ((Table.locate_eq_some_iff counted.toLinked).mp found).1
    dsimp only [Option.bind_some]
    simp only [Table.valueAt, Table.isPlaceholder, he]
    cases hv : e.value <;> simp [hv]

/-! ### What updates leave -/

/-- An update by heads and links, beside that of the table that is formed.  It answers and leaves
the same; or it is refused and leaves what there was; or growth is refused, and what is left shows
the map `m` all the same. -/
def Follows {β : Type} (t : HashTable α) (r : Keyring) (m : Table.Contents α)
    (x : Except Refusal β × HashTable α × Keyring)
    (y : Except Refusal (β × Table α × Keyring)) : Prop :=
  match x with
  | (.ok b, t', r') => ∃ u', y = .ok (b, u', r') ∧ t'.Forms u'
  | (.error why, t', r') => t' = t ∧ r' = r ∨
    ∃ n w, why = .outOfMemory n ∧ t'.Forms w ∧ w.Counted ∧ w.Shows m

theorem Follows.map {β γ : Type} {x : Except Refusal β × HashTable α × Keyring}
    {y : Except Refusal (β × Table α × Keyring)} (h : Follows t r m x y) (g : β → γ) :
    Follows t r m (x.1.map g, x.2) (y.map fun (b, u, r) => (g b, u, r)) := by
  obtain ⟨b | b, t', r'⟩ := x
  · exact h
  · obtain ⟨u', rfl, formed⟩ := h
    exact ⟨u', rfl, formed⟩

/-! ### Storing -/

/-- **Inserting.**  A key is inserted as into the table that is formed.  When growth is refused, the
key is bound all the same. -/
theorem Forms.insertNew (f : t.Forms u) (housed : Table.Housed u r) (shows : u.Shows m)
    {s : Spelling} (absent : u.locate s = none) (memory : Nat) (v : α) :
    match t.insertNew memory r s v with
    | (none, t', r') => t'.Forms (u.insertNew r s v).2.1 ∧ r' = (u.insertNew r s v).2.2
    | (some why, t', _) => ∃ n w, why = .outOfMemory n ∧ t'.Forms w ∧ w.Counted ∧
      w.Shows (m.insert s.letters v) := by
  obtain ⟨pool, seed⟩ : t.pool = u.pool ∧ t.seed = u.seed := by
    rw [← f.table_eq]
    exact ⟨rfl, rfl⟩
  obtain ⟨letters, hash, -⟩ := housed.ring.keyFor housed.home s
  unfold HashTable.insertNew Table.insertNew
  rw [pool, seed]
  generalize r.keyFor u.pool s u.seed = k at letters hash
  obtain ⟨key, r'⟩ := k
  dsimp only at letters hash ⊢
  have unmet : ∀ i ∈ u.chained, u.lettersAt i ≠ some key.letters := by
    rw [letters]
    exact (Table.locate_eq_none_iff housed.sound.toLinked).mp absent
  have bytes : key.bytes = s.bytes := congrArg Prod.fst letters
  have hash : key.hash = u.seed.hash key.bytes := by rwa [bytes]
  have added := f.add housed.sound.toCounted hash unmet memory v r'.supply
  have gains := housed.sound.toLinked.link ⟨key, some v⟩
  have counted := gains.counted housed.sound.toCounted hash unmet rfl
  generalize t.add memory key v r'.supply = a at added
  obtain ⟨i, t', gone, supply, refusal⟩ := a
  cases refusal with
  | none =>
    dsimp only at added ⊢
    obtain ⟨formed, rest⟩ := added
    refine ⟨formed, ?_⟩
    rw [show gone = (u.add key v r'.supply).2.2.1 from congrArg Prod.fst rest,
      show supply = (u.add key v r'.supply).2.2.2 from congrArg Prod.snd rest]
  | some why =>
    dsimp only at added ⊢
    obtain ⟨⟨n, rfl⟩, formed, -⟩ := added
    obtain ⟨shed, -, -, grows⟩ := counted.grows_cleared
    refine ⟨n, _, rfl, formed, shed, shows.insert fun y w => ?_⟩
    have linked : (u.link ⟨key, some v⟩).2.Binds y (some w) ↔
        y = s.letters ∧ w = v ∨ u.Binds y (some w) := by
      unfold Table.Binds
      simp only [gains.holds_iff, letters, Option.some.injEq, exists_or, exists_eq_left]
    refine grows.binds_iff.trans (linked.trans ?_)
    by_cases same : y = s.letters
    · subst same
      rw [if_pos rfl]
      refine ⟨fun h => h.elim (·.2) fun ⟨j, hj, c⟩ => ?_, fun hw => .inl ⟨rfl, hw⟩⟩
      exact absurd (by simp [Table.lettersAt_eq, c, letters]) (unmet j hj)
    · rw [if_neg same]
      exact or_iff_right fun hy => same hy.1

theorem restricted_eq (f : t.Forms u) : t.restricted = u.restricted := by
  rw [← f.table_eq]
  rfl

theorem rehashed_eq (f : t.Forms u) : t.rehashed = u.rehashed := by
  obtain ⟨cs, -, rfl⟩ := f
  rfl

theorem total_eq (f : t.Forms u) : t.total = u.total := by
  rw [← f.table_eq]
  rfl

theorem placeholders_eq (f : t.Forms u) : t.placeholders = u.placeholders := by
  rw [← f.table_eq]
  rfl

/-- **Storing**, the key inserted if need be. -/
theorem Forms.store (f : t.Forms u) (housed : Table.Housed u r) (shows : u.Shows m)
    (memory : Nat) (s : Spelling) (v : α) :
    Follows t r (m.insert s.letters v) (t.store memory r s v) (u.store r s v) := by
  unfold HashTable.store Table.store
  rcases locate_cases f housed.sound.power s with
    ⟨absent, absent'⟩ | ⟨b, pre, i, post, found, found', -⟩
  · rw [absent, absent', restricted_eq f]
    dsimp only
    by_cases restricted : u.restricted
    · rw [if_pos restricted, if_pos restricted]
      exact .inl ⟨rfl, rfl⟩
    rw [if_neg restricted, if_neg restricted]
    have inserted := f.insertNew housed shows absent' memory v
    generalize t.insertNew memory r s v = x at inserted
    obtain ⟨_ | why, t', r'⟩ := x
    · exact ⟨_, by rw [inserted.2], inserted.1⟩
    · exact .inr inserted
  · rw [found, found']
    dsimp only
    rw [valueAt_eq f]
    refine ⟨_, rfl, ?_⟩
    split
    · exact f.setValue i (some v)
    · rw [placeholders_eq (f.setValue i (some v))]
      exact (f.setValue i (some v)).withPlaceholders _

/-- **Storing what is missing.** -/
theorem Forms.fetchOrStore (f : t.Forms u) (housed : Table.Housed u r) (shows : u.Shows m)
    (memory : Nat) (s : Spelling) (v : α) :
    Follows t r (if s.letters ∈ m then m else m.insert s.letters v)
      (t.fetchOrStore memory r s v) (u.fetchOrStore r s v) := by
  have fetched := shows.fetch? housed.sound.toLinked s
  unfold HashTable.fetchOrStore Table.fetchOrStore Table.store Table.fetch?
  rcases locate_cases f housed.sound.power s with
    ⟨absent, absent'⟩ | ⟨b, pre, i, post, found, found', -⟩
  · rw [absent, absent', restricted_eq f]
    dsimp only [Option.bind_none]
    have unbound : s.letters ∉ m := by
      rw [Table.fetch?, absent'] at fetched
      exact Finmap.lookup_eq_none.mp fetched.symm
    rw [if_neg unbound]
    by_cases restricted : u.restricted
    · rw [if_pos restricted, if_pos restricted]
      exact .inl ⟨rfl, rfl⟩
    rw [if_neg restricted, if_neg restricted]
    have inserted := f.insertNew housed shows absent' memory v
    generalize t.insertNew memory r s v = x at inserted
    obtain ⟨_ | why, t', r'⟩ := x
    · exact ⟨_, by rw [inserted.2]; rfl, inserted.1⟩
    · exact .inr inserted
  · rw [found, found']
    dsimp only [Option.bind_some]
    rw [valueAt_eq f, placeholders_eq f]
    cases value : u.valueAt i with
    | some old => exact ⟨u, rfl, f⟩
    | none => exact ⟨_, rfl, (f.setValue i (some v)).withPlaceholders _⟩

/-- **Changing** a value. -/
theorem Forms.modify (f : t.Forms u) (power : u.buckets.isPowerOfTwo) (s : Spelling)
    (g : α → α) :
    (t.modify s g).1 = (u.modify s g).1 ∧ (t.modify s g).2.Forms (u.modify s g).2 := by
  unfold HashTable.modify Table.modify
  rcases locate_cases f power s with ⟨absent, absent'⟩ | ⟨b, pre, i, post, found, found', -⟩
  · rw [absent, absent']
    exact ⟨rfl, f⟩
  · rw [found, found']
    dsimp only
    rw [valueAt_eq f]
    refine ⟨rfl, ?_⟩
    split
    · exact f.setValue i _
    · exact f

/-! ### Deleting -/

/-- **Deleting.** -/
theorem Forms.delete (f : t.Forms u) (housed : Table.Housed u r) (readOnly : α → Bool)
    (s : Spelling) : Follows t r m (t.delete r readOnly s) (u.delete r readOnly s) := by
  unfold HashTable.delete Table.delete
  rcases locate_cases f housed.sound.power s with
    ⟨absent, absent'⟩ | ⟨b, pre, i, post, found, found', chain⟩
  · rw [absent, absent', restricted_eq f]
    dsimp only
    split
    · exact .inl ⟨rfl, rfl⟩
    · exact ⟨u, rfl, f⟩
  rw [found, found']
  dsimp only
  rw [valueAt_eq f, restricted_eq f, placeholders_eq f]
  cases value : u.valueAt i with
  | none => exact ⟨u, rfl, f⟩
  | some v =>
    dsimp only
    by_cases restricted : u.restricted
    · rw [if_pos restricted, if_pos restricted]
      split
      · exact .inl ⟨rfl, rfl⟩
      · exact ⟨_, rfl, (f.setValue i none).withPlaceholders _⟩
    · rw [if_neg restricted, if_neg restricted]
      obtain ⟨removed, keys⟩ := f.remove housed.sound.toLinked chain
      have pool : t.pool = u.pool := by
        rw [← f.table_eq]
        rfl
      have counts : (t.remove ⟨b, pre.getLast?, i⟩).1.total = (u.remove i).1.total := by
        rw [← removed.table_eq]
        rfl
      exact ⟨_, by rw [keys, pool], by rw [counts]; exact removed.withTotal _⟩

theorem pool_eq (f : t.Forms u) : t.pool = u.pool := by
  rw [← f.table_eq]
  rfl

/-- **Clearing placeholders**, if there are any. -/
theorem Forms.clearPlaceholders (f : t.Forms u) (counted : u.Counted) (r : Keyring) :
    (t.clearPlaceholders r).1.Forms (u.clearPlaceholders r).1 ∧
      (t.clearPlaceholders r).2 = (u.clearPlaceholders r).2 := by
  unfold HashTable.clearPlaceholders Table.clearPlaceholders
  rw [placeholders_eq f, pool_eq f]
  by_cases none : u.placeholders = 0
  · -- there is nothing to take out
    have empty : u.chained.filter u.isPlaceholder = [] := by
      rw [← List.length_eq_zero_iff, ← List.countP_eq_length_filter, ← counted.marked, none]
    have same : u.dropPlaceholders = (u, []) := by
      rw [dropPlaceholders_eq, empty]
      rfl
    rw [if_pos none, same]
    refine ⟨f, ?_⟩
    cases u.pool <;> rfl
  · rw [if_neg none]
    obtain ⟨dropped, keys⟩ := f.dropPlaceholders counted.toLinked
    generalize t.dropPlaceholders = x at dropped keys ⊢
    generalize u.dropPlaceholders = y at dropped keys ⊢
    obtain ⟨t', gone⟩ := x
    obtain ⟨u', gone'⟩ := y
    obtain rfl : gone = gone' := keys
    exact ⟨dropped, rfl⟩

theorem toList_eq (f : t.Forms u) : t.toList = u.toList := by
  have entry : t.entry? = u.entry? := funext fun i => entry?_eq f i
  rw [HashTable.toList, chained_eq f, entry]
  rfl

theorem keys_eq (f : t.Forms u) : t.keys = u.keys := congrArg _ (toList_eq f)

theorem Forms.setValues (f : t.Forms u) (places : List Nat) :
    (places.foldl (fun t i => t.setValue i none) t).Forms
      (places.foldl (fun t i => t.setValue i none) u) := by
  induction places generalizing t u with
  | nil => exact f
  | cons i places ih => exact ih (f.setValue i none)

theorem Forms.allPlaceholders (f : t.Forms u) :
    ({ t with placeholders := t.total } : HashTable α).Forms
      { u with placeholders := u.total } := by
  obtain ⟨cs, lays, rfl⟩ := f
  exact ⟨cs, lays.of_same rfl (Nat.le_refl _) fun _ _ => rfl, rfl⟩

/-- Without places all buckets are empty. -/
theorem Forms.empty (f : t.Forms u) :
    ({ t with heads := t.heads.map fun _ => none, nodes := #[], free := [], total := 0,
              placeholders := 0, cursor := {} } : HashTable α).Forms
      ({ u with chains := u.chains.map fun _ => [], entries := #[], free := [], total := 0,
                placeholders := 0, cursor := {} } : Table α) := by
  obtain ⟨cs, lays, rfl⟩ := f
  refine ⟨Array.replicate t.heads.size [], lays_replicate Array.map_const', ?_⟩
  simp [view, HashTable.onward, HashTable.parked, lays.buckets, Array.map_const']

/-- **Clearing.** -/
theorem Forms.clear (f : t.Forms u) (readOnly : α → Bool) :
    Follows t r m (t.clear r readOnly)
      ((u.clear r readOnly).map fun (_, u, r) => ((), u, r)) := by
  unfold HashTable.clear Table.clear HashTable.dispose Table.dispose
  by_cases restricted : u.restricted
  · rw [if_pos (by rwa [restricted_eq f]), if_pos restricted, toList_eq f, chained_eq f]
    cases u.toList.find? _ with
    | some item => exact .inl ⟨rfl, rfl⟩
    | none => exact ⟨_, rfl, (f.setValues u.chained).allPlaceholders⟩
  · rw [if_neg (by rwa [restricted_eq f]), if_neg restricted]
    refine ⟨_, ?_, f.empty⟩
    rw [heldKeys_eq f, pool_eq f]
    rfl

/-! ### Walking -/

/-- A cursor that has not parted may be anywhere. -/
theorem Forms.setCursor (f : t.Forms u) (bucket current : Option Nat) :
    Forms { t with cursor := { bucket, current } } { u with cursor := { bucket, current } } := by
  obtain ⟨cs, lays, rfl⟩ := f
  exact ⟨cs, lays.of_same rfl (Nat.le_refl _) fun _ _ => rfl, rfl⟩

theorem cursor_eq (f : t.Forms u) : t.cursor.bucket = u.cursor.bucket ∧
    t.cursor.current = u.cursor.current ∧ t.cursor.parted = u.cursor.parted := by
  rw [← f.table_eq]
  exact ⟨rfl, rfl, rfl⟩

/-- **Settling** frees the place that was parked. -/
theorem Forms.settle (f : t.Forms u) (linked : u.Linked) :
    t.settle.1.Forms u.settle.1 ∧ t.settle.2 = u.settle.2 := by
  have parked : t.parked = u.parked := by
    rw [← f.table_eq]
    rfl
  obtain ⟨bucket, current, -⟩ := cursor_eq f
  unfold HashTable.settle Table.settle
  rw [parked]
  cases hp : u.cursor.parted with
  | false =>
    have still : u.parked = none := by simp [Table.parked, hp]
    rw [still]
    have moved := f.setCursor t.cursor.bucket t.cursor.current
    refine ⟨?_, rfl⟩
    dsimp only
    rwa [bucket, current] at moved ⊢
  | true =>
    obtain ⟨k, hk⟩ := Option.isSome_iff_exists.mp (linked.parted hp)
    have parked : u.parked = some k := by simp [Table.parked, hp, hk]
    rw [parked, hk]
    have moved := f.setCursor t.cursor.bucket none
    have freed := moved.freePlace (linked.not_chained_of_parked parked) (by simp [Table.parked])
    dsimp only
    rwa [bucket] at freed ⊢

/-- **Starting a walk.** -/
theorem Forms.startWalk (f : t.Forms u) (linked : u.Linked) (r : Keyring) :
    (t.startWalk r).1 = (u.startWalk r).1 ∧ (t.startWalk r).2.1.Forms (u.startWalk r).2.1 ∧
      (t.startWalk r).2.2 = (u.startWalk r).2.2 := by
  obtain ⟨settled, keys⟩ := f.settle linked
  unfold HashTable.startWalk Table.startWalk Table.rewind Table.size
  rw [pool_eq f]
  generalize t.settle = x at settled keys ⊢
  generalize u.settle = y at settled keys ⊢
  obtain ⟨t', gone⟩ := x
  obtain ⟨u', gone'⟩ := y
  obtain rfl : gone = gone' := keys
  dsimp only at settled ⊢
  exact ⟨by rw [total_eq settled, placeholders_eq settled], settled.setCursor none none, rfl⟩

/-- **Where a walk goes on** is where the links lead from the place of the cursor. -/
theorem resume_eq (f : t.Forms u) (linked : u.Linked) : t.resume = u.resume := by
  obtain ⟨b, pre, chain, on⟩ := linked.resume_cases
  obtain ⟨cs, lays, rfl⟩ := f
  have start : t.cursor.current.bind t.next? = ((t.view cs).resume).head? := by
    rw [← on, Table.goesOn]
    cases hp : t.cursor.parted with
    | true =>
      rw [if_pos (by simp [view, hp])]
      show _ = t.onward
      rw [HashTable.onward, HashTable.parked, if_pos hp]
    | false =>
      rw [if_neg (by simp [view, hp])]
      cases hc : t.cursor.current with
      | none => simp [view, hc]
      | some i =>
        have unparked : (t.view cs).parked ≠ some i := by simp [Table.parked, view, hp]
        have hi : i ∈ (t.view cs).chained := (linked.standing i hc).resolve_right unparked
        obtain ⟨pre, post, apart, split⟩ := linked.chain_split hi
        have leads := lays.leads ((t.view cs).bucketOf ((t.view cs).hashAt i))
        rw [show cs.getD _ [] = pre ++ i :: post from split] at leads
        have current : (t.view cs).cursor.current = some i := hc
        rw [current, Option.bind_some, Option.bind_some, split, Table.successor_append apart]
        exact leads.next_eq
  have rest : cs.getD b [] = pre ++ (t.view cs).resume := chain
  have leads := lays.leads b
  have le := lays.length_le b
  rw [rest] at leads le
  rw [HashTable.resume, start]
  exact leads.drop.follow_eq (by simp at le; omega)

theorem firstShown_eq (f : t.Forms u) (withPlaceholders : Bool) (bucket : Option Nat)
    (rest : List Nat) :
    t.firstShown withPlaceholders bucket rest = u.firstShown withPlaceholders bucket rest := by
  have placeholder : t.isPlaceholder = u.isPlaceholder := funext fun i => isPlaceholder_eq f i
  have chain : t.chain = u.chain := funext fun b => chain_eq f b
  unfold HashTable.firstShown
  rw [placeholder, chain, buckets_eq f]
  rfl

/-- **A step of a walk.** -/
theorem Forms.walk (f : t.Forms u) (linked : u.Linked) (r : Keyring) (withPlaceholders : Bool) :
    (t.walk r withPlaceholders).1 = (u.walk r withPlaceholders).1 ∧
      (t.walk r withPlaceholders).2.1.Forms (u.walk r withPlaceholders).2.1 ∧
      (t.walk r withPlaceholders).2.2 = (u.walk r withPlaceholders).2.2 := by
  obtain ⟨settled, keys⟩ := f.settle linked
  unfold HashTable.walk Table.walk Table.step
  rw [resume_eq f linked, pool_eq f]
  generalize t.settle = x at settled keys ⊢
  generalize u.settle = y at settled keys ⊢
  obtain ⟨t', gone⟩ := x
  obtain ⟨u', gone'⟩ := y
  obtain rfl : gone = gone' := keys
  dsimp only at settled ⊢
  rw [firstShown_eq settled, (cursor_eq settled).1]
  cases u'.firstShown withPlaceholders u'.cursor.bucket u.resume with
  | none => exact ⟨rfl, settled.setCursor none none, rfl⟩
  | some found =>
    obtain ⟨bucket, i⟩ := found
    dsimp only
    rw [entry?_eq settled]
    exact ⟨rfl, settled.setCursor bucket (some i), rfl⟩

end ScriptCore.HashTable
