import Mathlib.Data.List.Nodup
import Mathlib.Data.List.Perm.Basic
import Mathlib.Order.Basic
import ScriptCore.Table.Cursor

/-!
# Table — how the places of a table hang together

A place of the arena is chained, free, or *parked*: its entry was deleted while the cursor stood
on it.  `Linked` is what holds of a table's places, also between the parts of an operation whose
counts are not yet right.

* `locate_eq_some_iff`: a linked table finds exactly the chained entry of a spelling.
* `Linked.relinked`: whatever moves the places about keeps a table linked, when the chains hold
  the same places as before, each in the bucket of its hash, and no entry changes its letters.
-/

namespace ScriptCore

/-- What tells the keys of a table apart: bytes and whether they are UTF-8. -/
def Key.letters (k : Key) : Bytes × Bool := (k.bytes, k.wide)

/-- What a spelling spells. -/
def Spelling.letters (s : Spelling) : Bytes × Bool := (s.bytes, s.wide)

namespace Table
variable {α : Type}

/-! ### Chains -/

/-- The places in chains. -/
theorem mem_flatten_iff {cs : Array (List Nat)} {i : Nat} :
    i ∈ cs.toList.flatten ↔ ∃ b, i ∈ cs.getD b [] := by
  rw [List.mem_flatten]
  constructor
  · rintro ⟨c, hc, hi⟩
    obtain ⟨b, hb⟩ := List.mem_iff_getElem?.mp hc
    rw [Array.getElem?_toList] at hb
    exact ⟨b, by simpa [Array.getD_eq_getD_getElem?, hb] using hi⟩
  · rintro ⟨b, hi⟩
    cases hb : cs[b]? with
    | none => simp [Array.getD_eq_getD_getElem?, hb] at hi
    | some c =>
      refine ⟨c, List.mem_iff_getElem?.mpr ⟨b, by rwa [Array.getElem?_toList]⟩, ?_⟩
      simpa [Array.getD_eq_getD_getElem?, hb] using hi

theorem mem_chained_iff {t : Table α} {i : Nat} : i ∈ t.chained ↔ ∃ b, i ∈ t.chain b :=
  mem_flatten_iff

/-- All places change by what one chain changes by. -/
theorem perm_flatten_modify (f : List Nat → List Nat) {l : List (List Nat)} {b : Nat}
    {c : List Nat} (hb : l[b]? = some c) :
    ((l.modify b f).flatten ++ c).Perm (l.flatten ++ f c) := by
  induction l generalizing b with
  | nil => simp at hb
  | cons d l ih =>
    cases b with
    | zero =>
      obtain rfl : d = c := by simpa using hb
      simp only [List.modify_zero_cons, List.flatten_cons, List.perm_iff_count,
        List.count_append]
      omega
    | succ b =>
      simp only [List.modify_succ_cons, List.flatten_cons, List.append_assoc]
      exact (ih (by simpa using hb)).append_left d

/-- A place put at the head of a chain. -/
theorem perm_flatten_cons {cs : Array (List Nat)} {b : Nat} (hb : b < cs.size) (i : Nat) :
    (cs.modify b (i :: ·)).toList.flatten.Perm (i :: cs.toList.flatten) := by
  have h := perm_flatten_modify (i :: ·) (l := cs.toList) (b := b) (c := cs[b])
    (by simp [hb])
  rw [Array.toList_modify]
  exact (List.perm_append_right_iff _).mp (h.trans List.perm_middle)

/-- A place taken out of a chain. -/
theorem perm_flatten_erase {cs : Array (List Nat)} {b i : Nat} (hi : i ∈ cs.getD b []) :
    (cs.toList.flatten).Perm (i :: (cs.modify b (·.erase i)).toList.flatten) := by
  cases hb : cs[b]? with
  | none => simp [Array.getD_eq_getD_getElem?, hb] at hi
  | some c =>
    have hc : i ∈ c := by simpa [Array.getD_eq_getD_getElem?, hb] using hi
    have h := perm_flatten_modify (·.erase i) (l := cs.toList) (b := b) (c := c) (by simpa using hb)
    rw [Array.toList_modify]
    refine (List.perm_append_right_iff (c.erase i)).mp ?_
    exact h.symm.trans (((List.perm_cons_erase hc).append_left _).trans List.perm_middle)

/-! ### Linked tables -/

/-- The place whose entry was deleted under the cursor. -/
def parked (t : Table α) : Option Nat := if t.cursor.parted then t.cursor.current else none

/-- The letters of the key at a place. -/
def lettersAt (t : Table α) (i : Nat) : Option (Bytes × Bool) := (t.entry? i).map (·.key.letters)

/-- A table whose chains, free list and cursor share out the places of its arena. -/
structure Linked (t : Table α) : Prop where
  positive : 0 < t.buckets
  placed : ∀ b i, i ∈ t.chain b → t.bucketOf (t.hashAt i) = b
  places : (t.chained ++ (t.free ++ t.parked.toList)).Perm (List.range t.entries.size)
  vacant : ∀ i ∈ t.free, t.entry? i = none
  filled : ∀ i, i ∈ t.chained ∨ t.parked = some i → (t.entry? i).isSome
  hashed : ∀ i e, t.entry? i = some e → e.key.hash = t.seed.hash e.key.bytes
  distinct : ∀ i j, i ∈ t.chained → j ∈ t.chained → t.lettersAt i = t.lettersAt j → i = j
  standing : ∀ i, t.cursor.current = some i → i ∈ t.chained ∨ t.parked = some i
  parted : t.cursor.parted = true → t.cursor.current.isSome
  next : t.cursor.parted = true → ∀ j, t.cursor.next = some j → j ∈ t.chained

/-- The letters and the value at a place. -/
def contentAt (t : Table α) (i : Nat) : Option ((Bytes × Bool) × Option α) :=
  (t.entry? i).map fun e => (e.key.letters, e.value)

/-- A chained entry has the letters `x` and the value `o`; a placeholder has none. -/
def Binds (t : Table α) (x : Bytes × Bool) (o : Option α) : Prop :=
  ∃ i, i ∈ t.chained ∧ t.contentAt i = some (x, o)

section
variable {t : Table α} {i j : Nat}

theorem lettersAt_eq_some_iff {x : Bytes × Bool} :
    t.lettersAt i = some x ↔ ∃ e, t.entry? i = some e ∧ e.key.letters = x :=
  Option.map_eq_some_iff

theorem contentAt_eq_some_iff {x : Bytes × Bool} {o : Option α} :
    t.contentAt i = some (x, o) ↔ ∃ e, t.entry? i = some e ∧ e.key.letters = x ∧ e.value = o := by
  simp [contentAt]

theorem lettersAt_eq (t : Table α) (i : Nat) : t.lettersAt i = (t.contentAt i).map (·.1) := by
  simp [lettersAt, contentAt, Function.comp_def]

theorem isSome_lettersAt : (t.lettersAt i).isSome = (t.entry? i).isSome := Option.isSome_map

theorem isPlaceholder_eq (t : Table α) (i : Nat) :
    t.isPlaceholder i = ((t.contentAt i).map (·.2.isNone)).getD false := by
  simp [isPlaceholder, contentAt, Function.comp_def]

theorem valueAt_eq (t : Table α) (i : Nat) : t.valueAt i = (t.contentAt i).bind (·.2) := by
  simp only [valueAt, contentAt, Option.bind_map]
  rfl

theorem Linked.nodup (h : t.Linked) : (t.chained ++ (t.free ++ t.parked.toList)).Nodup :=
  h.places.nodup_iff.mpr List.nodup_range

theorem Linked.nodup_chained (h : t.Linked) : t.chained.Nodup := h.nodup.of_append_left

theorem Linked.not_chained_of_free (h : t.Linked) (hi : i ∈ t.free) : i ∉ t.chained := fun hc =>
  (List.nodup_append.mp h.nodup).2.2 i hc i (List.mem_append_left _ hi) rfl

theorem Linked.not_chained_of_parked (h : t.Linked) (hi : t.parked = some i) : i ∉ t.chained :=
  fun hc => (List.nodup_append.mp h.nodup).2.2 i hc i
    (List.mem_append_right _ (by simp [hi])) rfl

/-- What chains hold is in the chain of its hash. -/
theorem Linked.mem_chain (h : t.Linked) (hi : i ∈ t.chained) :
    i ∈ t.chain (t.bucketOf (t.hashAt i)) := by
  obtain ⟨b, hb⟩ := mem_chained_iff.mp hi
  rwa [h.placed b i hb]

theorem Linked.entry_eq (h : t.Linked) (hi : i ∈ t.chained) : ∃ e, t.entry? i = some e :=
  Option.isSome_iff_exists.mp (h.filled i (.inl hi))

/-- Letters have one value. -/
theorem Linked.binds_unique (h : t.Linked) {x : Bytes × Bool} {o o' : Option α}
    (hb : t.Binds x o) (hb' : t.Binds x o') : o = o' := by
  obtain ⟨i, hi, ci⟩ := hb
  obtain ⟨j, hj, cj⟩ := hb'
  obtain rfl := h.distinct i j hi hj (by simp [lettersAt_eq, ci, cj])
  rw [ci, Option.some.injEq, Prod.mk.injEq] at cj
  exact cj.2

/-! ### Finding a spelling -/

theorem answers_iff {hash : UInt32} {s : Spelling} :
    t.answers hash s i = true ↔
      ∃ e, t.entry? i = some e ∧ e.key.hash = hash ∧ e.key.letters = s.letters := by
  unfold answers Key.matchesSpelling Key.letters Spelling.letters
  cases t.entry? i <;> simp [and_assoc]

/-- **Finding.**  A linked table finds the chained entry of a spelling. -/
theorem locate_eq_some_iff (h : t.Linked) {s : Spelling} :
    t.locate s = some i ↔ i ∈ t.chained ∧ t.lettersAt i = some s.letters := by
  have of_answers : ∀ j, j ∈ t.chain (t.bucketOf (t.hashOf s)) → t.answers (t.hashOf s) s j →
      j ∈ t.chained ∧ t.lettersAt j = some s.letters := by
    intro j hj ans
    obtain ⟨e, he, -, letters⟩ := answers_iff.mp ans
    exact ⟨mem_chained_iff.mpr ⟨_, hj⟩, lettersAt_eq_some_iff.mpr ⟨e, he, letters⟩⟩
  constructor
  · intro found
    exact of_answers i (List.mem_of_find?_eq_some found) (List.find?_some found)
  · rintro ⟨hi, letters⟩
    obtain ⟨e, he, hl⟩ := lettersAt_eq_some_iff.mp letters
    have hash : e.key.hash = t.hashOf s := by
      rw [h.hashed i e he, show e.key.bytes = s.bytes from congrArg Prod.fst hl]
      rfl
    have chain : i ∈ t.chain (t.bucketOf (t.hashOf s)) := by
      have := h.mem_chain hi
      rwa [show t.hashAt i = t.hashOf s by simp [hashAt, he, hash]] at this
    have ans : t.answers (t.hashOf s) s i := answers_iff.mpr ⟨e, he, hash, hl⟩
    cases found : t.locate s with
    | none => exact absurd ans (List.find?_eq_none.mp found i chain)
    | some j =>
      obtain ⟨hj, lj⟩ := of_answers j (List.mem_of_find?_eq_some found) (List.find?_some found)
      rw [h.distinct j i hj hi (lj.trans letters.symm)]

theorem locate_eq_none_iff (h : t.Linked) {s : Spelling} :
    t.locate s = none ↔ ∀ i ∈ t.chained, t.lettersAt i ≠ some s.letters := by
  constructor
  · intro none i hi letters
    have := (locate_eq_some_iff h).mpr ⟨hi, letters⟩
    rw [none] at this
    cases this
  · intro none
    cases found : t.locate s with
    | none => rfl
    | some i =>
      obtain ⟨hi, letters⟩ := (locate_eq_some_iff h).mp found
      exact absurd letters (none i hi)

end

/-! ### Moving places about -/

section
variable {t u : Table α}

/-- **Relinking.**  A table whose chains hold the same places as those of a linked one, each in
the bucket of its hash, is linked when no entry changed its letters. -/
theorem Linked.relinked (h : t.Linked) (positive : 0 < u.buckets)
    (placed : ∀ b i, i ∈ u.chain b → u.bucketOf (u.hashAt i) = b)
    (chained : u.chained.Perm t.chained) (size : u.entries.size = t.entries.size)
    (free : u.free = t.free) (cursor : u.cursor = t.cursor)
    (letters : ∀ i, u.lettersAt i = t.lettersAt i)
    (hashed : ∀ i e, u.entry? i = some e → e.key.hash = u.seed.hash e.key.bytes) : u.Linked := by
  have isSome (i : Nat) : (u.entry? i).isSome = (t.entry? i).isSome := by
    rw [← isSome_lettersAt, letters, isSome_lettersAt]
  have parked : u.parked = t.parked := by simp [Table.parked, cursor]
  have mem {i : Nat} : i ∈ u.chained ↔ i ∈ t.chained := chained.mem_iff
  refine ⟨positive, placed, ?_, ?_, ?_, hashed, ?_, ?_, ?_, ?_⟩
  · rw [free, parked, size]
    exact (chained.append_right _).trans h.places
  · intro i hi
    have := isSome i
    rwa [h.vacant i (free ▸ hi), Option.isSome_none, Option.isSome_eq_false_iff,
      Option.isNone_iff_eq_none] at this
  · intro i hi
    rw [isSome]
    exact h.filled i (by rwa [mem, parked] at hi)
  · intro i j hi hj e
    exact h.distinct i j (mem.mp hi) (mem.mp hj) (by rwa [letters, letters] at e)
  · intro i hi
    rw [mem, parked]
    exact h.standing i (cursor ▸ hi)
  · intro hp
    rw [cursor] at hp ⊢
    exact h.parted hp
  · intro hp j hj
    rw [mem]
    exact h.next (cursor ▸ hp) j (cursor ▸ hj)

theorem binds_relinked (chained : u.chained.Perm t.chained)
    (content : ∀ i, u.contentAt i = t.contentAt i) {x : Bytes × Bool} {o : Option α} :
    u.Binds x o ↔ t.Binds x o := by
  simp only [Binds, content, chained.mem_iff]

theorem countP_isPlaceholder_relinked (chained : u.chained.Perm t.chained)
    (content : ∀ i ∈ t.chained, u.contentAt i = t.contentAt i) :
    u.chained.countP u.isPlaceholder = t.chained.countP t.isPlaceholder := by
  rw [chained.countP_eq]
  refine List.countP_congr fun i hi => ?_
  rw [isPlaceholder_eq, isPlaceholder_eq, content i hi]

end

/-! ### Counts -/

/-- A linked table whose counts are right and whose bucket count is a power of two. -/
structure Counted (t : Table α) : Prop extends Linked t where
  power : t.buckets.isPowerOfTwo
  counted : t.total = t.chained.length
  marked : t.placeholders = t.chained.countP t.isPlaceholder

/-- What holds of a table between operations. -/
structure Sound (t : Table α) : Prop extends Counted t where
  roomy : t.total ≤ t.buckets

section
variable {t u : Table α}

/-- Counts stay right while the same places are chained with what they held. -/
theorem Counted.of_linked (h : t.Counted) (linked : u.Linked) (buckets : u.buckets = t.buckets)
    (total : u.total = t.total) (placeholders : u.placeholders = t.placeholders)
    (chained : u.chained.Perm t.chained)
    (content : ∀ i ∈ t.chained, u.contentAt i = t.contentAt i) : u.Counted where
  toLinked := linked
  power := buckets ▸ h.power
  counted := by rw [total, h.counted, chained.length_eq]
  marked := by rw [placeholders, h.marked, countP_isPlaceholder_relinked chained content]

theorem Sound.of_linked (h : t.Sound) (linked : u.Linked) (buckets : u.buckets = t.buckets)
    (total : u.total = t.total) (placeholders : u.placeholders = t.placeholders)
    (chained : u.chained.Perm t.chained)
    (content : ∀ i ∈ t.chained, u.contentAt i = t.contentAt i) : u.Sound where
  toCounted := h.toCounted.of_linked linked buckets total placeholders chained content
  roomy := by
    rw [total, buckets]
    exact h.roomy

end

/-! ### Empty tables -/

theorem chained_of_empty {t : Table α} (empty : ∀ b, t.chain b = []) : t.chained = [] := by
  refine List.eq_nil_iff_forall_not_mem.mpr fun i hi => ?_
  obtain ⟨b, hb⟩ := mem_chained_iff.mp hi
  rw [empty] at hb
  cases hb

theorem not_binds_of_empty {t : Table α} (empty : ∀ b, t.chain b = []) {x : Bytes × Bool}
    {o : Option α} : ¬ t.Binds x o := by
  rintro ⟨i, hi, -⟩
  rw [chained_of_empty empty] at hi
  cases hi

/-- A table without entries is sound. -/
theorem sound_of_empty {t : Table α} (power : t.buckets.isPowerOfTwo)
    (empty : ∀ b, t.chain b = []) (entries : t.entries = #[]) (free : t.free = [])
    (cursor : t.cursor = {}) (total : t.total = 0) (placeholders : t.placeholders = 0) :
    t.Sound := by
  have chained := chained_of_empty empty
  have parked : t.parked = none := by simp [parked, cursor]
  refine ⟨⟨⟨Nat.pos_of_isPowerOfTwo power, ?_, ?_, ?_, ?_, ?_, ?_, ?_, ?_, ?_⟩, power, ?_, ?_⟩, ?_⟩
  · intro b i hi
    rw [empty] at hi
    cases hi
  · rw [chained, free, parked, entries]
    exact .refl _
  · intro i hi
    rw [free] at hi
    cases hi
  · intro i hi
    rw [chained, parked] at hi
    rcases hi with hi | hi <;> cases hi
  · intro i e he
    unfold entry? at he
    simp [entries] at he
  · intro i j hi
    rw [chained] at hi
    cases hi
  · intro i hi
    rw [cursor] at hi
    cases hi
  · intro hp
    rw [cursor] at hp
    cases hp
  · intro hp
    rw [cursor] at hp
    cases hp
  · rw [total, chained]
    rfl
  · rw [placeholders, chained]
    rfl
  · rw [total]
    exact Nat.zero_le _

section
variable (seed : Seed) (countsKeys : Bool) (pool : Option Nat)

theorem chain_new (b : Nat) : ({ seed, countsKeys, pool } : Table α).chain b = [] := by
  simp only [Table.chain, Array.getD_eq_getD_getElem?, Array.getElem?_replicate]
  split <;> rfl

/-- A new table is sound. -/
theorem sound_new : Sound ({ seed, countsKeys, pool } : Table α) :=
  sound_of_empty ⟨3, rfl⟩ (chain_new seed countsKeys pool) rfl rfl rfl rfl rfl

end

/-- A new table binds nothing. -/
theorem not_binds_new {seed : Seed} {countsKeys : Bool} {pool : Option Nat} {x : Bytes × Bool}
    {o : Option α} : ¬ Binds ({ seed, countsKeys, pool } : Table α) x o :=
  not_binds_of_empty (chain_new seed countsKeys pool)

/-! ### Changing a value -/

section
variable {t : Table α} {i j : Nat} {v : Option α}

theorem entry?_setValue : entry? (t.setValue i v) j =
    if i = j then (t.entry? j).map ({ · with value := v }) else t.entry? j := by
  unfold setValue entry?
  rw [Array.getElem?_modify]
  split
  · cases t.entries[j]? <;> rfl
  · rfl

theorem contentAt_setValue : (t.setValue i v).contentAt j =
    if i = j then (t.contentAt j).map fun c => (c.1, v) else t.contentAt j := by
  unfold contentAt
  rw [entry?_setValue]
  split <;> simp [Function.comp_def]

theorem lettersAt_setValue : (t.setValue i v).lettersAt j = t.lettersAt j := by
  rw [lettersAt_eq, lettersAt_eq, contentAt_setValue]
  split <;> simp [Function.comp_def]

theorem hashAt_setValue : (t.setValue i v).hashAt j = t.hashAt j := by
  unfold hashAt
  rw [entry?_setValue]
  split <;> simp [Function.comp_def]

theorem Linked.setValue (h : t.Linked) (i : Nat) (v : Option α) : (t.setValue i v).Linked := by
  refine h.relinked h.positive (fun b j hj => ?_) (.refl _) (by simp [Table.setValue]) rfl rfl
    (fun j => lettersAt_setValue) fun j e he => ?_
  · rw [hashAt_setValue]
    exact h.placed b j hj
  · rw [entry?_setValue] at he
    split at he
    · obtain ⟨e', he', rfl⟩ := Option.map_eq_some_iff.mp he
      exact h.hashed j e' he'
    · exact h.hashed j e he

/-- A new value for letters that are bound. -/
theorem Linked.binds_setValue (h : t.Linked) (hi : i ∈ t.chained) {x y : Bytes × Bool}
    {o : Option α} (hx : t.lettersAt i = some x) :
    (t.setValue i v).Binds y o ↔ if y = x then o = v else t.Binds y o := by
  obtain ⟨⟨x', w⟩, content, rfl⟩ := Option.map_eq_some_iff.mp ((lettersAt_eq t i).symm.trans hx)
  simp only [Binds, contentAt_setValue]
  constructor
  · rintro ⟨j, hj, c⟩
    split at c
    · subst j
      rw [content] at c
      cases c
      simp
    · rw [if_neg]
      · exact ⟨j, hj, c⟩
      · rintro rfl
        exact absurd (h.distinct i j hi hj (by simp [lettersAt_eq, content, c])) (by assumption)
  · split
    · rintro rfl
      subst y
      exact ⟨i, hi, by simp [content]⟩
    · rintro ⟨j, hj, c⟩
      refine ⟨j, hj, ?_⟩
      rw [if_neg]
      · exact c
      · rintro rfl
        rw [content] at c
        cases c
        contradiction

/-- The placeholders once a value has changed. -/
theorem countP_isPlaceholder_setValue (h : t.Linked) (hi : i ∈ t.chained) {x : Bytes × Bool}
    {o : Option α} (c : t.contentAt i = some (x, o)) :
    t.chained.countP (t.setValue i v).isPlaceholder + o.isNone.toNat =
      t.chained.countP t.isPlaceholder + v.isNone.toNat := by
  have perm : t.chained.Perm (i :: t.chained.erase i) := List.perm_cons_erase hi
  have rest : (t.chained.erase i).countP (t.setValue i v).isPlaceholder =
      (t.chained.erase i).countP t.isPlaceholder := by
    refine List.countP_congr fun j hj => ?_
    rw [isPlaceholder_eq, isPlaceholder_eq, contentAt_setValue, if_neg]
    rintro rfl
    exact (List.Nodup.mem_erase_iff h.nodup_chained).mp hj |>.1 rfl
  rw [perm.countP_eq, perm.countP_eq, List.countP_cons, List.countP_cons, rest]
  simp only [isPlaceholder_eq, contentAt_setValue, c, if_true, Option.map_some, Option.getD_some]
  cases o.isNone <;> cases v.isNone <;> simp

/-- Counts and marks say nothing of places. -/
theorem Linked.remarked (h : t.Linked) (total placeholders : Nat) (restricted pinned : Bool) :
    Linked { t with total, placeholders, restricted, pinned } :=
  ⟨h.positive, h.placed, h.places, h.vacant, h.filled, h.hashed, h.distinct, h.standing, h.parted,
    h.next⟩

/-- A table with a changed value is sound when its placeholders are counted anew. -/
theorem Sound.setValue (h : t.Sound) (hi : i ∈ t.chained) {x : Bytes × Bool} {o : Option α}
    (c : t.contentAt i = some (x, o)) {n : Nat}
    (hn : n + o.isNone.toNat = t.placeholders + v.isNone.toNat) :
    Sound { t.setValue i v with placeholders := n } := by
  refine ⟨⟨?_, h.power, h.counted, ?_⟩, h.roomy⟩
  · exact (h.toLinked.setValue i v).remarked t.total n t.restricted t.pinned
  · have := countP_isPlaceholder_setValue (v := v) h.toLinked hi c
    have := h.marked
    show n = t.chained.countP (t.setValue i v).isPlaceholder
    omega

end

end Table
end ScriptCore
