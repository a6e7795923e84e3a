import Mathlib.Algebra.Group.Nat.Defs
import ScriptCore.Proofs.Table.Cursor

/-!
# Table — growing

Chains are built anew, divided in two, or built for other hashes; all three relink the places
that were chained (`Linked.rebucket`, `Linked.doubled`, `Linked.reseed`).

* `Counted.split`: a table that doubles has room, and holds the same live entries.
* `Sound.add`: a table that receives an entry stays sound, and holds that entry besides.
-/

namespace ScriptCore.Table
variable {α : Type}

section
variable {t u : Table α} {i j : Nat}

/-! ### Chains built anew -/

theorem size_chainsOf (t : Table α) (n : Nat) (places : List Nat) :
    (t.chainsOf n places).size = n := by
  unfold chainsOf
  induction places with
  | nil => simp
  | cons i places ih => simpa using ih

theorem perm_chainsOf {n : Nat} (hn : 0 < n) (places : List Nat) :
    (t.chainsOf n places).toList.flatten.Perm places := by
  induction places with
  | nil =>
    have : (t.chainsOf n []).toList.flatten = [] := by simp [chainsOf]
    rw [this]
  | cons i places ih =>
    have lt : (t.hashAt i).toNat % n < (t.chainsOf n places).size := by
      rw [size_chainsOf]
      exact Nat.mod_lt _ hn
    exact (perm_flatten_cons lt i).trans (ih.cons i)

/-- A place is in the chain of its hash. -/
theorem mod_of_mem_chainsOf {n b : Nat} {places : List Nat}
    (hi : i ∈ (t.chainsOf n places).getD b []) : (t.hashAt i).toNat % n = b := by
  induction places with
  | nil =>
    have : (t.chainsOf n []).getD b [] = [] := by
      simp only [chainsOf, List.foldr_nil, Array.getD_eq_getD_getElem?, Array.getElem?_replicate]
      split <;> rfl
    rw [this] at hi
    cases hi
  | cons k places ih =>
    have step : t.chainsOf n (k :: places) =
        (t.chainsOf n places).modify ((t.hashAt k).toNat % n) (k :: ·) := rfl
    rw [step, Array.getD_eq_getD_getElem?, Array.getElem?_modify] at hi
    split at hi
    · cases e : (t.chainsOf n places)[b]? with
      | none => simp [e] at hi
      | some c =>
        simp only [e, Option.map_some, Option.getD_some, List.mem_cons] at hi
        rcases hi with rfl | hi
        · assumption
        · exact ih (by simpa [Array.getD_eq_getD_getElem?, e] using hi)
    · exact ih (by rwa [Array.getD_eq_getD_getElem?])

theorem chained_rebucket (t : Table α) {n : Nat} (hn : 0 < n) :
    (t.rebucket n).chained.Perm t.chained := perm_chainsOf hn t.chained

theorem buckets_rebucket (t : Table α) (n : Nat) : (t.rebucket n).buckets = n :=
  size_chainsOf t n t.chained

theorem Linked.rebucket (h : t.Linked) {n : Nat} (hn : 0 < n) : (t.rebucket n).Linked := by
  refine h.relinked ?_ (fun b i hi => ?_) (chained_rebucket t hn) rfl rfl rfl (fun _ => rfl)
    h.hashed
  · rwa [buckets_rebucket]
  · rw [bucketOf, buckets_rebucket]
    exact mod_of_mem_chainsOf hi

/-! ### Chains divided in two -/

theorem buckets_doubled (t : Table α) : t.doubled.buckets = t.buckets + t.buckets := by
  simp [buckets, doubled, halves]

theorem chained_doubled (t : Table α) : t.doubled.chained.Perm t.chained := by
  have half (bit : Nat) : (t.halves t.buckets bit).toList.flatten =
      t.chained.filter fun i => (t.hashAt i).toNat / t.buckets % 2 = bit := by
    simp only [halves, Array.toList_map, chained, List.filter_flatten]
  have bits : t.chained.filter (fun i => (t.hashAt i).toNat / t.buckets % 2 = 1) =
      t.chained.filter fun i => !decide ((t.hashAt i).toNat / t.buckets % 2 = 0) := by
    refine List.filter_congr fun i _ => ?_
    rcases Nat.mod_two_eq_zero_or_one ((t.hashAt i).toNat / t.buckets) with e | e <;> simp [e]
  have : t.doubled.chained =
      (t.halves t.buckets 0).toList.flatten ++ (t.halves t.buckets 1).toList.flatten := by
    simp [doubled, chained]
  rw [this, half, half, bits]
  exact List.filter_append_perm _ _

/-- A place is in the half that its hash says. -/
theorem mem_chain_doubled {b : Nat} (hi : i ∈ t.doubled.chain b) : ∃ c,
    i ∈ t.chain c ∧ b = c + t.buckets * ((t.hashAt i).toNat / t.buckets % 2) := by
  have half {bit c : Nat} (hi : i ∈ ((t.halves t.buckets bit)[c]?).getD []) :
      i ∈ t.chain c ∧ (t.hashAt i).toNat / t.buckets % 2 = bit := by
    simp only [halves, Array.getElem?_map] at hi
    rw [chain, Array.getD_eq_getD_getElem?]
    cases e : t.chains[c]? with
    | none => simp [e] at hi
    | some l => simpa [e] using hi
  have size : (t.halves t.buckets 0).size = t.buckets := by simp [halves, buckets]
  rw [chain, doubled, Array.getD_eq_getD_getElem?, Array.getElem?_append] at hi
  split at hi
  · obtain ⟨hc, bit⟩ := half hi
    exact ⟨b, hc, by simp [bit]⟩
  · obtain ⟨hc, bit⟩ := half hi
    exact ⟨_, hc, by rw [bit]; omega⟩

theorem Linked.doubled (h : t.Linked) : t.doubled.Linked := by
  refine h.relinked ?_ (fun b i hi => ?_) (chained_doubled t) rfl rfl rfl (fun _ => rfl) h.hashed
  · rw [buckets_doubled]
    exact Nat.add_pos_left h.positive _
  · obtain ⟨c, hc, rfl⟩ := mem_chain_doubled hi
    rw [bucketOf, buckets_doubled, ← Nat.mul_two, Nat.mod_mul, ← h.placed c i hc]
    rfl

/-! ### Keys of another seed -/

/-- An entry that got a key of the seed for the letters of its own. -/
def Rekeyed (seed : Seed) (e e' : Entry α) : Prop :=
  e'.key.letters = e.key.letters ∧ e'.value = e.value ∧ e'.key.hash = seed.hash e'.key.bytes

/-- A fold that puts one result on top of what it has for each element. -/
theorem forall₂_of_foldl {β σ : Type} {R : β → β → Prop} {f : List β × σ → β → List β × σ}
    (hf : ∀ state b, ∃ b', (f state b).1 = b' :: state.1 ∧ R b b') (l : List β)
    (state : List β × σ) :
    ∃ l', (l.foldl f state).1 = l'.reverse ++ state.1 ∧ List.Forall₂ R l l' := by
  induction l generalizing state with
  | nil => exact ⟨[], rfl, .nil⟩
  | cons b l ih =>
    obtain ⟨b', hb, r⟩ := hf state b
    obtain ⟨l', e, rs⟩ := ih (f state b)
    exact ⟨b' :: l', by simp [e, hb], .cons r rs⟩

theorem rel_getElem?_of_forall₂ {β : Type} {R : β → β → Prop} {l l' : List β}
    (h : List.Forall₂ R l l') (i : Nat) : Option.Rel R l[i]? l'[i]? := by
  induction h generalizing i with
  | nil => simp
  | cons r _ ih =>
    cases i with
    | zero => simpa using r
    | succ i => simpa using ih i

theorem rekey_spec (seed : Seed) (moved : List (Option (Entry α)) × Supply)
    (e : Option (Entry α)) :
    ∃ e', (rekey seed moved e).1 = e' :: moved.1 ∧ Option.Rel (Rekeyed seed) e e' := by
  cases e with
  | none => exact ⟨none, rfl, .none⟩
  | some e => exact ⟨_, rfl, .some ⟨rfl, rfl, rfl⟩⟩

/-- **A new seed.**  Every entry gets a key of the new seed, and no entry changes otherwise. -/
theorem reseed_entries (t : Table α) (supply : Supply) :
    (t.reseed supply).1.entries.size = t.entries.size ∧
      ∀ i, Option.Rel (Rekeyed (t.reseed supply).1.seed) (t.entry? i)
        (Table.entry? (t.reseed supply).1 i) := by
  have shape : ∃ l', (t.reseed supply).1.entries = l'.toArray ∧
      List.Forall₂ (Option.Rel (Rekeyed (t.reseed supply).1.seed)) t.entries.toList l' := by
    obtain ⟨l', e, r⟩ := forall₂_of_foldl (f := rekey supply.draw.1) (rekey_spec _) t.entries.toList
      ([], supply.draw.2)
    refine ⟨l', ?_, r⟩
    refine (congrArg (fun l => l.reverse.toArray) e).trans ?_
    simp
  obtain ⟨l', e, r⟩ := shape
  refine ⟨?_, fun i => ?_⟩
  · rw [e]
    simpa using r.length_eq.symm
  · unfold entry?
    rw [e, List.getElem?_toArray, ← Array.getElem?_toList]
    have := rel_getElem?_of_forall₂ r i
    generalize t.entries.toList[i]? = o, l'[i]? = o' at this
    cases this with
    | none => exact .none
    | some r => exact r

theorem contentAt_reseed (t : Table α) (supply : Supply) (i : Nat) :
    (t.reseed supply).1.contentAt i = t.contentAt i := by
  have r := (reseed_entries t supply).2 i
  unfold contentAt
  generalize t.entry? i = o, Table.entry? (t.reseed supply).1 i = o' at r
  cases r with
  | none => rfl
  | some r => simp [r.1, r.2.1]

theorem buckets_reseed (t : Table α) (supply : Supply) :
    (t.reseed supply).1.buckets = t.buckets := size_chainsOf ..

theorem chained_reseed (h : t.Linked) (supply : Supply) :
    (t.reseed supply).1.chained.Perm t.chained := perm_chainsOf h.positive t.chained

theorem Linked.reseed (h : t.Linked) (supply : Supply) : (t.reseed supply).1.Linked := by
  refine h.relinked ?_ (fun b i hi => ?_) (chained_reseed h supply) (reseed_entries t supply).1 rfl
    rfl (fun i => ?_) fun i e he => ?_
  · rw [buckets_reseed]
    exact h.positive
  · rw [bucketOf, buckets_reseed]
    exact mod_of_mem_chainsOf hi
  · rw [lettersAt_eq, lettersAt_eq, contentAt_reseed]
  · have r := (reseed_entries t supply).2 i
    rw [he] at r
    generalize t.entry? i = o at r
    cases r with
    | some r => exact r.2.2

/-! ### Doubling -/

/-- `u` is the table `t` grown: it has the live entries of `t` in their places, and no others.
Its keys are those of `t` unless it gave up its seed, and then it keeps them in no pool. -/
structure Grows (t u : Table α) : Prop where
  live : ∀ i x v, i ∈ t.chained ∧ t.contentAt i = some (x, some v) →
    i ∈ u.chained ∧ u.contentAt i = some (x, some v)
  old : ∀ i x o, i ∈ u.chained ∧ u.contentAt i = some (x, o) →
    i ∈ t.chained ∧ t.contentAt i = some (x, o)
  restricted : u.restricted = t.restricted
  mayReseed : u.mayReseed = true → t.mayReseed = true
  home : u.seed = t.seed ∧ u.pool = t.pool ∨ t.mayReseed = true ∧ u.pool = none

theorem Grows.trans {v : Table α} (h : t.Grows u) (h' : u.Grows v) : t.Grows v where
  live i x w hi := h'.live i x w (h.live i x w hi)
  old i x o hi := h.old i x o (h'.old i x o hi)
  restricted := h'.restricted.trans h.restricted
  mayReseed hm := h.mayReseed (h'.mayReseed hm)
  home := by
    rcases h'.home with ⟨seed, pool⟩ | ⟨may, none⟩
    · rw [seed, pool]
      exact h.home
    · exact .inr ⟨h.mayReseed may, none⟩

/-- Growing binds nothing new, and keeps what is live. -/
theorem Grows.binds_iff (h : t.Grows u) {x : Bytes × Bool} {v : α} :
    u.Binds x (some v) ↔ t.Binds x (some v) :=
  ⟨fun ⟨i, hi⟩ => ⟨i, h.old i x _ hi⟩, fun ⟨i, hi⟩ => ⟨i, h.live i x v hi⟩⟩

theorem Grows.of_settings (settings : u.settings = t.settings)
    (live : ∀ i x v, i ∈ t.chained ∧ t.contentAt i = some (x, some v) →
      i ∈ u.chained ∧ u.contentAt i = some (x, some v))
    (old : ∀ i x o, i ∈ u.chained ∧ u.contentAt i = some (x, o) →
      i ∈ t.chained ∧ t.contentAt i = some (x, o)) : t.Grows u := by
  simp only [Table.settings, Settings.mk.injEq] at settings
  obtain ⟨seed, restricted, rehashed, countsKeys, pinned, pool, -⟩ := settings
  exact ⟨live, old, restricted, by simp [Table.mayReseed, rehashed, countsKeys, pinned],
    .inl ⟨seed, pool⟩⟩

/-- Placeholders may go first. -/
theorem Counted.grows_cleared (h : t.Counted) :
    let w := if 0 < t.placeholders ∧ t.restricted = false then t.dropPlaceholders else (t, [])
    w.1.Counted ∧ w.1.buckets = t.buckets ∧ w.1.total ≤ t.total ∧ t.Grows w.1 := by
  dsimp only
  split
  · obtain ⟨counted, settings, total, holds⟩ := h.dropPlaceholders
    refine ⟨counted, congrArg Settings.buckets settings, total, .of_settings settings ?_ ?_⟩
    · exact fun i x v ⟨hi, c⟩ => (holds i x _).mpr ⟨hi, c, rfl⟩
    · intro i x o hi
      obtain ⟨hi, c, -⟩ := (holds i x o).mp hi
      exact ⟨hi, c⟩
  · exact ⟨h, rfl, Nat.le_refl _, .of_settings rfl (fun _ _ _ hi => hi) fun _ _ _ hi => hi⟩

theorem Counted.sound_doubled (h : t.Counted) (room : t.total ≤ t.buckets + t.buckets) :
    t.doubled.Sound ∧ t.Grows t.doubled where
  left := by
    refine ⟨⟨h.toLinked.doubled, ?_, ?_, ?_⟩, ?_⟩
    · obtain ⟨k, hk⟩ := h.power
      exact ⟨k + 1, by rw [buckets_doubled, hk, Nat.pow_succ]; omega⟩
    · rw [(chained_doubled t).length_eq]
      exact h.counted
    · rw [countP_isPlaceholder_relinked (chained_doubled t) fun _ _ => rfl]
      exact h.marked
    · rw [buckets_doubled]
      exact room
  right := by
    have mem {i : Nat} : i ∈ t.doubled.chained ↔ i ∈ t.chained := (chained_doubled t).mem_iff
    exact ⟨fun i x v ⟨hi, c⟩ => ⟨mem.mpr hi, c⟩, fun i x o ⟨hi, c⟩ => ⟨mem.mp hi, c⟩, rfl, id,
      .inl ⟨rfl, rfl⟩⟩

theorem Sound.reseed (h : t.Sound) (may : t.mayReseed = true) (supply : Supply) :
    (t.reseed supply).1.Sound ∧ t.Grows (t.reseed supply).1 where
  left := h.of_linked (h.toLinked.reseed supply) (buckets_reseed t supply) rfl rfl
    (chained_reseed h.toLinked supply) fun i _ => contentAt_reseed t supply i
  right := by
    have mem {i : Nat} : i ∈ (t.reseed supply).1.chained ↔ i ∈ t.chained :=
      (chained_reseed h.toLinked supply).mem_iff
    refine ⟨fun i x v ⟨hi, c⟩ => ⟨mem.mpr hi, ?_⟩, fun i x o ⟨hi, c⟩ => ⟨mem.mp hi, ?_⟩, rfl,
      fun _ => may, .inr ⟨may, rfl⟩⟩
    · rwa [contentAt_reseed]
    · rwa [contentAt_reseed] at c

/-- **Doubling.**  A table that has at most twice as many keys as buckets has room when it has
doubled, and holds the same live entries. -/
theorem Counted.split (h : t.Counted) (room : t.total ≤ t.buckets + t.buckets)
    (supply : Supply) : (t.split supply).1.Sound ∧ t.Grows (t.split supply).1 := by
  obtain ⟨counted, buckets, total, cleared⟩ := h.grows_cleared
  unfold Table.split
  generalize (if 0 < t.placeholders ∧ t.restricted = false then t.dropPlaceholders else (t, [])) =
    w at counted buckets total cleared
  dsimp only
  obtain ⟨sound, doubled⟩ := counted.sound_doubled (by omega)
  split
  · rename_i cond
    obtain ⟨sound, reseeded⟩ := sound.reseed cond.1 supply
    exact ⟨sound, (cleared.trans doubled).trans reseeded⟩
  · exact ⟨sound, cleared.trans doubled⟩

/-! ### Adding -/

/-- **Allocating.**  An entry that is put into the arena gets a place that was free, or is
new. -/
theorem allocate_eq (h : t.Linked) (e : Entry α) : ∃ i entries free,
    t.allocate e = (i, { t with entries, free }) ∧
      (∀ j, (entries[j]?).join = if j = i then some e else t.entry? j) ∧
      (i :: t.chained ++ (free ++ t.parked.toList)).Perm (List.range entries.size) ∧
      ∀ j ∈ free, j ∈ t.free := by
  have places := h.places
  unfold allocate
  split
  · rename_i i rest free
    rw [free] at places
    have lt : i < t.entries.size := by
      have : i ∈ List.range t.entries.size := places.subset (by simp)
      simpa using this
    refine ⟨i, _, rest, rfl, fun j => ?_, ?_, fun j hj => by simp [free, hj]⟩
    · unfold entry?
      simp only [Array.getElem?_setIfInBounds, lt, if_true, eq_comm (a := j)]
      split <;> rfl
    · simpa using List.perm_middle.symm.trans places
  · rename_i free
    rw [free] at places
    refine ⟨t.entries.size, t.entries.push (some e), [], by simp [free], fun j => ?_, ?_,
      fun j hj => by cases hj⟩
    · unfold entry?
      simp only [Array.getElem?_push]
      split <;> rfl
    · rw [Array.size_push, List.range_succ]
      simpa using (places.cons _).trans (List.perm_append_singleton _ _).symm

/-- A place at the head of a chain. -/
theorem mem_modify_cons {cs : Array (List Nat)} {b c : Nat}
    (hj : j ∈ (cs.modify b (i :: ·)).getD c []) : j = i ∧ c = b ∨ j ∈ cs.getD c [] := by
  rw [Array.getD_eq_getD_getElem?, Array.getElem?_modify] at hj
  rw [Array.getD_eq_getD_getElem?]
  split at hj
  · cases e : cs[c]? with
    | none => simp [e] at hj
    | some l =>
      simp only [e, Option.map_some, Option.getD_some, List.mem_cons] at hj ⊢
      exact hj.imp_left fun hj => ⟨hj, by omega⟩
  · exact .inr hj

/-- `u` is the table `t` with a new entry at the place `i`, chained where its hash belongs. -/
structure Gains (t : Table α) (e : Entry α) (i : Nat) (u : Table α) : Prop where
  settings : u.settings = t.settings
  total : u.total = t.total + 1
  placeholders : u.placeholders = t.placeholders
  cursor : u.cursor = t.cursor
  parked : u.parked = t.parked
  entry : ∀ j, u.entry? j = if j = i then some e else t.entry? j
  chained : u.chained.Perm (i :: t.chained)
  chain : ∀ b j, j ∈ u.chain b → j = i ∧ b = t.bucketOf e.key.hash ∨ j ∈ t.chain b
  places : (u.chained ++ (u.free ++ u.parked.toList)).Perm (List.range u.entries.size)
  free : ∀ j ∈ u.free, j ∈ t.free

/-- **Linking.**  A new entry comes to a place of its own, in the chain of its hash. -/
theorem Linked.link (h : t.Linked) (e : Entry α) : t.Gains e (t.link e).1 (t.link e).2 := by
  obtain ⟨i, entries, free, alloc, entry, places, freed⟩ := allocate_eq h e
  set u : Table α := { t with
    entries, free
    chains := t.chains.modify (t.bucketOf e.key.hash) (i :: ·), total := t.total + 1 }
  have link : t.link e = (i, u) := by rw [Table.link, alloc]; rfl
  have chained : u.chained.Perm (i :: t.chained) := perm_flatten_cons (Nat.mod_lt _ h.positive) i
  rw [link]
  refine ⟨?_, rfl, rfl, rfl, rfl, entry, chained, fun b j hj => ?_,
    (chained.append_right _).trans places, freed⟩
  · simp only [settings, Settings.mk.injEq]
    exact ⟨rfl, rfl, rfl, rfl, rfl, rfl, Array.size_modify⟩
  · exact mem_modify_cons hj

section
variable {e : Entry α}

theorem Gains.mem (g : t.Gains e i u) : j ∈ u.chained ↔ j = i ∨ j ∈ t.chained := by
  rw [g.chained.mem_iff, List.mem_cons]

theorem Gains.new (g : t.Gains e i u) : u.entry? i = some e := (g.entry i).trans (if_pos rfl)

/-- The new place was not in use. -/
theorem Gains.apart (g : t.Gains e i u) : i ∉ t.chained ∧ i ∉ u.free ∧ i ∉ u.parked := by
  have nodup : (i :: t.chained ++ (u.free ++ u.parked.toList)).Nodup :=
    ((g.chained.symm.append_right _).trans g.places).nodup_iff.mpr List.nodup_range
  simpa [not_or] using (List.nodup_cons.mp nodup).1

theorem Gains.old (g : t.Gains e i u) (hj : j ∈ t.chained) : u.entry? j = t.entry? j :=
  (g.entry j).trans (if_neg fun ej : j = i => g.apart.1 (ej ▸ hj))

/-- A table stays linked when it gains an entry whose letters are new. -/
theorem Gains.linked (g : t.Gains e i u) (h : t.Linked)
    (hash : e.key.hash = t.seed.hash e.key.bytes)
    (fresh : ∀ i ∈ t.chained, t.lettersAt i ≠ some e.key.letters) : u.Linked := by
  have buckets : u.buckets = t.buckets := congrArg Settings.buckets g.settings
  have seed : u.seed = t.seed := congrArg Settings.seed g.settings
  have unmet {j : Nat} (hj : j ∈ t.chained) (e : u.lettersAt i = u.lettersAt j) : False := by
    rw [lettersAt, lettersAt, g.old hj, g.new] at e
    exact fresh j hj e.symm
  refine ⟨?_, fun b j hj => ?_, g.places, fun j hj => ?_, fun j hj => ?_, fun j d hd => ?_,
    fun j k hj hk d => ?_, fun j hj => ?_, ?_, fun hp j hj => ?_⟩
  · rw [buckets]
    exact h.positive
  · rw [bucketOf, buckets]
    rcases g.chain b j hj with ⟨rfl, rfl⟩ | hj
    · rw [hashAt, g.new]
      rfl
    · rw [hashAt, g.old (mem_chained_iff.mpr ⟨b, hj⟩)]
      exact h.placed b j hj
  · rw [g.entry, if_neg fun ej : j = i => g.apart.2.1 (ej ▸ hj)]
    exact h.vacant j (g.free j hj)
  · rcases hj with hj | hj
    · rcases g.mem.mp hj with rfl | hj
      · rw [g.new]
        rfl
      · rw [g.old hj]
        exact h.filled j (.inl hj)
    · rw [g.entry, if_neg fun ej : j = i => g.apart.2.2 (ej ▸ hj)]
      exact h.filled j (.inr (g.parked ▸ hj))
  · rw [seed]
    rw [g.entry] at hd
    split at hd
    · cases hd
      exact hash
    · exact h.hashed j d hd
  · rcases g.mem.mp hj with ej | cj <;> rcases g.mem.mp hk with ek | ck
    · rw [ej, ek]
    · exact (unmet ck (ej ▸ d)).elim
    · exact (unmet cj (ek ▸ d.symm)).elim
    · rw [lettersAt, lettersAt, g.old cj, g.old ck] at d
      exact h.distinct j k cj ck d
  · rw [g.cursor] at hj
    rw [g.parked]
    exact (h.standing j hj).imp_left fun hc => g.mem.mpr (.inr hc)
  · rw [g.cursor]
    exact h.parted
  · rw [g.cursor] at hp hj
    exact g.mem.mpr (.inr (h.next hp j hj))

/-- The counts stay right when the new entry has a value. -/
theorem Gains.counted (g : t.Gains e i u) (h : t.Counted)
    (hash : e.key.hash = t.seed.hash e.key.bytes)
    (fresh : ∀ i ∈ t.chained, t.lettersAt i ≠ some e.key.letters)
    (value : e.value.isSome = true) : u.Counted := by
  refine ⟨g.linked h.toLinked hash fresh, ?_, ?_, ?_⟩
  · rw [show u.buckets = t.buckets from congrArg Settings.buckets g.settings]
    exact h.power
  · rw [g.total, g.chained.length_eq, List.length_cons, ← h.counted]
  · have filled : u.isPlaceholder i = false := by
      rw [isPlaceholder, g.new]
      simpa using value
    rw [g.chained.countP_eq, List.countP_cons_of_neg (by simp [filled])]
    refine g.placeholders.trans (h.marked.trans (List.countP_congr fun j hj => ?_))
    rw [isPlaceholder, isPlaceholder, g.old hj]

/-- The table holds the new entry and what it held. -/
theorem Gains.holds_iff (g : t.Gains e i u) {x : Bytes × Bool} {o : Option α} :
    j ∈ u.chained ∧ u.contentAt j = some (x, o) ↔
      j = i ∧ x = e.key.letters ∧ o = e.value ∨ j ∈ t.chained ∧ t.contentAt j = some (x, o) := by
  rw [g.mem]
  constructor
  · rintro ⟨rfl | hj, c⟩
    · rw [contentAt, g.new] at c
      simp only [Option.map_some, Option.some.injEq, Prod.mk.injEq] at c
      exact .inl ⟨rfl, c.1.symm, c.2.symm⟩
    · rw [contentAt, g.old hj] at c
      exact .inr ⟨hj, c⟩
  · rintro (⟨rfl, rfl, rfl⟩ | ⟨hj, c⟩)
    · refine ⟨.inl rfl, ?_⟩
      rw [contentAt, g.new]
      rfl
    · refine ⟨.inr hj, ?_⟩
      rw [contentAt, g.old hj]
      exact c

end

/-- `u` is the table `t` with a key and its value, at the place `i`, besides.  It has the live
entries of `t`; some placeholders may have gone. -/
structure Adds (t : Table α) (key : Key) (v : α) (i : Nat) (u : Table α) : Prop where
  sound : u.Sound
  new : i ∈ u.chained ∧ u.contentAt i = some (key.letters, some v)
  live : ∀ x w, t.Binds x (some w) → u.Binds x (some w)
  old : ∀ x o, u.Binds x o → x = key.letters ∧ o = some v ∨ t.Binds x o
  restricted : u.restricted = t.restricted
  mayReseed : u.mayReseed = true → t.mayReseed = true
  home : u.seed = t.seed ∧ u.pool = t.pool ∨ t.mayReseed = true ∧ u.pool = none

theorem Adds.binds_iff {key : Key} {v w : α} (h : t.Adds key v i u) {x : Bytes × Bool} :
    u.Binds x (some w) ↔ x = key.letters ∧ w = v ∨ t.Binds x (some w) := by
  constructor
  · intro hb
    exact (h.old x _ hb).imp_left fun ⟨hx, hw⟩ => ⟨hx, Option.some.inj hw⟩
  · rintro (⟨rfl, rfl⟩ | hb)
    · exact ⟨i, h.new⟩
    · exact h.live x w hb

theorem Adds.fixed {key : Key} {v : α} (h : t.Adds key v i u) : t.Fixed u where
  restricted := h.restricted
  seed settled := by
    refine ⟨?_, h.home.elim (·.1) fun ⟨may, _⟩ => ?_⟩
    · cases may : u.mayReseed with
      | false => rfl
      | true => exact (h.mayReseed may).symm.trans settled
    · rw [settled] at may
      cases may

/-- **Adding.**  A key that the table does not hold is added, whether the table grows or not. -/
theorem Sound.add (h : t.Sound) (key : Key) (hash : key.hash = t.seed.hash key.bytes)
    (fresh : ∀ i ∈ t.chained, t.lettersAt i ≠ some key.letters) (v : α) (supply : Supply) :
    t.Adds key v (t.add key v supply).1 (t.add key v supply).2.1 := by
  have gains := h.toLinked.link ⟨key, some v⟩
  unfold Table.add
  generalize t.link ⟨key, some v⟩ = r at gains
  obtain ⟨i, w⟩ := r
  dsimp only at gains ⊢
  have counted := gains.counted h.toCounted hash fresh rfl
  have total := gains.total
  have settings := gains.settings
  have buckets : w.buckets = t.buckets := congrArg Settings.buckets settings
  simp only [Table.settings, Settings.mk.injEq] at settings
  obtain ⟨seed, restricted, rehashed, countsKeys, pinned, pool, -⟩ := settings
  have may : w.mayReseed = t.mayReseed := by
    simp [Table.mayReseed, rehashed, countsKeys, pinned]
  have new : i ∈ w.chained ∧ w.contentAt i = some (key.letters, some v) :=
    gains.holds_iff.mpr (.inl ⟨rfl, rfl, rfl⟩)
  have live (x : Bytes × Bool) (o : α) (hb : t.Binds x (some o)) : w.Binds x (some o) := by
    obtain ⟨j, hj⟩ := hb
    exact ⟨j, gains.holds_iff.mpr (.inr hj)⟩
  have old (x : Bytes × Bool) (o : Option α) (hb : w.Binds x o) :
      x = key.letters ∧ o = some v ∨ t.Binds x o := by
    obtain ⟨j, hj⟩ := hb
    exact (gains.holds_iff.mp hj).imp And.right fun hj => ⟨j, hj⟩
  split
  · have room : w.total ≤ w.buckets + w.buckets := by
      have := h.roomy
      have := h.positive
      omega
    obtain ⟨sound, grows⟩ := counted.split room supply
    refine ⟨sound, grows.live i _ v new, fun x o hb => grows.binds_iff.mpr (live x o hb),
      fun x o hb => ?_, grows.restricted.trans restricted, fun hm => may ▸ grows.mayReseed hm, ?_⟩
    · obtain ⟨j, hj⟩ := hb
      exact old x o ⟨j, grows.old j x o hj⟩
    · rw [← seed, ← pool, ← may]
      exact grows.home
  · rename_i cond
    rw [outgrown, Bool.or_eq_true, not_or, decide_eq_true_eq] at cond
    exact ⟨⟨counted, Nat.le_of_not_lt cond.1⟩, new, live, old, restricted, fun hm => may ▸ hm,
      .inl ⟨seed, pool⟩⟩

/-! ### Reserving -/

theorem isPowerOfTwo_powerAbove (n : Nat) : (powerAbove n).isPowerOfTwo := by
  unfold powerAbove
  split
  · exact ⟨0, rfl⟩
  · exact ⟨_, rfl⟩

/-- No power of two between is passed over. -/
theorem powerAbove_le_iff (n k : Nat) : powerAbove n ≤ 2 ^ k ↔ n ≤ 2 ^ k := by
  unfold powerAbove
  split
  next small =>
    have := Nat.two_pow_pos k
    omega
  next large =>
    change 2 ^ ((n - 1).log2 + 1) ≤ 2 ^ k ↔ n ≤ 2 ^ k
    rw [Nat.pow_le_pow_iff_right (by decide), Nat.succ_le_iff, Nat.log2_lt (by omega)]
    omega

theorem powerAbove_pow (k : Nat) : powerAbove (2 ^ k) = 2 ^ k := by
  obtain ⟨j, hj⟩ := isPowerOfTwo_powerAbove (2 ^ k)
  have above : 2 ^ k ≤ powerAbove (2 ^ k) := hj ▸ (powerAbove_le_iff (2 ^ k) j).mp (Nat.le_of_eq hj)
  exact Nat.le_antisymm ((powerAbove_le_iff _ k).mpr (Nat.le_refl _)) above

theorem Counted.rebucket (h : t.Counted) {n : Nat} (power : n.isPowerOfTwo) :
    (t.rebucket n).Counted := by
  have positive : 0 < n := Nat.pos_of_isPowerOfTwo power
  have perm := chained_rebucket t positive
  refine ⟨h.toLinked.rebucket positive, ?_, ?_, ?_⟩
  · rwa [buckets_rebucket]
  · rw [perm.length_eq]
    exact h.counted
  · rw [countP_isPlaceholder_relinked perm fun _ _ => rfl]
    exact h.marked

/-- **Reserving** keeps a table sound, with what it holds. -/
theorem Sound.reserve (h : t.Sound) {n : Nat} (hu : t.reserve n = .ok u) :
    u.Sound ∧ u.restricted = t.restricted ∧ u.seed = t.seed ∧ u.pool = t.pool ∧
      ∀ x o, u.Binds x o ↔ t.Binds x o := by
  unfold Table.reserve at hu
  dsimp only at hu
  split at hu
  · cases hu
  · split at hu
    · cases hu
      exact ⟨h, rfl, rfl, rfl, fun x o => Iff.rfl⟩
    · split at hu
      · cases hu
      · rename_i more _
        cases hu
        have power := isPowerOfTwo_powerAbove n
        have perm := chained_rebucket t (Nat.pos_of_isPowerOfTwo power)
        refine ⟨⟨h.toCounted.rebucket power, ?_⟩, rfl, rfl, rfl,
          fun x o => binds_relinked perm fun _ => rfl⟩
        rw [buckets_rebucket]
        exact Nat.le_trans h.roomy (Nat.le_of_lt (Nat.lt_of_not_le more))

end

end ScriptCore.Table
