import Mathlib.Tactic.Common
import ScriptCore.Proofs.Table.Capacity

/-!
# Table — doubling in place and relinking

A table grows in two ways.  `split` goes along each chain once and divides it on the bit of the
hash that became significant; `rebucket` takes all places out and deals them out anew, into any
number of buckets.  Both leave the places of a bucket in the order in which they were chained.

* `chain_rebucket`: a relinked bucket holds what was chained, in order, as far as its hash belongs
  there.
* `Linked.doubled_eq`: a table that doubles is the table relinked into twice the buckets, and each
  new chain is divided off one old chain.
* `Counted.divides`: what a split notes down tells whether it only divides the chains, and then so
  do those that follow (`Divides.rebucket`).
* `Linked.filter_rebucket`: the keys of a bucket are gone through in the order of before.
-/

namespace ScriptCore.Table
variable {α : Type}

/-- The hash at a place belongs into a bucket out of `n`. -/
def falls (t : Table α) (n b i : Nat) : Bool := (t.hashAt i).toNat % n = b

section
variable {t u : Table α} {b c i k m n : Nat} {supply : Supply}

/-! ### Chains -/

theorem chains_ext (buckets : t.buckets = u.buckets)
    (chain : ∀ b < t.buckets, t.chain b = u.chain b) : t.chains = u.chains := by
  refine Array.ext buckets fun b hb hb' => ?_
  simpa [Table.chain, hb, hb'] using chain b hb

theorem chain_of_le (h : t.buckets ≤ b) : t.chain b = [] := by
  simp [Table.chain, Array.getD_eq_getD_getElem?, Array.getElem?_eq_none h]

/-- What a chain shows is shown by all chains, when no other chain shows anything. -/
theorem filter_flatten_of_only {p : Nat → Bool} {l : List (List Nat)} {b : Nat}
    (only : ∀ c, c ≠ b → ∀ i ∈ (l[c]?).getD [], p i = false) :
    l.flatten.filter p = ((l[b]?).getD []).filter p := by
  induction l generalizing b with
  | nil => simp
  | cons d l ih =>
    rw [List.flatten_cons, List.filter_append]
    cases b with
    | zero =>
      have rest : l.flatten.filter p = [] := by
        refine List.filter_eq_nil_iff.mpr fun i hi => ?_
        obtain ⟨e, he, hi⟩ := List.mem_flatten.mp hi
        obtain ⟨c, hc⟩ := List.mem_iff_getElem?.mp he
        simp [only (c + 1) (by omega) i (by simpa [hc] using hi)]
      simp [rest]
    | succ b =>
      have head : d.filter p = [] :=
        List.filter_eq_nil_iff.mpr fun i hi => by simp [only 0 (by omega) i (by simpa using hi)]
      have rest := ih (b := b) fun c hc i hi => only (c + 1) (by omega) i (by simpa using hi)
      simp [head, rest]

/-- **Relinking** deals the places out in order. -/
theorem chain_chainsOf (lt : b < n) (places : List Nat) :
    (t.chainsOf n places).getD b [] = places.filter (t.falls n b) := by
  induction places with
  | nil => simp [chainsOf, lt]
  | cons i places ih =>
    have step : t.chainsOf n (i :: places) =
        (t.chainsOf n places).modify ((t.hashAt i).toNat % n) (i :: ·) := rfl
    have there : b < (t.chainsOf n places).size := by rwa [size_chainsOf]
    simp only [Array.getD_eq_getD_getElem?, Array.getElem?_eq_getElem there, Option.getD_some] at ih
    rw [step, Array.getD_eq_getD_getElem?, Array.getElem?_modify, List.filter_cons]
    by_cases h : (t.hashAt i).toNat % n = b <;> simp [falls, h, there, ih]

theorem chain_rebucket (lt : b < n) :
    (t.rebucket n).chain b = t.chained.filter (t.falls n b) := chain_chainsOf lt t.chained

/-- What belongs into a bucket of many stands in one chain of few. -/
theorem Linked.filter_chained (h : t.Linked) (dvd : t.buckets ∣ n) :
    t.chained.filter (t.falls n b) = (t.chain (b % t.buckets)).filter (t.falls n b) := by
  have only : ∀ c, c ≠ b % t.buckets → ∀ i ∈ (t.chains.toList[c]?).getD [],
      t.falls n b i = false := by
    intro c hc i hi
    rw [Array.getElem?_toList, ← Array.getD_eq_getD_getElem?] at hi
    have placed : (t.hashAt i).toNat % t.buckets = c := h.placed c i hi
    rw [falls, decide_eq_false_iff_not]
    rintro rfl
    rw [Nat.mod_mod_of_dvd _ dvd] at hc
    exact hc placed.symm
  rw [chained, filter_flatten_of_only only, Array.getElem?_toList, ← Array.getD_eq_getD_getElem?]
  rfl

/-- A table that is relinked into the buckets it has stays as it is. -/
theorem Linked.rebucket_self (h : t.Linked) : t.rebucket t.buckets = t := by
  have chains : (t.rebucket t.buckets).chains = t.chains := by
    refine chains_ext (buckets_rebucket t _) fun b hb => ?_
    rw [buckets_rebucket] at hb
    rw [chain_rebucket hb, h.filter_chained (Nat.dvd_refl _), Nat.mod_eq_of_lt hb]
    exact List.filter_eq_self.mpr fun i hi => decide_eq_true (h.placed b i hi)
  exact congrArg (fun chains => { t with chains }) chains

/-- Relinking in two steps comes to the second alone. -/
theorem Linked.rebucket_rebucket (h : t.Linked) (hm : 0 < m) (dvd : m ∣ n) :
    (t.rebucket m).rebucket n = t.rebucket n := by
  have chains : ((t.rebucket m).rebucket n).chains = (t.rebucket n).chains := by
    refine chains_ext (by rw [buckets_rebucket, buckets_rebucket]) fun b hb => ?_
    rw [buckets_rebucket] at hb
    rw [chain_rebucket hb, chain_rebucket hb,
      (h.rebucket hm).filter_chained (by rwa [buckets_rebucket]), buckets_rebucket,
      chain_rebucket (Nat.mod_lt b hm), List.filter_filter]
    refine List.filter_congr fun i _ => ?_
    show ((t.falls n b i) && t.falls m (b % m) i) = t.falls n b i
    by_cases e : (t.hashAt i).toNat % n = b
    · simp [falls, e, ← Nat.mod_mod_of_dvd (t.hashAt i).toNat dvd]
    · simp [falls, e]
  exact congrArg (fun chains => { t with chains }) chains

/-- The chains of a table that doubles. -/
theorem chain_doubled (lt : b < t.buckets + t.buckets) :
    t.doubled.chain b =
      (t.chain (b % t.buckets)).filter fun i =>
        (t.hashAt i).toNat / t.buckets % 2 = b / t.buckets := by
  have half (bit c : Nat) : (t.halves t.buckets bit)[c]?.getD [] =
      (t.chain c).filter fun i => (t.hashAt i).toNat / t.buckets % 2 = bit := by
    rw [halves, Array.getElem?_map, Table.chain, Array.getD_eq_getD_getElem?]
    cases t.chains[c]? <;> simp
  have size : (t.halves t.buckets 0).size = t.buckets := by simp [halves, buckets]
  rw [Table.chain, Table.doubled, Array.getD_eq_getD_getElem?, Array.getElem?_append, size]
  by_cases low : b < t.buckets
  · rw [if_pos low, half, Nat.mod_eq_of_lt low, Nat.div_eq_of_lt low]
  · have high : b / t.buckets = 1 := Nat.div_eq_of_lt_le (by omega) (by omega)
    rw [if_neg low, half, high, Nat.mod_eq_sub_mod (by omega), Nat.mod_eq_of_lt (by omega)]

/-- **Doubling** divides each chain as relinking into twice the buckets does. -/
theorem Linked.chain_doubled (h : t.Linked) (lt : b < 2 * t.buckets) :
    t.doubled.chain b = (t.chain (b % t.buckets)).filter (t.falls (2 * t.buckets) b) := by
  rw [Table.chain_doubled (by omega)]
  refine List.filter_congr fun i hi => ?_
  have placed : (t.hashAt i).toNat % t.buckets = b % t.buckets := h.placed _ i hi
  have low := Nat.mod_add_div b t.buckets
  rw [falls, Nat.mul_comm 2, Nat.mod_mul, placed]
  congr 1
  rw [eq_iff_iff]
  constructor
  · intro bit
    rw [bit, low]
  · intro whole
    have : t.buckets * ((t.hashAt i).toNat / t.buckets % 2) = t.buckets * (b / t.buckets) := by
      omega
    exact Nat.eq_of_mul_eq_mul_left h.positive this

theorem Linked.doubled_eq (h : t.Linked) : t.doubled = t.rebucket (2 * t.buckets) := by
  have chains : t.doubled.chains = (t.rebucket (2 * t.buckets)).chains := by
    refine chains_ext (by rw [buckets_doubled, buckets_rebucket]; omega) fun b hb => ?_
    have lt : b < 2 * t.buckets := by rw [buckets_doubled] at hb; omega
    rw [h.chain_doubled lt, chain_rebucket lt, h.filter_chained (Nat.dvd_mul_left _ _)]
  exact congrArg (fun chains => { t with chains }) chains

/-- Doubling what was relinked comes to relinking into twice as many buckets. -/
theorem Linked.doubled_rebucket (h : t.Linked) (positive : 0 < n) :
    (t.rebucket n).doubled = t.rebucket (2 * n) := by
  rw [(h.rebucket positive).doubled_eq, buckets_rebucket,
    h.rebucket_rebucket positive (Nat.dvd_mul_left n 2)]

/-! ### Doubling that does nothing else -/

/-- A table that doubles only divides its chains: it has no placeholder that it must let go of, and
no chain that stays too long for its seed. -/
structure Divides (t : Table α) : Prop where
  placeholders : t.placeholders = 0 ∨ t.restricted = true
  seed : t.mayReseed = true → t.doubled.longestChain ≤ longestTolerated

theorem Counted.placeholders_dropPlaceholders (h : t.Counted) :
    t.dropPlaceholders.1.placeholders = 0 := by
  obtain ⟨counted, -, -, holds⟩ := h.dropPlaceholders
  rw [counted.marked, List.countP_eq_zero]
  intro i hi
  obtain ⟨e, he⟩ := counted.entry_eq hi
  have live := ((holds i e.key.letters e.value).mp ⟨hi, by simp [contentAt, he]⟩).2.2
  obtain ⟨v, hv⟩ := Option.isSome_iff_exists.mp live
  simp [isPlaceholder, he, hv]

/-- What a split counts and notes down tells whether it did more than divide the chains. -/
theorem Counted.divides (h : t.Counted)
    (placeholders : (t.split supply).1.placeholders = t.placeholders)
    (rehashed : (t.split supply).1.rehashed = t.rehashed) : t.Divides := by
  have held : t.placeholders = 0 ∨ t.restricted = true := by
    by_contra more
    obtain ⟨some, free⟩ := not_or.mp more
    have gone : (t.split supply).1.placeholders = t.dropPlaceholders.1.placeholders := by
      have drops : 0 < t.placeholders ∧ t.restricted = false := by simp_all; omega
      rw [Table.split, if_pos drops]
      dsimp only
      split <;> rfl
    rw [h.placeholders_dropPlaceholders] at gone
    omega
  have keeps : ¬ (0 < t.placeholders ∧ t.restricted = false) := by
    rintro ⟨some, free⟩
    rcases held with none | held
    · omega
    · simp [free] at held
  refine ⟨held, fun may => ?_⟩
  by_contra long
  have reseeds : t.doubled.mayReseed ∧ longestTolerated < t.doubled.longestChain :=
    ⟨may, Nat.lt_of_not_le long⟩
  have noted : (t.split supply).1.rehashed = true := by
    rw [Table.split, if_neg keeps]
    dsimp only
    rw [if_pos reseeds]
    rfl
  simp [mayReseed, ← rehashed, noted] at may

theorem longestChain_le (le : ∀ b, (t.chain b).length ≤ n) : t.longestChain ≤ n := by
  rw [longestChain, List.foldl_eq_foldr]
  refine List.max_le_of_forall_le _ _ fun l hl => ?_
  obtain ⟨c, hc, rfl⟩ := List.mem_map.mp hl
  obtain ⟨b, hb⟩ := List.mem_iff_getElem?.mp hc
  rw [Array.getElem?_toList] at hb
  simpa [Table.chain, hb] using le b

/-- Chains that are divided get no longer. -/
theorem longestChain_doubled (t : Table α) : t.doubled.longestChain ≤ t.longestChain := by
  refine longestChain_le fun b => ?_
  by_cases lt : b < t.buckets + t.buckets
  · rw [chain_doubled lt]
    exact Nat.le_trans (List.length_filter_le _ _) (length_chain_le t _)
  · rw [chain_of_le (buckets_doubled t ▸ Nat.le_of_not_lt lt)]
    exact Nat.zero_le _

theorem Divides.doubled (d : t.Divides) : t.doubled.Divides where
  placeholders := d.placeholders
  seed may := Nat.le_trans (longestChain_doubled _) (d.seed may)

/-- A table that only divides its chains will do so as often as it doubles. -/
theorem Divides.rebucket (d : t.Divides) (h : t.Linked) (k : Nat) :
    (t.rebucket (2 ^ k * t.buckets)).Divides := by
  induction k with
  | zero =>
    rw [Nat.pow_zero, Nat.one_mul, h.rebucket_self]
    exact d
  | succ k ih =>
    have positive : 0 < 2 ^ k * t.buckets := Nat.mul_pos (Nat.two_pow_pos k) h.positive
    have double : 2 ^ (k + 1) * t.buckets = 2 * (2 ^ k * t.buckets) := by
      rw [Nat.pow_succ, Nat.mul_comm _ 2, Nat.mul_assoc]
    rw [double, ← h.doubled_rebucket positive]
    exact ih.doubled

/-! ### The order of keys -/

/-- The live keys of a bucket stand in the order of its places. -/
theorem filter_keys (t : Table α) (n b : Nat) :
    t.keys.filter (fun key => key.hash.toNat % n = b) =
      (t.chained.filter (t.falls n b)).filterMap fun i =>
        (t.entry? i).bind fun e => e.value.map fun _ => e.key := by
  have keys : t.keys = t.chained.filterMap fun i =>
      (t.entry? i).bind fun e => e.value.map fun _ => e.key := by
    rw [Table.keys, toList, List.map_filterMap]
    refine List.filterMap_congr fun i _ => ?_
    obtain _ | ⟨key, _ | v⟩ := t.entry? i <;> rfl
  rw [keys, List.filter_filterMap, List.filterMap_filter]
  refine List.filterMap_congr fun i _ => ?_
  rw [falls, hashAt]
  obtain _ | ⟨key, _ | v⟩ := t.entry? i <;> simp [Option.filter]

/-- What belongs into a bucket stands in order after relinking. -/
theorem Linked.filter_rebucket (h : t.Linked) (lt : b < n) :
    (t.rebucket n).chained.filter (t.falls n b) = t.chained.filter (t.falls n b) :=
  have linked : (t.rebucket n).Linked := h.rebucket (Nat.zero_lt_of_lt lt)
  calc (t.rebucket n).chained.filter (t.falls n b)
    _ = ((t.rebucket n).chain (b % (t.rebucket n).buckets)).filter (t.falls n b) :=
      linked.filter_chained (by rw [buckets_rebucket])
    _ = (t.chained.filter (t.falls n b)).filter (t.falls n b) := by
      rw [buckets_rebucket, Nat.mod_eq_of_lt lt, chain_rebucket lt]
    _ = t.chained.filter (t.falls n b) := by
      rw [List.filter_filter, funext fun i => Bool.and_self _]

end

end ScriptCore.Table
