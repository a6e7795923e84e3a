import ScriptCore.Proofs.HashTable.Session
import ScriptCore.Proofs.Table.Doubling

/-!
# HashTable — doubling in place and relinking

`split` goes along each chain once, with the last places of two chains at hand, and sets heads and
links as it goes.  `rebucket` collects all places and puts each at the head of its chain, the last
one first.  Both leave the same heads and the same links.

* `Lays.determines`: heads and links are determined by the chains that they lay out.
* `Forms.doubled_eq`: a table that is doubled is the table relinked into twice the buckets.
* `splits_eq_rebucket`: a split that lets go of no placeholder and keeps the seed is that table, and
  `k` of them are the table relinked once into `2 ^ k` times the buckets, which is what a hint of
  so many keys leaves.
-/

namespace ScriptCore.HashTable

/-- Doubles a table so many times, unless it is refused. -/
def splits {α : Type} (t : HashTable α) (memory : Nat) (supply : Supply) : Nat → Grown α
  | 0 => ⟨t, [], supply, none⟩
  | k + 1 =>
    let g := t.splits memory supply k
    if g.refusal.isSome then g
    else
      let g' := g.table.split memory g.supply
      { g' with gone := g.gone ++ g'.gone }

variable {α : Type} {t v w : HashTable α} {u x : Table α} {cs : Array (List Nat)}
  {i k n memory : Nat} {supply : Supply}

/-! ### What chains determine -/

/-- A link is determined by the chain it is in, or was not moved. -/
theorem Lays.next_eq (laid : v.Lays cs) (laid' : w.Lays cs) (moves : t.Moves cs.toList.flatten v)
    (moves' : t.Moves cs.toList.flatten w) (i : Nat) : v.next? i = w.next? i := by
  by_cases hi : i ∈ cs.toList.flatten
  · obtain ⟨b, hb⟩ := Table.mem_flatten_iff.mp hi
    obtain ⟨c, d, chain⟩ := List.append_of_mem hb
    have link := laid.leads b
    have link' := laid'.leads b
    rw [chain] at link link'
    rw [link.next_eq, link'.next_eq]
  · rw [moves.next i hi, moves'.next i hi]

/-- **What chains determine.**  Of a table whose chained places were moved, the chains determine
every head and every link. -/
theorem Lays.determines (laid : v.Lays cs) (laid' : w.Lays cs)
    (moves : t.Moves cs.toList.flatten v) (moves' : t.Moves cs.toList.flatten w) : v = w := by
  have heads : v.heads = w.heads := by
    refine Array.ext (laid.buckets.trans laid'.buckets.symm) fun b hb hb' => ?_
    have head : v.head? b = w.head? b := (laid.leads b).start_eq.trans (laid'.leads b).start_eq.symm
    simpa [head?, hb, hb'] using head
  have nodes : v.nodes = w.nodes := by
    refine Array.ext (moves.size_eq.trans moves'.size_eq.symm) fun i hi hi' => ?_
    have entry : v.nodes[i].entry = w.nodes[i].entry := by
      have entries := (moves.entry?_eq i).trans (moves'.entry?_eq i).symm
      simpa [HashTable.entry?, hi, hi'] using entries
    have next : v.nodes[i].next = w.nodes[i].next := by
      have links := laid.next_eq laid' moves moves' i
      simpa [next?, hi, hi'] using links
    exact congrArg₂ Node.mk entry next
  rw [moves.rest, moves'.rest, heads, nodes]

/-- Tables that form the same one by moving its chained places are the same. -/
theorem Forms.determines (f : v.Forms x) (f' : w.Forms x) (moves : t.Moves x.chained v)
    (moves' : t.Moves x.chained w) : v = w := by
  obtain ⟨cs, laid, rfl⟩ := f
  obtain ⟨cs', laid', e⟩ := f'
  obtain rfl : cs' = cs := congrArg Table.chains e
  exact laid.determines laid' moves moves'

theorem isPowerOfTwo_two_pow_mul (k : Nat) (power : n.isPowerOfTwo) :
    (2 ^ k * n).isPowerOfTwo := by
  obtain ⟨j, rfl⟩ := power
  exact ⟨k + j, (Nat.pow_add 2 k j).symm⟩

/-- A table that is relinked forms the relinked table, by moving its chained places. -/
theorem Forms.rebucket_moves (f : t.Forms u) (linked : u.Linked) (power : n.isPowerOfTwo) :
    (t.rebucket n).Forms (u.rebucket n) ∧ t.Moves (u.rebucket n).chained (t.rebucket n) := by
  obtain ⟨formed, moves⟩ := f.rebucket power (apart_of_linked linked)
  have perm := Table.chained_rebucket u (Nat.pos_of_isPowerOfTwo power)
  exact ⟨formed, moves.mono perm.symm.subset⟩

/-- A table that is relinked into the buckets it has stays as it is. -/
theorem Forms.rebucket_self (f : t.Forms u) (counted : u.Counted) :
    t.rebucket t.buckets = t := by
  obtain ⟨formed, moves⟩ := f.rebucket_moves counted.toLinked counted.power
  rw [counted.rebucket_self] at formed moves
  rw [buckets_eq f]
  exact formed.determines f moves (.refl t _)

/-- **Doubling in place**, after relinking into some buckets, comes to relinking into twice as
many. -/
theorem Forms.doubled_rebucket (f : t.Forms u) (linked : u.Linked) (power : n.isPowerOfTwo) :
    (t.rebucket n).doubled = t.rebucket (2 * n) := by
  have positive : 0 < n := Nat.pos_of_isPowerOfTwo power
  obtain ⟨once, moves⟩ := f.rebucket_moves linked power
  obtain ⟨twice, moves'⟩ := f.rebucket_moves linked (isPowerOfTwo_two_pow_mul 1 power)
  rw [Nat.pow_one] at twice moves'
  obtain ⟨formed, moves''⟩ := once.doubled ((Table.buckets_rebucket u n).symm ▸ power)
    (apart_of_linked (linked.rebucket positive))
  rw [linked.doubled_rebucket positive] at formed
  have places : (u.rebucket n).chained ⊆ (u.rebucket (2 * n)).chained :=
    ((Table.chained_rebucket u positive).trans
      (Table.chained_rebucket u (Nat.mul_pos Nat.two_pos positive)).symm).subset
  exact formed.determines twice ((moves.trans moves'').mono places) moves'

/-! ### Splits that do nothing else -/

theorem fits_iff : fits memory n ↔ n < memory ∧ n < Table.unreservable := by simp [fits]

theorem lt_of_fits (room : fits memory n) : n < Nat.pow 2 64 :=
  Nat.lt_trans (fits_iff.mp room).2 (Nat.pow_lt_pow_right (by decide) (by decide))

theorem fits_of_le {m : Nat} (room : fits memory n) (le : m ≤ n) : fits memory m := by
  obtain ⟨held, reservable⟩ := fits_iff.mp room
  exact fits_iff.mpr ⟨Nat.lt_of_le_of_lt le held, Nat.lt_of_le_of_lt le reservable⟩

/-- A split that is not refused had room. -/
theorem fits_of_split (grown : (t.split memory supply).refusal = none) :
    fits memory (2 * t.shed.1.buckets) := by
  by_contra full
  unfold HashTable.split at grown
  dsimp only at grown
  by_cases wrapped : Nat.pow 2 64 ≤ 2 * t.shed.1.buckets
  · rw [if_pos wrapped] at grown
    cases grown
  · rw [if_neg wrapped, if_pos (by simpa using full)] at grown
    cases grown

theorem shed_eq (f : t.Forms u) (divides : u.Divides) : t.shed = (t, []) := by
  refine if_neg ?_
  rw [placeholders_eq f, restricted_eq f]
  rintro ⟨some, free⟩
  rcases divides.placeholders with none | held
  · omega
  · simp [free] at held

/-- A table whose chains a split divides, and no more, is what the doubled table is. -/
theorem Forms.split_eq (f : t.Forms u) (counted : u.Counted) (divides : u.Divides)
    (room : fits memory (2 * t.buckets)) (supply : Supply) :
    t.split memory supply = ⟨t.doubled, [], supply, none⟩ := by
  obtain ⟨doubled, -⟩ := f.doubled counted.power (apart_of_linked counted.toLinked)
  have stays : ¬ (t.doubled.mayReseed = true ∧
      Table.longestTolerated < t.doubled.longestChain) := by
    rw [mayReseed_eq doubled, longestChain_eq doubled]
    exact fun ⟨may, long⟩ => Nat.not_lt.mpr (divides.seed may) long
  rw [HashTable.split, shed_eq f divides]
  dsimp only
  rw [if_neg (Nat.not_le.mpr (lt_of_fits room)), if_neg (by simp [room]), if_neg stays]

/-- What a split notes down tells whether it did more than divide the chains. -/
theorem Forms.divides (f : t.Forms u) (counted : u.Counted)
    (grown : (t.split memory supply).refusal = none)
    (keeps : (t.split memory supply).table.placeholders = t.placeholders)
    (stays : (t.split memory supply).table.rehashed = t.rehashed) : u.Divides := by
  have split := f.split counted memory supply
  dsimp only at split
  rw [grown] at split
  obtain ⟨formed, -⟩ := split
  refine counted.divides (show (u.split supply).1.placeholders = u.placeholders from ?_) ?_
  · rw [← placeholders_eq formed, ← placeholders_eq f, keeps]
  · rw [← rehashed_eq formed, ← rehashed_eq f, stays]

/-- **Splitting over and over** goes on as it began. -/
theorem Forms.splits_eq (f : t.Forms u) (counted : u.Counted) (divides : u.Divides)
    (supply : Supply) (k : Nat) (room : fits memory (2 ^ k * t.buckets)) :
    t.splits memory supply k = ⟨t.rebucket (2 ^ k * t.buckets), [], supply, none⟩ := by
  induction k with
  | zero => rw [Nat.pow_zero, Nat.one_mul, f.rebucket_self counted, splits]
  | succ k ih =>
    have double : 2 ^ (k + 1) * t.buckets = 2 * (2 ^ k * t.buckets) := by
      rw [Nat.pow_succ, Nat.mul_comm _ 2, Nat.mul_assoc]
    rw [double] at room
    have power : (2 ^ k * t.buckets).isPowerOfTwo :=
      isPowerOfTwo_two_pow_mul k (buckets_eq f ▸ counted.power)
    obtain ⟨formed, -⟩ := f.rebucket_moves counted.toLinked power
    have counted' : (u.rebucket (2 ^ k * t.buckets)).Counted := counted.rebucket power
    have divides' : (u.rebucket (2 ^ k * t.buckets)).Divides := by
      rw [buckets_eq f]
      exact divides.rebucket counted.toLinked k
    have held : (t.rebucket (2 ^ k * t.buckets)).buckets = 2 ^ k * t.buckets := by
      rw [buckets_eq formed, Table.buckets_rebucket]
    have step := formed.split_eq counted' divides' (held.symm ▸ room) supply
    rw [f.doubled_rebucket counted.toLinked power] at step
    rw [splits, ih (fits_of_le room (by omega))]
    simp [step, double]

/-- Room for so many powers of two more is made at once. -/
theorem Forms.reserve_eq (f : t.Forms u) (counted : u.Counted) (k : Nat)
    (room : fits memory (2 ^ k * t.buckets)) :
    t.reserve memory (2 ^ k * t.buckets) = (none, t.rebucket (2 ^ k * t.buckets)) := by
  obtain ⟨j, hj⟩ := counted.power
  have wanted : Table.powerAbove (2 ^ k * t.buckets) = 2 ^ k * t.buckets := by
    rw [buckets_eq f, hj, ← Nat.pow_add, Table.powerAbove_pow]
  rw [HashTable.reserve, wanted, if_neg (Nat.not_le.mpr (lt_of_fits room))]
  by_cases stays : 2 ^ k * t.buckets ≤ t.buckets
  · have same : 2 ^ k * t.buckets = t.buckets :=
      Nat.le_antisymm stays (Nat.le_mul_of_pos_left _ (Nat.two_pow_pos k))
    rw [if_pos stays, same, f.rebucket_self counted]
  · rw [if_neg stays, if_neg (by simp [room])]

/-- **Growing in steps or at once.**  Where a split of a well-formed table lets go of no placeholder
and does not give up the seed, it sets each head and each link as relinking into twice the buckets
does: the chain of each new bucket is what belongs there of one old chain, in order.  The splits
that follow do nothing else either.  So `k` of them leave the table that one hint of `2 ^ k` times
the buckets leaves, and the keys that share a bucket come in the order in which they came before. -/
theorem splits_eq_rebucket (h : t.WellFormed) (memory : Nat) (supply : Supply)
    (grown : (t.split memory supply).refusal = none)
    (keeps : (t.split memory supply).table.placeholders = t.placeholders)
    (stays : (t.split memory supply).table.rehashed = t.rehashed) :
    t.split memory supply = ⟨t.rebucket (2 * t.buckets), [], supply, none⟩ ∧
      (∀ b < 2 * t.buckets, (t.split memory supply).table.chain b =
        (t.chain (b % t.buckets)).filter fun i => (t.hashAt i).toNat % (2 * t.buckets) = b) ∧
      ∀ k, let n := 2 ^ k * t.buckets
        fits memory n →
          t.splits memory supply k = ⟨t.rebucket n, [], supply, none⟩ ∧
          t.reserve memory n = (none, (t.splits memory supply k).table) ∧
          ∀ b < n, (t.splits memory supply k).table.keys.filter
              (fun key => key.hash.toNat % n = b) =
            t.keys.filter fun key => key.hash.toNat % n = b := by
  have formed := h.forms
  have counted := h.counted_table
  have divides := formed.divides counted grown keeps stays
  have room : fits memory (2 * t.buckets) := by
    have room := fits_of_split grown
    rwa [shed_eq formed divides] at room
  have doubled : t.doubled = t.rebucket (2 * t.buckets) := by
    have doubled := formed.doubled_rebucket counted.toLinked counted.power
    rwa [← buckets_eq formed, formed.rebucket_self counted] at doubled
  have once := formed.split_eq counted divides room supply
  rw [doubled] at once
  refine ⟨once, fun b hb => ?_, fun k => ?_⟩
  · obtain ⟨relinked, -⟩ := formed.rebucket_moves counted.toLinked
      (isPowerOfTwo_two_pow_mul 1 h.power)
    rw [Nat.pow_one] at relinked
    rw [once, chain_eq relinked, Table.chain_rebucket hb, buckets_eq formed,
      counted.filter_chained (Nat.dvd_mul_left _ 2), ← chain_eq formed]
    refine List.filter_congr fun i _ => ?_
    rw [Table.falls, Table.hashAt, ← entry?_eq formed]
    rfl
  · intro n room
    have steps := formed.splits_eq counted divides supply k room
    refine ⟨steps, by rw [steps, formed.reserve_eq counted k room], fun b hb => ?_⟩
    obtain ⟨relinked, -⟩ := formed.rebucket_moves counted.toLinked
      (isPowerOfTwo_two_pow_mul k h.power)
    rw [steps, keys_eq relinked, keys_eq formed, Table.filter_keys, Table.filter_keys t.table]
    exact congrArg _ (counted.filter_rebucket hb)

/-- Eight keys, of which three chains hold two each: the first step divides none of them, the next
two divide all. -/
theorem splits_eq_rebucket_eight :
    let r := Keyring.ofSeeds #[] {}
    let ops : List (Table.Op Nat) :=
      [1, 2, 3, 4, 5, 6, 7, 8].map fun n => .store (.ofBytes [n]) n.toNat
    let t := (run 65 ops (fresh r (.own {}), r)).1
    (t.split 65 {}).refusal = none ∧ (t.split 65 {}).table.placeholders = t.placeholders ∧
      (t.split 65 {}).table.rehashed = t.rehashed ∧
      t.reserve 65 64 = (none, (t.splits 65 {} 3).table) ∧
      (t.splits 65 {} 1).table.chains.toList.filter (1 < ·.length) = [[3, 2], [4, 1], [5, 0]] ∧
      (t.splits 65 {} 3).table.chains.toList.filter (1 < ·.length) = [] := by
  intro r ops t
  have grows : affords 65 ops (fresh r (.own {}), r) := by decide +kernel
  obtain ⟨u, formed, housed⟩ := (lodged_fresh #[] {} (.own {})).run 65 ops grows
  have wellFormed : t.WellFormed := formed.wellFormed housed.sound.toCounted
  have grown : (t.split 65 {}).refusal = none := by decide +kernel
  have keeps : (t.split 65 {}).table.placeholders = t.placeholders := by decide +kernel
  have stays : (t.split 65 {}).table.rehashed = t.rehashed := by decide +kernel
  have eight : t.buckets = 8 := by decide +kernel
  obtain ⟨-, -, steps⟩ := splits_eq_rebucket wellFormed 65 {} grown keeps stays
  have hint := (steps 3 (by rw [eight]; decide)).2.1
  rw [eight] at hint
  exact ⟨grown, keeps, stays, hint, by decide +kernel, by decide +kernel⟩

end ScriptCore.HashTable
