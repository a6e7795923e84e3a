import Mathlib.Data.Nat.Bitwise
import ScriptCore.Proofs.HashTable.Removal
import ScriptCore.Proofs.Table.Doubling

/-!
# HashTable — dealing places out anew

Both ways to grow turn the links of chained places and leave the others alone (`Moves`).

* `Forms.rebucket`: putting all places at the head of their chains, the last one first, makes the
  chains that have them in order.
* `Forms.doubled`: going along each chain once and putting each place behind the last one of its
  half divides the chain in two.  `divide` holds the half that is done, and what is left of the old
  chain; the links of both are in one arena.
* `Forms.reseed`: the same links for entries of another seed are dealt out anew as well.
-/

namespace ScriptCore.HashTable
variable {α : Type} {t w : HashTable α} {u : Table α} {cs cs' : Array (List Nat)}
  {b c i j k n : Nat} {places : List Nat}

/-! ### Moving places -/

/-- `w` is `t` with other heads, and other links of some places. -/
structure Moves (t : HashTable α) (places : List Nat) (w : HashTable α) : Prop extends
    t.Relinks w where
  next : ∀ j ∉ places, w.next? j = t.next? j

theorem Moves.refl (t : HashTable α) (places : List Nat) : t.Moves places t :=
  ⟨.refl t, fun _ _ => rfl⟩

theorem Moves.trans {v : HashTable α} (h : t.Moves places v) (h' : v.Moves places w) :
    t.Moves places w :=
  ⟨h.toRelinks.trans h'.toRelinks, fun j hj => (h'.next j hj).trans (h.next j hj)⟩

theorem Moves.mono {more : List Nat} (h : t.Moves places w) (sub : places ⊆ more) :
    t.Moves more w :=
  ⟨h.toRelinks, fun j hj => h.next j fun hp => hj (sub hp)⟩

theorem moves_setNext (t : HashTable α) (i : Nat) (next : Option Nat) :
    t.Moves [i] (t.setNext i next) :=
  ⟨relinks_setNext t i next, fun _ hj => next?_setNext_ne (Ne.symm (by simpa using hj)) next⟩

theorem moves_setLink (t : HashTable α) (b : Nat) (prev next : Option Nat) :
    t.Moves prev.toList (t.setLink b prev next) := by
  refine ⟨relinks_setLink t b prev next, fun j hj => next?_setLink_ne ?_ next⟩
  rintro rfl
  simp at hj

theorem moves_heads (t : HashTable α) (heads : Array (Option Nat)) (places : List Nat) :
    t.Moves places { t with heads } := ⟨⟨rfl, rfl⟩, fun _ _ => rfl⟩

/-- A parked place that is not moved goes on as before. -/
theorem Moves.view_eq (h : t.Moves places w) (apart : ∀ k, t.parked = some k → k ∉ places)
    (cs cs' : Array (List Nat)) : w.view cs' = { t.view cs with chains := cs' } := by
  have onward : w.onward = t.onward := by
    have parked : w.parked = t.parked := by rw [HashTable.parked, h.cursor_eq]; rfl
    rw [HashTable.onward, parked, HashTable.onward]
    cases hk : t.parked with
    | none => rfl
    | some k => exact h.next k (apart k hk)
  rw [h.toRelinks.view_eq cs cs', onward]
  rfl

/-! ### Buckets by low bits -/

/-- The low bits of a hash are its remainder, as bucket counts are powers of two. -/
theorem bucketOf_eq_mod (power : t.heads.size.isPowerOfTwo) (hash : UInt32) :
    t.bucketOf hash = hash.toNat % t.heads.size := by
  obtain ⟨k, hk⟩ := power
  rw [bucketOf, buckets, hk, Nat.and_two_pow_sub_one_eq_mod]

/-- The bit of value `2 ^ k` of a number. -/
theorem and_ne_zero_iff (power : n.isPowerOfTwo) (x : Nat) : x &&& n ≠ 0 ↔ x / n % 2 = 1 := by
  obtain ⟨k, rfl⟩ := power
  rw [Nat.and_two_pow, Nat.testBit_eq_decide_div_mod_eq]
  by_cases bit : x / 2 ^ k % 2 = 1 <;> simp [bit]

/-! ### Relinking from scratch -/

/-- **A place at the head** of the chain of its hash. -/
theorem Lays.pushFront (h : t.Lays cs) (power : t.heads.size.isPowerOfTwo)
    (apart : i ∉ cs.toList.flatten) (held : i < t.nodes.size) :
    (t.pushFront i).Lays (cs.modify ((t.hashAt i).toNat % cs.size) (i :: ·)) ∧
      t.Moves [i] (t.pushFront i) := by
  have lt : (t.hashAt i).toNat % cs.size < cs.size :=
    Nat.mod_lt _ (h.buckets ▸ Nat.pos_of_isPowerOfTwo power)
  have bucket : t.bucketOf (t.hashAt i) = (t.hashAt i).toNat % cs.size := by
    rw [bucketOf_eq_mod power, h.buckets]
  unfold HashTable.pushFront
  rw [bucket]
  generalize (t.hashAt i).toNat % cs.size = b at lt
  have laid := h.setNext held apart (t.head? b)
  have perm := Table.perm_flatten_cons lt i
  refine ⟨?_, (moves_setNext t i (t.head? b)).trans (moves_heads _ _ _)⟩
  refine laid.setLink [] (cs.getD b []) (i :: cs.getD b []) lt rfl
    (by simp) ?_ (fun c hc => ?_) ⟨rfl, ?_⟩ ?_ fun j hj => ?_
  · rw [getD_modify lt, if_pos rfl, List.nil_append]
  · rw [getD_modify lt, if_neg (Ne.symm hc)]
  · rw [next?_setNext held, Function.update_self, ← next?_setNext held]
    exact laid.leads b
  · exact (perm.nodup_iff).mpr (List.nodup_cons.mpr ⟨apart, h.nodup⟩)
  · rw [(relinks_setNext t i _).size_eq]
    rcases List.mem_cons.mp (perm.mem_iff.mp hj) with rfl | hj
    · exact held
    · exact h.held j hj

/-- Places put at the head of their chains, the last one first. -/
theorem Lays.pushFront_foldr (h : t.Lays (Array.replicate n [])) (power : n.isPowerOfTwo)
    (nodup : places.Nodup) (held : ∀ i ∈ places, i < t.nodes.size)
    (hash : ∀ i, t.hashAt i = u.hashAt i) :
    (places.foldr (fun i t => t.pushFront i) t).Lays (u.chainsOf n places) ∧
      t.Moves places (places.foldr (fun i t => t.pushFront i) t) := by
  induction places with
  | nil => exact ⟨h, .refl t []⟩
  | cons i places ih =>
    obtain ⟨unmet, nodup⟩ := List.nodup_cons.mp nodup
    obtain ⟨laid, moves⟩ := ih nodup fun j hj => held j (List.mem_cons_of_mem _ hj)
    rw [List.foldr_cons]
    generalize places.foldr (fun i t => t.pushFront i) t = w at laid moves
    have size : w.heads.size = n := laid.buckets.trans (Table.size_chainsOf u n places)
    have apart : i ∉ (u.chainsOf n places).toList.flatten := fun hi =>
      unmet ((Table.perm_chainsOf (Nat.pos_of_isPowerOfTwo power) places).mem_iff.mp hi)
    obtain ⟨laid', moves'⟩ := laid.pushFront (size ▸ power) apart
      (moves.size_eq ▸ held i (List.mem_cons_self ..))
    rw [moves.hashAt_eq, hash, Table.size_chainsOf] at laid'
    exact ⟨laid', (moves.mono (List.subset_cons_self ..)).trans
      (moves'.mono (List.cons_subset_cons i (List.nil_subset _)))⟩

theorem chained_eq (f : t.Forms u) : t.chained = u.chained := by
  rw [← f.table_eq]
  rfl

/-- **Relinking from scratch** makes the chains of any number of buckets. -/
theorem Forms.rebucket (f : t.Forms u) (power : n.isPowerOfTwo)
    (apart : ∀ k, u.parked = some k → k ∉ u.chained) :
    (t.rebucket n).Forms (u.rebucket n) ∧ t.Moves u.chained (t.rebucket n) := by
  unfold HashTable.rebucket
  rw [chained_eq f]
  obtain ⟨cs, lays, rfl⟩ := f
  have empty := lays_replicate (t := { t with heads := Array.replicate n none }) rfl
  obtain ⟨laid, moves⟩ := empty.pushFront_foldr (u := t.view cs) power lays.nodup lays.held
    fun i => by rw [hashAt, Table.hashAt, entry?_view]; rfl
  have moves := (moves_heads t (Array.replicate n none) _).trans moves
  exact ⟨⟨_, laid, moves.view_eq apart cs _⟩, moves⟩

/-! ### Other seeds -/

theorem heldKeys_eq (f : t.Forms u) : t.heldKeys = u.heldKeys := by
  obtain ⟨cs, -, rfl⟩ := f
  simp only [heldKeys, Table.heldKeys, view, Array.toList_map, List.filterMap_map]
  rfl

/-- Other entries in the same places, with the same links. -/
theorem Forms.rekeyed (f : t.Forms u) {entries : Array (Option (Table.Entry α))}
    (size : entries.size = u.entries.size) (seed : Seed) :
    Forms { t with
        nodes := t.nodes.zipWith (fun n entry => { n with entry }) entries
        seed, rehashed := true, pool := none }
      { u with entries, seed, rehashed := true, pool := none } := by
  obtain ⟨cs, lays, rfl⟩ := f
  have size : t.nodes.size = entries.size := by simpa [view] using size.symm
  set nodes := t.nodes.zipWith (fun n entry => { n with entry }) entries with hn
  have next (i : Nat) : (nodes[i]?).bind (·.next) = t.next? i := by
    rw [hn, Array.getElem?_zipWith, next?]
    by_cases lt : i < t.nodes.size
    · simp [lt, size ▸ lt]
    · simp [lt]
  have same : nodes.map (·.entry) = entries := by
    refine Array.ext_getElem? fun i => ?_
    rw [hn, Array.getElem?_map, Array.getElem?_zipWith]
    by_cases lt : i < t.nodes.size
    · simp [lt, size ▸ lt]
    · simp [lt, size ▸ lt]
  refine ⟨cs, lays.of_same rfl (by simp [hn, size]) fun i _ => next i, ?_⟩
  have onward : t.parked.bind (fun i => (nodes[i]?).bind (·.next)) = t.onward :=
    congrArg _ (funext next)
  rw [← same]
  unfold view
  rw [← onward]
  rfl

/-- **A new seed.**  The entries change in their places, and are relinked. -/
theorem Forms.reseed (f : t.Forms u) (power : u.buckets.isPowerOfTwo)
    (apart : ∀ k, u.parked = some k → k ∉ u.chained) (supply : Supply) :
    (t.reseed supply).1.Forms (u.reseed supply).1 ∧
      (t.reseed supply).2 = (u.reseed supply).2 := by
  have keys := heldKeys_eq f
  have pool : t.pool = u.pool := by
    obtain ⟨cs, -, rfl⟩ := f
    rfl
  have buckets : t.buckets = u.buckets := by
    obtain ⟨cs, lays, rfl⟩ := f
    exact lays.buckets
  have entries : t.nodes.toList.map (·.entry) = u.entries.toList := by
    obtain ⟨cs, -, rfl⟩ := f
    simp [view]
  have size := (Table.reseed_entries u supply).1
  unfold HashTable.reseed Table.reseed at *
  rw [entries, keys, pool]
  dsimp only at size ⊢
  generalize u.entries.toList.foldl _ _ = moved at size ⊢
  refine ⟨?_, rfl⟩
  show (HashTable.rebucket _ t.buckets).Forms (Table.rebucket _ u.buckets)
  rw [buckets]
  exact ((f.rekeyed size supply.draw.1).rebucket power apart).1

/-! ### Dividing chains -/

/-- A place put at the end of a chain. -/
theorem perm_flatten_concat (lt : b < cs.size) (i : Nat) :
    (cs.modify b (· ++ [i])).toList.flatten.Perm (i :: cs.toList.flatten) := by
  have h := Table.perm_flatten_modify (· ++ [i]) (l := cs.toList) (b := b) (c := cs[b])
    (by simp [lt])
  rw [Array.toList_modify]
  refine (List.perm_append_right_iff cs[b]).mp (h.trans ?_)
  exact (List.perm_append_comm.append_left _).trans
    ((List.perm_append_comm_assoc _ _ _).trans (.refl _))

/-- **A place at the end** of a chain, behind the last one. -/
theorem Lays.pushBack (h : t.Lays cs) (lt : b < cs.size) (apart : i ∉ cs.toList.flatten)
    (held : i < t.nodes.size) (ends : t.next? i = none) :
    (t.setLink b (cs.getD b []).getLast? (some i)).Lays (cs.modify b (· ++ [i])) ∧
      t.Moves cs.toList.flatten (t.setLink b (cs.getD b []).getLast? (some i)) := by
  have perm := perm_flatten_concat lt i
  refine ⟨h.setLink (cs.getD b []) [] [i] lt (by simp) (by simp) ?_ (fun c hc => ?_)
    ⟨rfl, ends⟩ ?_ fun j hj => ?_, (moves_setLink t b _ _).mono fun p hp => ?_⟩
  · rw [getD_modify lt, if_pos rfl]
  · rw [getD_modify lt, if_neg (Ne.symm hc)]
  · exact perm.nodup_iff.mpr (List.nodup_cons.mpr ⟨apart, h.nodup⟩)
  · rcases List.mem_cons.mp (perm.mem_iff.mp hj) with rfl | hj
    · exact held
    · exact h.held j hj
  · exact mem_flatten_of_mem (List.mem_of_getLast? (by simpa using hp))

/-- The first of the places that are left goes behind the last one of a chain.  Of the others the
links stay. -/
theorem Lays.moveBack {rest : List Nat} (h : t.Lays cs) (lt : b < cs.size)
    (held : i < t.nodes.size) (leads : Leads t.next? (t.next? i) rest none)
    (nodup : (i :: rest ++ cs.toList.flatten).Nodup) :
    let v := (t.setNext i none).setLink b (cs.getD b []).getLast? (some i)
    v.Lays (cs.modify b (· ++ [i])) ∧ t.Moves (i :: rest ++ cs.toList.flatten) v ∧
      Leads v.next? (t.next? i) rest none ∧
      (rest ++ (cs.modify b (· ++ [i])).toList.flatten).Perm (i :: rest ++ cs.toList.flatten) := by
  obtain ⟨unmet, nodup⟩ := List.nodup_cons.mp nodup
  obtain ⟨unmet, apart⟩ := not_or.mp (mt List.mem_append.mpr unmet)
  have ends : (t.setNext i none).next? i = none := by
    rw [next?_setNext held, Function.update_self]
  have moved : t.Moves (i :: rest ++ cs.toList.flatten) (t.setNext i none) :=
    (moves_setNext t i none).mono (by simp)
  obtain ⟨laid, back⟩ := (h.setNext held apart none).pushBack lt apart (moved.size_eq ▸ held) ends
  refine ⟨laid, moved.trans (back.mono (by simp)), leads.congr fun j hj => ?_,
    ((perm_flatten_concat lt i).append_left rest).trans List.perm_middle⟩
  have other : j ∉ cs.toList.flatten := fun hc => (List.nodup_append.mp nodup).2.2 j hj j hc rfl
  rw [back.next j other]
  refine next?_setNext_ne ?_ none
  rintro rfl
  exact unmet hj

/-- Chains that two of them got more places. -/
def dealt (cs : Array (List Nat)) (low high : Nat) (lows highs : List Nat) : Array (List Nat) :=
  (cs.modify low (· ++ lows)).modify high (· ++ highs)

theorem dealt_nil (cs : Array (List Nat)) (low high : Nat) : dealt cs low high [] [] = cs := by
  refine Array.ext_getElem? fun c => ?_
  simp only [dealt, Array.getElem?_modify, List.append_nil]
  split <;> split <;> simp

theorem dealt_cons_low (cs : Array (List Nat)) (low high : Nat) (i : Nat) (lows highs : List Nat) :
    dealt cs low high (i :: lows) highs =
      dealt (cs.modify low (· ++ [i])) low high lows highs := by
  refine Array.ext_getElem? fun c => ?_
  simp only [dealt, Array.getElem?_modify]
  split <;> split <;> cases cs[c]? <;> simp

theorem dealt_cons_high {low high : Nat} (ne : low ≠ high) (cs : Array (List Nat)) (i : Nat)
    (lows highs : List Nat) : dealt cs low high lows (i :: highs) =
      dealt (cs.modify high (· ++ [i])) low high lows highs := by
  refine Array.ext_getElem? fun c => ?_
  simp only [dealt, Array.getElem?_modify]
  by_cases e : high = c
  · have apart : ¬ low = c := fun e' => ne (e'.trans e.symm)
    cases cs[c]? <;> simp [e, apart]
  · simp [e]

/-- The hash at a place has the bit of value `old`. -/
def isHigh (t : HashTable α) (old i : Nat) : Bool := (t.hashAt i).toNat / old % 2 = 1

theorem Relinks.isHigh_eq (h : t.Relinks w) (old : Nat) : w.isHigh old = t.isHigh old :=
  funext fun i => by rw [isHigh, h.hashAt_eq]; rfl

/-- **Dividing a chain.**  What is left of it goes behind the two halves, each place behind the last
one of its own. -/
theorem Lays.divide {old low steps : Nat} {start : Option Nat} {rest : List Nat} (h : t.Lays cs)
    (power : old.isPowerOfTwo) (low_lt : low < cs.size) (high_lt : low + old < cs.size)
    (leads : Leads t.next? start rest none) (nodup : (rest ++ cs.toList.flatten).Nodup)
    (held : ∀ i ∈ rest, i < t.nodes.size) (le : rest.length ≤ steps) :
    let w := divide old low steps start (cs.getD low []).getLast?
      (cs.getD (low + old) []).getLast? t
    w.Lays (dealt cs low (low + old) (rest.filter fun i => !t.isHigh old i)
        (rest.filter (t.isHigh old))) ∧
      t.Moves (rest ++ cs.toList.flatten) w := by
  have positive : 0 < old := Nat.pos_of_isPowerOfTwo power
  induction rest generalizing t cs start steps with
  | nil =>
    obtain rfl : start = none := leads
    rw [List.filter_nil, List.filter_nil, dealt_nil]
    cases steps <;> exact ⟨h, .refl t _⟩
  | cons i rest ih =>
    obtain ⟨rfl, leads⟩ := leads
    cases steps with
    | zero => simp at le
    | succ steps =>
    have le : rest.length ≤ steps := by simpa using le
    have hi := held i (List.mem_cons_self ..)
    have held (j : Nat) (hj : j ∈ rest) : j < t.nodes.size := held j (List.mem_cons_of_mem _ hj)
    dsimp only [HashTable.divide]
    rw [(relinks_setNext t i none).hashAt_eq]
    by_cases bit : (t.hashAt i).toNat / old % 2 = 1
    · have rises : t.isHigh old i = true := by simpa [isHigh] using bit
      obtain ⟨laid, moves, leads, perm⟩ := h.moveBack high_lt hi leads nodup
      have went := ih laid (by simpa using low_lt) (by simpa using high_lt) leads
        (perm.nodup_iff.mpr nodup) (fun j hj => moves.size_eq ▸ held j hj) le
      rw [moves.isHigh_eq, getD_modify high_lt, getD_modify high_lt, if_neg (by omega), if_pos rfl,
        List.getLast?_concat, ← dealt_cons_high (by omega)] at went
      rw [if_pos ((and_ne_zero_iff power _).mpr bit)]
      simp only [List.filter_cons, rises, Bool.not_true, if_true, Bool.false_eq_true, if_false]
      exact ⟨went.1, moves.trans (went.2.mono perm.subset)⟩
    · have stays : t.isHigh old i = false := by simpa [isHigh] using bit
      obtain ⟨laid, moves, leads, perm⟩ := h.moveBack low_lt hi leads nodup
      have went := ih laid (by simpa using low_lt) (by simpa using high_lt) leads
        (perm.nodup_iff.mpr nodup) (fun j hj => moves.size_eq ▸ held j hj) le
      rw [moves.isHigh_eq, getD_modify low_lt, getD_modify low_lt, if_pos rfl,
        if_neg (show ¬ low = low + old by omega), List.getLast?_concat, ← dealt_cons_low] at went
      rw [if_neg (mt (and_ne_zero_iff power _).mp bit)]
      simp only [List.filter_cons, stays, Bool.not_false, if_true, Bool.false_eq_true, if_false]
      exact ⟨went.1, moves.trans (went.2.mono perm.subset)⟩

/-- A chain that is divided between its bucket and a new one. -/
theorem Lays.divideBucket {old low : Nat} (h : t.Lays cs) (power : old.isPowerOfTwo)
    (lt : low + old < cs.size) (new : cs.getD (low + old) [] = []) :
    (divideBucket old t low).Lays (dealt (cs.modify low fun _ => []) low (low + old)
        ((cs.getD low []).filter fun i => !t.isHigh old i)
        ((cs.getD low []).filter (t.isHigh old))) ∧
      t.Moves cs.toList.flatten (divideBucket old t low) := by
  have positive : 0 < old := Nat.pos_of_isPowerOfTwo power
  have low_lt : low < cs.size := by omega
  have perm : (cs.getD low [] ++ (cs.modify low fun _ => []).toList.flatten).Perm
      cs.toList.flatten := by
    have := Table.perm_flatten_modify (fun _ => []) (l := cs.toList) (b := low)
      (c := cs.getD low []) (by simp [Array.getD_eq_getD_getElem?, low_lt])
    rw [List.append_nil, ← Array.toList_modify] at this
    exact List.perm_append_comm.trans this
  have nodup := perm.nodup_iff.mpr h.nodup
  -- the chain is taken away first
  have away : (t.setHead low none).Lays (cs.modify low fun _ => []) := by
    refine h.setLink [] (cs.getD low []) [] low_lt rfl (by simp) ?_
      (fun c hc => ?_) rfl (List.nodup_append.mp nodup).2.1 fun i hi => ?_
    · rw [getD_modify low_lt, if_pos rfl]
      rfl
    · rw [getD_modify low_lt, if_neg (Ne.symm hc)]
    · exact h.held i (perm.mem_iff.mp (List.mem_append_right _ hi))
  have went := away.divide power (by simpa using low_lt) (by simpa using lt)
    (h.leads low) nodup (fun i hi => h.held i (mem_flatten_of_mem hi)) (h.length_le low)
  rw [getD_modify low_lt, getD_modify low_lt, if_pos rfl, if_neg (by omega), new] at went
  exact ⟨went.1, (moves_heads t _ _).trans (went.2.mono perm.subset)⟩

theorem getD_append_empty (cs : Array (List Nat)) (n b : Nat) :
    (cs ++ Array.replicate n []).getD b [] = cs.getD b [] := by
  rw [Array.getD_eq_getD_getElem?, Array.getD_eq_getD_getElem?, Array.getElem?_append]
  split
  · rfl
  · rename_i le
    rw [Array.getElem?_eq_none (Nat.le_of_not_lt le), Array.getElem?_replicate]
    split <;> rfl

/-- More buckets, with no place yet. -/
theorem Lays.append_empty (h : t.Lays cs) (n : Nat) :
    Lays { t with heads := t.heads ++ Array.replicate n none } (cs ++ Array.replicate n []) := by
  refine ⟨by simp [h.buckets], fun b => ?_, by simpa using h.nodup, by simpa using h.held⟩
  have head : head? { t with heads := t.heads ++ Array.replicate n none } b = t.head? b := by
    unfold head?
    rw [Array.getElem?_append]
    split
    · rfl
    · rename_i le
      rw [Array.getElem?_eq_none (Nat.le_of_not_lt le), Array.getElem?_replicate]
      split <;> rfl
  rw [getD_append_empty, head]
  exact h.leads b

/-- The chains when those before `k` are divided. -/
def halfway (t : HashTable α) (cs : Array (List Nat)) (k b : Nat) : List Nat :=
  if b < k then (cs.getD b []).filter fun i => !t.isHigh cs.size i
  else if b < cs.size then cs.getD b []
  else if b < cs.size + k then (cs.getD (b - cs.size) []).filter (t.isHigh cs.size)
  else []

theorem mem_of_mem_halfway (hi : i ∈ t.halfway cs k b) : i ∈ cs.toList.flatten := by
  unfold halfway at hi
  by_cases divided : b < k
  · rw [if_pos divided] at hi
    exact mem_flatten_of_mem (List.mem_filter.mp hi).1
  rw [if_neg divided] at hi
  by_cases old : b < cs.size
  · rw [if_pos old] at hi
    exact mem_flatten_of_mem hi
  rw [if_neg old] at hi
  by_cases new : b < cs.size + k
  · rw [if_pos new] at hi
    exact mem_flatten_of_mem (List.mem_filter.mp hi).1
  · rw [if_neg new] at hi
    cases hi

theorem halfway_succ_of_ne (low : b ≠ k) (high : b ≠ k + cs.size) :
    t.halfway cs (k + 1) b = t.halfway cs k b := by
  have before : b < k + 1 ↔ b < k := by omega
  have after : b < cs.size + (k + 1) ↔ b < cs.size + k := by omega
  simp only [halfway, before, after]

/-- The chains when all are divided. -/
theorem halfway_size (lt : b < cs.size + cs.size) :
    t.halfway cs cs.size b = (cs.getD (b % cs.size) []).filter fun i =>
      ((t.view cs).hashAt i).toNat / cs.size % 2 = b / cs.size := by
  have hash (i : Nat) : (t.view cs).hashAt i = t.hashAt i := by
    rw [Table.hashAt, entry?_view]
    rfl
  simp only [halfway, hash]
  by_cases low : b < cs.size
  · rw [if_pos low, Nat.mod_eq_of_lt low, Nat.div_eq_of_lt low]
    refine List.filter_congr fun i _ => ?_
    rcases Nat.mod_two_eq_zero_or_one ((t.hashAt i).toNat / cs.size) with e | e <;>
      simp [isHigh, e]
  · have high : b / cs.size = 1 := Nat.div_eq_of_lt_le (by omega) (by omega)
    rw [if_neg low, if_neg low, if_pos lt, high, Nat.mod_eq_sub_mod (by omega),
      Nat.mod_eq_of_lt (by omega)]
    rfl

/-- Chain after chain is divided. -/
theorem Lays.divide_foldl (h : t.Lays cs) (power : cs.size.isPowerOfTwo) (le : k ≤ cs.size) :
    let w := (List.range k).foldl (HashTable.divideBucket cs.size)
      { t with heads := t.heads ++ Array.replicate cs.size none }
    t.Moves cs.toList.flatten w ∧
      ∃ cs', w.Lays cs' ∧ cs'.size = cs.size + cs.size ∧ ∀ b, cs'.getD b [] = t.halfway cs k b := by
  induction k with
  | zero =>
    refine ⟨moves_heads t _ _, _, h.append_empty cs.size, by simp, fun b => ?_⟩
    rw [getD_append_empty, halfway, if_neg (Nat.not_lt_zero b), Nat.add_zero]
    by_cases lt : b < cs.size
    · rw [if_pos lt]
    · simp [lt, Array.getD_eq_getD_getElem?]
  | succ k ih =>
    obtain ⟨moves, cs', laid, size, chain⟩ := ih (by omega)
    rw [List.range_succ, List.foldl_append]
    generalize (List.range k).foldl _ _ = w at moves laid
    have new : cs'.getD (k + cs.size) [] = [] := by
      rw [chain, halfway, if_neg (by omega), if_neg (by omega), if_neg (by omega)]
    have here : cs'.getD k [] = cs.getD k [] := by
      rw [chain, halfway, if_neg (by omega), if_pos (by omega)]
    have inside : cs'.toList.flatten ⊆ cs.toList.flatten := by
      intro i hi
      obtain ⟨b, hi⟩ := Table.mem_flatten_iff.mp hi
      exact mem_of_mem_halfway (chain b ▸ hi)
    obtain ⟨laid', moves'⟩ := laid.divideBucket power (by omega) new
    refine ⟨moves.trans (moves'.mono inside), _, laid', by simp [dealt, size], fun b => ?_⟩
    rw [here, moves.isHigh_eq, dealt, getD_modify (by simp; omega), getD_modify (by simp; omega),
      getD_modify (by omega)]
    by_cases high : k + cs.size = b
    · subst high
      rw [if_pos rfl, if_neg (by omega), if_neg (by omega), new, List.nil_append, halfway,
        if_neg (by omega), if_neg (by omega), if_pos (by omega), Nat.add_sub_cancel]
    · rw [if_neg high]
      by_cases low : k = b
      · subst low
        rw [if_pos rfl, if_pos rfl, List.nil_append, halfway, if_pos (by omega)]
      · rw [if_neg low, if_neg low, chain, halfway_succ_of_ne (Ne.symm low) (Ne.symm high)]

/-- **Doubling** divides all chains. -/
theorem Forms.doubled (f : t.Forms u) (power : u.buckets.isPowerOfTwo)
    (apart : ∀ k, u.parked = some k → k ∉ u.chained) :
    t.doubled.Forms u.doubled ∧ t.Moves u.chained t.doubled := by
  obtain ⟨cs, lays, rfl⟩ := f
  obtain ⟨moves, cs', laid, size, chain⟩ := lays.divide_foldl (k := cs.size) power (Nat.le_refl _)
  unfold HashTable.doubled HashTable.buckets
  rw [lays.buckets]
  refine ⟨⟨cs', laid, ?_⟩, moves⟩
  rw [moves.view_eq apart cs]
  have chains : cs' = (t.view cs).doubled.chains := by
    refine Table.chains_ext (t := t.view cs') ?_ fun b hb => ?_
    · exact size.trans (Table.buckets_doubled (t.view cs)).symm
    rw [Table.chain_doubled (t := t.view cs) (size ▸ hb)]
    exact (chain b).trans (halfway_size (size ▸ hb))
  rw [chains]
  rfl

end ScriptCore.HashTable
