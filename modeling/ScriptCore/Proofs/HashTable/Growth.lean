import ScriptCore.Proofs.HashTable.Relinking

/-!
# HashTable — growing

* `Forms.add`: an entry that is added is linked at the head of its chain, and the table then grows
  as the table that it forms does; or growth is refused, and the entry stays, linked and counted,
  in as many buckets as before.
* `Forms.reserve`: room for more keys is made by relinking, or refused with the table unchanged.
-/

namespace ScriptCore

/-- The table without its placeholders, unless they are the set of a restricted table. -/
def Table.shed {α : Type} (t : Table α) : Table α × List Key :=
  if 0 < t.placeholders ∧ t.restricted = false then t.dropPlaceholders else (t, [])

namespace HashTable
variable {α : Type} {t : HashTable α} {u : Table α} {cs : Array (List Nat)} {memory i n : Nat}

/-! ### What the two have in common -/

theorem buckets_eq (f : t.Forms u) : t.buckets = u.buckets := by
  obtain ⟨cs, lays, rfl⟩ := f
  exact lays.buckets

theorem bucketOf_eq (f : t.Forms u) (power : u.buckets.isPowerOfTwo) (hash : UInt32) :
    t.bucketOf hash = u.bucketOf hash := by
  have size := buckets_eq f
  rw [bucketOf_eq_mod (by rwa [← size] at power), Table.bucketOf, ← size]
  rfl

theorem chain_eq (f : t.Forms u) (b : Nat) : t.chain b = u.chain b := by
  obtain ⟨cs, lays, rfl⟩ := f
  exact lays.follow_eq b

theorem longestChain_eq (f : t.Forms u) : t.longestChain = u.longestChain := by
  rw [← f.table_eq]
  rfl

theorem mayReseed_eq (f : t.Forms u) : t.mayReseed = u.mayReseed := by
  rw [← f.table_eq]
  rfl

theorem apart_of_linked (linked : u.Linked) (k : Nat) (hk : u.parked = some k) : k ∉ u.chained :=
  linked.not_chained_of_parked hk

/-! ### Adding -/

/-- A place that is neither chained nor parked may get any entry and link. -/
theorem Lays.put {w : HashTable α} {n : Node α} (h : t.Lays cs) (heads : w.heads = t.heads)
    (cursor : w.cursor = t.cursor) (size : t.nodes.size ≤ w.nodes.size)
    (new : w.nodes[i]? = some n) (old : ∀ j, j ≠ i → w.nodes[j]? = t.nodes[j]?)
    (apart : i ∉ cs.toList.flatten) (unparked : t.parked ≠ some i) :
    w.Lays cs ∧ w.onward = t.onward ∧ w.next? i = n.next ∧ i < w.nodes.size := by
  have next (j : Nat) (hj : j ≠ i) : w.next? j = t.next? j := by rw [next?, old j hj]; rfl
  refine ⟨h.of_same heads size fun j hj => next j ?_, ?_, by simp [next?, new], ?_⟩
  · rintro rfl
    exact apart hj
  · have parked : w.parked = t.parked := by rw [parked, cursor]; rfl
    rw [onward, parked, onward]
    cases hk : t.parked with
    | none => rfl
    | some k =>
      refine next k ?_
      rintro rfl
      exact unparked hk
  · exact (Array.getElem?_eq_some_iff.mp new).1

/-- **Allocating.**  A place that is free, or new, gets an entry and a link. -/
theorem allocate_spec (lays : t.Lays cs) (linked : (t.view cs).Linked) (e : Table.Entry α)
    (next : Option Nat) :
    let a := t.allocate ⟨some e, next⟩
    a.1 = ((t.view cs).allocate e).1 ∧ a.2.view cs = ((t.view cs).allocate e).2 ∧ a.2.Lays cs ∧
      a.2.heads = t.heads ∧ a.2.next? a.1 = next ∧ a.1 < a.2.nodes.size ∧
      a.1 ∉ cs.toList.flatten := by
  have places := linked.places
  have entries : (t.view cs).entries.size = t.nodes.size := by simp [view]
  unfold HashTable.allocate Table.allocate
  rw [show (t.view cs).free = t.free from rfl] at places ⊢
  cases hf : t.free with
  | cons i rest =>
    rw [hf, entries] at places
    have held : i < t.nodes.size := List.mem_range.mp (places.subset (by simp))
    have nodup := places.nodup_iff.mpr List.nodup_range
    have apart : i ∉ cs.toList.flatten := fun hc =>
      (List.nodup_append.mp nodup).2.2 i hc i (by simp) rfl
    have unparked : t.parked ≠ some i := by
      intro hk
      have hk : (t.view cs).parked = some i := hk
      rw [hk] at nodup
      have rest := (List.nodup_append.mp nodup).2.1
      simp at rest
    obtain ⟨laid, onward, link, lt⟩ := lays.put
      (w := { t with nodes := t.nodes.setIfInBounds i ⟨some e, next⟩, free := rest })
      (n := ⟨some e, next⟩) rfl rfl (by simp) (by simp [held])
      (fun j hj => Array.getElem?_setIfInBounds_ne (Ne.symm hj)) apart unparked
    refine ⟨rfl, ?_, laid, rfl, link, lt, apart⟩
    dsimp only
    rw [view, onward, Array.map_setIfInBounds]
    rfl
  | nil =>
    rw [hf, entries] at places
    have unmet : t.nodes.size ∉ (t.view cs).chained ++ (t.view cs).parked.toList := fun h =>
      Nat.lt_irrefl _ (List.mem_range.mp (places.subset h))
    rw [List.mem_append, not_or] at unmet
    obtain ⟨laid, onward, link, lt⟩ := lays.put
      (w := { t with nodes := t.nodes.push ⟨some e, next⟩, free := [] })
      (n := ⟨some e, next⟩) rfl rfl (by simp) Array.getElem?_push_size
      (fun j hj => by simp [Array.getElem?_push, hj])
      unmet.1 fun hk => unmet.2 (by
        rw [show (t.view cs).parked = t.parked from rfl, hk]
        simp)
    refine ⟨entries.symm, ?_, laid, rfl, link, lt, unmet.1⟩
    dsimp only
    rw [view, onward, Array.map_push]
    rfl

/-- **Linking.**  A new entry comes to the head of the chain of its hash. -/
theorem Forms.link (f : t.Forms u) (counted : u.Counted) (e : Table.Entry α) :
    (t.link e).1 = (u.link e).1 ∧ (t.link e).2.Forms (u.link e).2 := by
  have bucket := bucketOf_eq f counted.power e.key.hash
  obtain ⟨cs, lays, rfl⟩ := f
  have lt : e.key.hash.toNat % cs.size < cs.size := Nat.mod_lt _ counted.positive
  obtain ⟨place, view, laid, -, next, held, apart⟩ :=
    allocate_spec lays counted.toLinked e (t.head? (e.key.hash.toNat % cs.size))
  have head : t.head? (e.key.hash.toNat % cs.size) =
      (cs.getD (e.key.hash.toNat % cs.size) []).head? :=
    (lays.leads _).start_eq
  unfold HashTable.link Table.link
  rw [bucket, show (t.view cs).bucketOf e.key.hash = e.key.hash.toNat % cs.size from rfl]
  dsimp only
  generalize t.allocate ⟨some e, t.head? (e.key.hash.toNat % cs.size)⟩ = a at *
  generalize (t.view cs).allocate e = v at *
  obtain ⟨i, w⟩ := a
  obtain ⟨i', v⟩ := v
  obtain rfl : i = i' := place
  obtain rfl : w.view cs = v := view
  dsimp only at laid next held apart ⊢
  refine ⟨rfl, cs.modify (e.key.hash.toNat % cs.size) (i :: ·), ?_, rfl⟩
  generalize e.key.hash.toNat % cs.size = b at lt next head
  have perm := Table.perm_flatten_cons lt i
  have linked : (w.setHead b (some i)).Lays (cs.modify b (i :: ·)) := by
    refine laid.setLink [] (cs.getD b []) (i :: cs.getD b []) lt rfl
      (by simp) ?_ (fun c hc => ?_) ⟨rfl, ?_⟩ ?_ fun j hj => ?_
    · rw [getD_modify lt, if_pos rfl, List.nil_append]
    · rw [getD_modify lt, if_neg (Ne.symm hc)]
    · rw [next, head, ← (laid.leads b).start_eq]
      exact laid.leads b
    · exact perm.nodup_iff.mpr (List.nodup_cons.mpr ⟨apart, laid.nodup⟩)
    · rcases List.mem_cons.mp (perm.mem_iff.mp hj) with rfl | hj
      · exact held
      · exact laid.held j hj
  exact linked.of_same rfl (Nat.le_refl _) fun _ _ => rfl

/-! ### Doubling -/

theorem isPowerOfTwo_doubled (h : u.Counted) : u.doubled.buckets.isPowerOfTwo := by
  obtain ⟨k, hk⟩ := h.power
  exact ⟨k + 1, by rw [Table.buckets_doubled, hk, Nat.pow_succ]; omega⟩

theorem Forms.shed (f : t.Forms u) (linked : u.Linked) :
    t.shed.1.Forms u.shed.1 ∧ t.shed.2 = u.shed.2 := by
  have dropped := f.dropPlaceholders linked
  have counts : t.placeholders = u.placeholders ∧ t.restricted = u.restricted := by
    rw [← f.table_eq]
    exact ⟨rfl, rfl⟩
  unfold HashTable.shed Table.shed
  rw [counts.1, counts.2]
  split
  · exact dropped
  · exact ⟨f, rfl⟩

/-- **Doubling.**  A table that may double does as the table that it forms; one that may not has
let go of its placeholders and keeps its buckets. -/
theorem Forms.split (f : t.Forms u) (counted : u.Counted) (memory : Nat) (supply : Supply) :
    let g := t.split memory supply
    match g.refusal with
    | none => g.table.Forms (u.split supply).1 ∧ (g.gone, g.supply) = (u.split supply).2
    | some why => (∃ n, why = .outOfMemory n) ∧
      g.table.Forms u.shed.1 ∧ (g.gone, g.supply) = (u.shed.2, supply) := by
  obtain ⟨shed, keys⟩ := f.shed counted.toLinked
  obtain ⟨counted, -⟩ := counted.grows_cleared
  have counted : u.shed.1.Counted := counted
  have split : u.split supply =
      let d := u.shed.1.doubled
      if d.mayReseed ∧ Table.longestTolerated < d.longestChain then
        ((d.reseed supply).1, u.shed.2 ++ (d.reseed supply).2.1, (d.reseed supply).2.2)
      else (d, u.shed.2, supply) := rfl
  rw [split]
  unfold HashTable.split
  generalize t.shed = s at shed keys
  generalize u.shed = v at shed keys counted
  obtain ⟨s, gone⟩ := s
  obtain ⟨v, gone'⟩ := v
  obtain rfl : gone = gone' := keys
  dsimp only at shed counted ⊢
  have apart := apart_of_linked counted.toLinked
  obtain ⟨doubled, -⟩ := shed.doubled counted.power apart
  have power := isPowerOfTwo_doubled counted
  have apart' : ∀ k, v.doubled.parked = some k → k ∉ v.doubled.chained :=
    apart_of_linked counted.toLinked.doubled
  obtain ⟨reseeded, rest⟩ := doubled.reseed power apart' supply
  by_cases wrapped : Nat.pow 2 64 ≤ 2 * s.buckets
  · rw [if_pos wrapped]
    exact ⟨⟨_, rfl⟩, shed, rfl⟩
  rw [if_neg wrapped]
  by_cases room : fits memory (2 * s.buckets)
  · rw [if_neg (by simp [room]), mayReseed_eq doubled, longestChain_eq doubled]
    by_cases long : v.doubled.mayReseed = true ∧ Table.longestTolerated < v.doubled.longestChain
    · rw [if_pos long, if_pos long, ← rest]
      exact ⟨reseeded, rfl⟩
    · rw [if_neg long, if_neg long]
      exact ⟨doubled, rfl⟩
  · rw [if_pos (by simp [room])]
    exact ⟨⟨_, rfl⟩, shed, rfl⟩

theorem outgrown_eq (f : t.Forms u) (counted : u.Counted) (hash : UInt32) :
    t.outgrown hash = u.outgrown hash := by
  have total : t.total = u.total := by
    rw [← f.table_eq]
    rfl
  rw [HashTable.outgrown, buckets_eq f, total, mayReseed_eq f, bucketOf_eq f counted.power,
    chain_eq f]
  rfl

/-- **Adding.**  An entry of letters that the table does not hold is added as to the table that it
forms.  If growth is refused, the entry is there, and placeholders may have gone. -/
theorem Forms.add (f : t.Forms u) (counted : u.Counted) {key : Key}
    (hash : key.hash = u.seed.hash key.bytes)
    (fresh : ∀ i ∈ u.chained, u.lettersAt i ≠ some key.letters) (memory : Nat) (value : α)
    (supply : Supply) :
    let g := (t.add memory key value supply).2
    match g.refusal with
    | none => g.table.Forms (u.add key value supply).2.1 ∧
      (g.gone, g.supply) = (u.add key value supply).2.2
    | some why =>
      let w := (u.link ⟨key, some value⟩).2.shed
      (∃ n, why = .outOfMemory n) ∧ g.table.Forms w.1 ∧ (g.gone, g.supply) = (w.2, supply) := by
  have linked := (f.link counted ⟨key, some value⟩).2
  have counted := (counted.toLinked.link ⟨key, some value⟩).counted counted hash fresh rfl
  unfold HashTable.add Table.add
  generalize t.link ⟨key, some value⟩ = l at linked
  generalize u.link ⟨key, some value⟩ = m at linked counted
  obtain ⟨i, w⟩ := l
  obtain ⟨j, v⟩ := m
  dsimp only at linked counted ⊢
  rw [outgrown_eq linked counted]
  by_cases more : v.outgrown key.hash
  · rw [if_pos more, if_pos more]
    exact linked.split counted memory supply
  · rw [if_neg more, if_neg more]
    exact ⟨linked, rfl⟩

/-- **Reserving** relinks as the table that is formed does, or is refused and changes nothing. -/
theorem Forms.reserve (f : t.Forms u) (counted : u.Counted) (memory n : Nat) :
    match t.reserve memory n with
    | (none, t') => ∃ u', u.reserve n = .ok u' ∧ t'.Forms u'
    | (some _, t') => t' = t := by
  unfold HashTable.reserve Table.reserve
  rw [buckets_eq f]
  dsimp only
  by_cases wrapped : Nat.pow 2 64 ≤ Table.powerAbove n
  · rw [if_pos wrapped]
  rw [if_neg wrapped, if_neg wrapped]
  by_cases held : Table.powerAbove n ≤ u.buckets
  · rw [if_pos held, if_pos held]
    exact ⟨u, rfl, f⟩
  rw [if_neg held, if_neg held]
  by_cases room : fits memory (Table.powerAbove n)
  · have reservable : ¬ Table.unreservable ≤ Table.powerAbove n := by
      simp [fits] at room
      omega
    rw [if_neg (by simp [room]), if_neg reservable]
    exact ⟨_, rfl, (f.rebucket (Table.isPowerOfTwo_powerAbove n)
      (apart_of_linked counted.toLinked)).1⟩
  · rw [if_pos (by simp [room])]

end HashTable

end ScriptCore
