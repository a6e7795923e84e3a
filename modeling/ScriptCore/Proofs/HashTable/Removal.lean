import ScriptCore.Proofs.HashTable.Links
import ScriptCore.Proofs.Table.Sparing

/-!
# HashTable — taking entries out

Taking a place out of its chain turns one link, and the link of an entry deleted under the cursor
if it leads to that place.  What is formed is the table without the place (`Forms.remove`).

* `Forms.dropPlaceholders`: going along all chains takes out what has no value, with the keys in
  the order in which the chains have them.
-/

namespace ScriptCore.HashTable
variable {α : Type} {t : HashTable α} {u : Table α} {cs : Array (List Nat)} {b i j n : Nat}
  {pre post : List Nat} {ks : List Key}

/-! ### Values, counts and free places -/

theorem Lays.of_same {w : HashTable α} (h : t.Lays cs) (heads : w.heads = t.heads)
    (size : t.nodes.size ≤ w.nodes.size) (next : ∀ i ∈ cs.toList.flatten, w.next? i = t.next? i) :
    w.Lays cs where
  buckets := heads ▸ h.buckets
  leads b := by
    have head : w.head? b = t.head? b := by rw [head?, heads]; rfl
    exact head ▸ (h.leads b).congr fun i hi => next i (mem_flatten_of_mem hi)
  nodup := h.nodup
  held i hi := Nat.lt_of_lt_of_le (h.held i hi) size

theorem next?_setValue (t : HashTable α) (i : Nat) (v : Option α) :
    (t.setValue i v).next? = t.next? := by
  funext j
  unfold next? setValue
  rw [Array.getElem?_modify]
  split
  · cases t.nodes[j]? <;> rfl
  · rfl

theorem Forms.setValue (f : t.Forms u) (i : Nat) (v : Option α) :
    (t.setValue i v).Forms (u.setValue i v) := by
  obtain ⟨cs, lays, rfl⟩ := f
  refine ⟨cs, lays.of_same rfl (by simp [HashTable.setValue]) fun j _ => ?_, ?_⟩
  · rw [next?_setValue]
  have entries : (t.setValue i v).nodes.map (·.entry) = ((t.view cs).setValue i v).entries := by
    refine Array.ext_getElem? fun j => ?_
    simp only [HashTable.setValue, Table.setValue, view, Array.getElem?_map,
      Array.getElem?_modify]
    split
    · cases t.nodes[j]? <;> rfl
    · rfl
  have onward : (t.setValue i v).onward = t.onward := by
    rw [HashTable.onward, next?_setValue]
    rfl
  rw [view, entries, onward]
  rfl

theorem Forms.withTotal (f : t.Forms u) (total : Nat) :
    Forms { t with total } { u with total } := by
  obtain ⟨cs, lays, rfl⟩ := f
  exact ⟨cs, lays.of_same rfl (Nat.le_refl _) fun _ _ => rfl, rfl⟩

theorem Forms.withPlaceholders (f : t.Forms u) (placeholders : Nat) :
    Forms { t with placeholders } { u with placeholders } := by
  obtain ⟨cs, lays, rfl⟩ := f
  exact ⟨cs, lays.of_same rfl (Nat.le_refl _) fun _ _ => rfl, rfl⟩

theorem entry?_eq (f : t.Forms u) (i : Nat) : t.entry? i = u.entry? i := by
  obtain ⟨cs, -, rfl⟩ := f
  exact (entry?_view t cs i).symm

theorem next?_freePlace_ne (ne : i ≠ j) : (t.freePlace i).1.next? j = t.next? j := by
  unfold next? freePlace
  rw [Array.getElem?_setIfInBounds_ne ne]

/-- A place is freed that is neither chained nor parked. -/
theorem Forms.freePlace (f : t.Forms u) (apart : i ∉ u.chained) (unparked : u.parked ≠ some i) :
    (t.freePlace i).1.Forms (u.freePlace i).1 ∧ (t.freePlace i).2 = (u.freePlace i).2 := by
  refine ⟨?_, by rw [HashTable.freePlace, entry?_eq f]; rfl⟩
  obtain ⟨cs, lays, rfl⟩ := f
  refine ⟨cs, lays.of_same rfl (by simp [HashTable.freePlace]) fun j hj => ?_, ?_⟩
  · refine next?_freePlace_ne ?_
    rintro rfl
    exact apart hj
  have entries : (t.freePlace i).1.nodes.map (·.entry) = ((t.view cs).freePlace i).1.entries := by
    refine Array.ext_getElem? fun j => ?_
    simp only [HashTable.freePlace, Table.freePlace, view, Array.getElem?_map,
      Array.getElem?_setIfInBounds, Array.size_map]
    split
    · split <;> rfl
    · rfl
  have onward : (t.freePlace i).1.onward = t.onward := by
    have parked : (t.freePlace i).1.parked = t.parked := rfl
    rw [HashTable.onward, parked, HashTable.onward]
    cases hk : t.parked with
    | none => rfl
    | some k =>
      refine next?_freePlace_ne ?_
      rintro rfl
      exact unparked hk
  rw [view, entries, onward]
  rfl

/-! ### Unlinking -/

theorem next?_setNext_ne (ne : i ≠ j) (next : Option Nat) :
    (t.setNext i next).next? j = t.next? j := by
  unfold next? setNext
  rw [Array.getElem?_modify, if_neg ne]

theorem next?_setLink_ne {prev : Option Nat} (ne : prev ≠ some j) (next : Option Nat) :
    (t.setLink b prev next).next? j = t.next? j := by
  cases prev with
  | none => rfl
  | some i => exact next?_setNext_ne (fun e => ne (congrArg some e)) next

/-- The link of a parked entry is turned on if it leads to the place that goes. -/
theorem Lays.repair (h : t.Lays cs) (gone : Nat) (after : Option Nat)
    (parked : ∀ k, t.parked = some k → k ≠ gone ∧ k ∉ cs.toList.flatten ∧ k < t.nodes.size) :
    (t.repair gone after).Lays cs ∧ t.Relinks (t.repair gone after) ∧
      (t.repair gone after).onward = (if t.onward = some gone then after else t.onward) ∧
      ∀ j, t.parked ≠ some j → (t.repair gone after).next? j = t.next? j := by
  unfold HashTable.repair HashTable.onward
  cases hk : t.parked with
  | none => exact ⟨h, .refl t, by simp [hk], fun _ _ => rfl⟩
  | some k =>
    obtain ⟨ne, apart, held⟩ := parked k hk
    dsimp only [Option.bind_some]
    by_cases leads : t.next? k = some gone
    · rw [if_pos ⟨ne, leads⟩, if_pos leads]
      refine ⟨h.setNext held apart after, relinks_setNext t k after, ?_, fun j hj => ?_⟩
      · show t.parked.bind (t.setNext k after).next? = after
        rw [hk, next?_setNext held]
        exact Function.update_self ..
      · exact next?_setNext_ne (fun e => hj (congrArg some e)) after
    · rw [if_neg (fun both => leads both.2), if_neg leads, hk]
      exact ⟨h, .refl t, rfl, fun _ _ => rfl⟩

theorem lt_of_parked (linked : (t.view cs).Linked) (hi : t.parked = some i) :
    i < t.nodes.size := by
  have parked : (t.view cs).parked = some i := hi
  have mem := linked.places.subset (a := i) (by simp [parked])
  simpa [view] using mem

/-- Turning the link that leads to a place past it takes the place out of its chain. -/
theorem Lays.setLink_next (h : t.Lays cs) (old : cs.getD b [] = pre ++ i :: post) :
    (t.setLink b pre.getLast? (t.next? i)).Lays (cs.modify b (·.erase i)) := by
  have hi : i ∈ cs.getD b [] := by simp [old]
  have lt : b < cs.size := by
    by_contra le
    simp [Array.getD_eq_getD_getElem?, le] at hi
  have apart : i ∉ pre := by
    have nodup := h.nodup.sublist (sublist_flatten cs b)
    rw [old] at nodup
    exact fun hp => (List.nodup_append.mp nodup).2.2 i hp i (by simp) rfl
  have leads := h.leads b
  rw [old] at leads
  obtain ⟨_, -, -, leads⟩ := leads_append.mp leads
  have perm := Table.perm_flatten_erase hi
  refine h.setLink pre (i :: post) post lt old (by simp) ?_ (fun c hc => ?_) leads
    (List.nodup_cons.mp (perm.nodup h.nodup)).2 fun k hk => ?_
  · rw [Table.chain_modify (·.erase i) rfl, if_pos rfl, old, List.erase_append_right _ apart,
      List.erase_cons_head]
  · rw [Table.chain_modify (·.erase i) rfl, if_neg (Ne.symm hc)]
  · exact h.held k (perm.mem_iff.mpr (List.mem_cons_of_mem _ hk))

theorem parted_of_onward {j : Nat} (h : t.onward = some j) : t.cursor.parted = true := by
  by_contra still
  simp [HashTable.onward, HashTable.parked, still] at h

/-- A link behind the first places of a chain starts neither at the place that follows them nor at
one that is not chained. -/
theorem Lays.next?_setLink (h : t.Lays cs) (old : cs.getD b [] = pre ++ i :: post) {k : Nat}
    (apart : k ∉ cs.toList.flatten ∨ k = i) (next : Option Nat) :
    (t.setLink b pre.getLast? next).next? k = t.next? k := by
  refine next?_setLink_ne (fun last => ?_) next
  have hp : k ∈ pre := List.mem_of_getLast? last
  rcases apart with hk | rfl
  · exact hk (mem_flatten_of_mem (b := b) (by simp [old, hp]))
  · have nodup := h.nodup.sublist (sublist_flatten cs b)
    rw [old] at nodup
    exact (List.nodup_append.mp nodup).2.2 k hp k (by simp) rfl

/-- The cursor goes on from elsewhere if it was to go on from the place that goes. -/
theorem cursor_view (cs : Array (List Nat)) (i : Nat) (after : Option Nat) :
    { (t.view cs).cursor with next := if t.onward = some i then after else t.onward } =
      if t.cursor.parted ∧ t.onward = some i then { (t.view cs).cursor with next := after }
      else (t.view cs).cursor := by
  by_cases leads : t.onward = some i
  · rw [if_pos leads, if_pos ⟨parted_of_onward leads, leads⟩]
  · rw [if_neg leads, if_neg fun both => leads both.2]
    rfl

/-- What a table is without a place of a chain. -/
theorem unlink_eq (linked : u.Linked) (chain : u.chain b = pre ++ i :: post) :
    u.unlink i = { u with
      chains := u.chains.modify b (·.erase i)
      cursor := if u.cursor.parted ∧ u.cursor.next = some i then
        { u.cursor with next := post.head? } else u.cursor } := by
  have nodup := Table.nodup_chain linked b
  rw [chain] at nodup
  have apart : i ∉ pre := fun hp => (List.nodup_append.mp nodup).2.2 i hp i (by simp) rfl
  rw [Table.unlink, linked.placed b i (by simp [chain]), chain, Table.successor_append apart]

/-- **Unlinking** takes a place out of the chain that it is in, wherever the cursor stands. -/
theorem Forms.unlink (f : t.Forms u) (linked : u.Linked)
    (chain : u.chain b = pre ++ i :: post) :
    (t.unlink ⟨b, pre.getLast?, i⟩).Forms (u.unlink i) ∧
      (t.unlink ⟨b, pre.getLast?, i⟩).next? i = post.head? := by
  rw [unlink_eq linked chain]
  obtain ⟨cs, lays, rfl⟩ := f
  have old : cs.getD b [] = pre ++ i :: post := chain
  have hi : i ∈ cs.toList.flatten := mem_flatten_of_mem (b := b) (by simp [old])
  have after : t.next? i = post.head? := by
    have leads := lays.leads b
    rw [old] at leads
    exact leads.next_eq
  have laid := lays.setLink_next old
  have relinks := relinks_setLink t b pre.getLast? (t.next? i)
  have shrunk : ∀ k ∈ (cs.modify b (·.erase i)).toList.flatten, k ∈ cs.toList.flatten :=
    fun k hk => (Table.perm_flatten_erase (by simp [old])).mem_iff.mpr (List.mem_cons_of_mem _ hk)
  have unchained {k : Nat} (hk : t.parked = some k) : k ∉ cs.toList.flatten :=
    linked.not_chained_of_parked hk
  have parked : (t.setLink b pre.getLast? (t.next? i)).parked = t.parked := by
    rw [HashTable.parked, relinks.cursor_eq]
    rfl
  have onward : (t.setLink b pre.getLast? (t.next? i)).onward = t.onward := by
    rw [HashTable.onward, parked, HashTable.onward]
    cases hk : t.parked with
    | none => rfl
    | some k => exact lays.next?_setLink old (.inl (unchained hk)) _
  obtain ⟨laid', relinks', onward', same⟩ :=
    laid.repair i (t.next? i) fun k hk => by
      rw [parked] at hk
      have apart := unchained hk
      refine ⟨?_, fun h => apart (shrunk k h), relinks.size_eq ▸ lt_of_parked linked hk⟩
      rintro rfl
      exact apart hi
  rw [onward] at onward'
  refine ⟨⟨_, laid', ?_⟩, ?_⟩
  · refine ((relinks.trans relinks').view_eq cs _).trans ?_
    rw [onward', after]
    exact congrArg (fun cursor => { t.view cs with chains := cs.modify b (·.erase i), cursor })
      (cursor_view cs i post.head?)
  · refine (same i fun hk => ?_).trans ((lays.next?_setLink old (.inr rfl) _).trans after)
    rw [parked] at hk
    exact unchained hk hi

/-! ### Removing -/

/-- A place that the cursor stands on is parked. -/
theorem Forms.park (f : t.Forms u) (stands : u.cursor.current = some i)
    {after : Option Nat} (next : t.next? i = after) :
    Forms { t with cursor := { t.cursor with parted := true } }
      { u with cursor := { u.cursor with parted := true, next := after } } := by
  obtain ⟨cs, lays, rfl⟩ := f
  refine ⟨cs, lays.of_same rfl (Nat.le_refl _) fun _ _ => rfl, ?_⟩
  have current : t.cursor.current = some i := stands
  have onward : HashTable.onward { t with cursor := { t.cursor with parted := true } } = after := by
    show t.cursor.current.bind t.next? = after
    rw [current]
    exact next
  rw [view, onward]
  rfl

/-- **Removing.**  An entry is taken out, and its place freed unless the cursor stands on it. -/
theorem Forms.remove (f : t.Forms u) (linked : u.Linked)
    (chain : u.chain b = pre ++ i :: post) :
    (t.remove ⟨b, pre.getLast?, i⟩).1.Forms (u.remove i).1 ∧
      (t.remove ⟨b, pre.getLast?, i⟩).2 = (u.remove i).2 := by
  have hi : i ∈ u.chain b := by simp [chain]
  have mem : i ∈ u.chained := Table.mem_chained_iff.mpr ⟨b, hi⟩
  obtain ⟨unlinked, next⟩ := f.unlink linked chain
  have valued := unlinked.setValue i none
  have apart : i ∉ ((u.unlink i).setValue i none).chained :=
    (List.nodup_cons.mp ((Table.perm_chained_unlink linked mem).nodup linked.nodup_chained)).1
  have follows : Table.successor i (u.chain (u.bucketOf (u.hashAt i))) = post.head? := by
    have nodup := Table.nodup_chain linked b
    rw [chain] at nodup
    rw [linked.placed b i hi, chain, Table.successor_append]
    exact fun hp => (List.nodup_append.mp nodup).2.2 i hp i (by simp) rfl
  have current : ((t.unlink ⟨b, pre.getLast?, i⟩).setValue i none).cursor.current =
      ((u.unlink i).setValue i none).cursor.current := by
    obtain ⟨cs, -, e⟩ := valued
    rw [← e]
    rfl
  unfold HashTable.remove HashTable.retire Table.remove
  dsimp only
  by_cases stands : ((u.unlink i).setValue i none).cursor.current = some i
  · rw [if_pos (current.trans stands), if_pos stands, follows]
    refine ⟨valued.park stands ?_, rfl⟩
    rw [next?_setValue]
    exact next
  · rw [if_neg (fun e => stands (current.symm.trans e)), if_neg stands]
    refine valued.freePlace apart fun parked => stands ?_
    unfold Table.parked at parked
    split at parked
    · exact parked
    · cases parked

/-! ### Dropping placeholders -/

/-- Takes one more place out of a table, keeps the key that it had, and counts it. -/
def takeOut (w : Table α × List Key × Nat) (i : Nat) : Table α × List Key × Nat :=
  ((w.1.remove i).1, w.2.1 ++ (w.1.remove i).2, w.2.2 + 1)

section
variable {s : HashTable α × List Key × Nat} {w : Table α × List Key × Nat} {gone : List Nat}

theorem takeOut_foldl (w : Table α × List Key × Nat) (gone : List Nat) :
    gone.foldl takeOut w =
      let removed := gone.foldl (fun (t, ks) i =>
        let (t, k) := t.remove i
        (t, ks ++ k)) (w.1, w.2.1)
      (removed.1, removed.2, w.2.2 + gone.length) := by
  induction gone generalizing w with
  | nil => rfl
  | cons i gone ih =>
    rw [List.foldl_cons, ih, takeOut, List.length_cons, Nat.add_comm gone.length,
      ← Nat.add_assoc]
    rfl

theorem removes_takeOut (linked : w.1.Linked) (nodup : gone.Nodup)
    (sub : ∀ i ∈ gone, i ∈ w.1.chained) : w.1.Removes gone (gone.foldl takeOut w).1 := by
  rw [takeOut_foldl]
  exact Table.removes_foldl linked nodup sub w.2.1

theorem chain_remove (linked : u.Linked) (i c : Nat) :
    (u.remove i).1.chain c = (u.chain c).erase i := by
  rw [← linked.chain_unlink, Table.chain, Table.chains_remove]
  rfl

theorem chain_takeOut (linked : w.1.Linked) (nodup : gone.Nodup)
    (sub : ∀ i ∈ gone, i ∈ w.1.chained) (apart : ∀ i ∈ gone, i ∉ w.1.chain b) :
    (gone.foldl takeOut w).1.chain b = w.1.chain b := by
  induction gone generalizing w with
  | nil => rfl
  | cons i gone ih =>
    obtain ⟨unmet, nodup⟩ := List.nodup_cons.mp nodup
    have first := Table.removes_remove linked (sub i (List.mem_cons_self ..))
    have same : (w.1.remove i).1.chain b = w.1.chain b := by
      rw [chain_remove linked, List.erase_of_not_mem (apart i (List.mem_cons_self ..))]
    refine (ih (w := takeOut w i) first.linked nodup (fun j hj => ?_) fun j hj => ?_).trans same
    · refine (first.mem_chained_iff linked).mpr ⟨sub j (List.mem_cons_of_mem _ hj), ?_⟩
      rw [List.mem_singleton]
      rintro rfl
      exact unmet hj
    · show j ∉ (w.1.remove i).1.chain b
      rw [same]
      exact apart j (List.mem_cons_of_mem _ hj)

theorem isPlaceholder_eq (f : t.Forms u) (i : Nat) : t.isPlaceholder i = u.isPlaceholder i := by
  rw [HashTable.isPlaceholder, entry?_eq f]
  rfl

/-- **Sifting** takes the placeholders out of what is left of a chain. -/
theorem Forms.sift (f : s.1.Forms w.1) (same : s.2 = w.2) (linked : w.1.Linked)
    (chain : w.1.chain b = pre ++ post) {steps : Nat} (le : post.length ≤ steps) :
    let s' := sift b steps pre.getLast? post.head? s
    let w' := (post.filter w.1.isPlaceholder).foldl takeOut w
    s'.1.Forms w'.1 ∧ s'.2 = w'.2 := by
  induction post generalizing s w pre steps with
  | nil => cases steps <;> exact ⟨f, same⟩
  | cons i post ih =>
    cases steps with
    | zero => simp at le
    | succ steps =>
      have le : post.length ≤ steps := by simpa using le
      have next : s.1.next? i = post.head? := by
        obtain ⟨cs, lays, e⟩ := f
        rw [← e] at chain
        have old : cs.getD b [] = pre ++ i :: post := chain
        have leads := lays.leads b
        rw [old] at leads
        exact leads.next_eq
      dsimp only [List.head?_cons, HashTable.sift]
      rw [isPlaceholder_eq f, next]
      by_cases empty : w.1.isPlaceholder i
      · -- the place is taken out, and the last place before it stays the last
        obtain ⟨removed, keys⟩ := f.remove linked chain
        have hi : i ∈ w.1.chained := Table.mem_chained_iff.mpr ⟨b, by simp [chain]⟩
        have removes := Table.removes_remove linked hi
        have nodup := Table.nodup_chain linked b
        rw [chain] at nodup
        have apart : i ∉ pre := fun hp => (List.nodup_append.mp nodup).2.2 i hp i (by simp) rfl
        have rest : (w.1.remove i).1.chain b = pre ++ post := by
          rw [chain_remove linked, chain, List.erase_append_right _ apart, List.erase_cons_head]
        have marks : post.filter (takeOut w i).1.isPlaceholder =
            post.filter w.1.isPlaceholder := by
          refine List.filter_congr fun j hj => ?_
          have ne : j ≠ i := by
            rintro rfl
            exact (List.nodup_cons.mp (List.nodup_append.mp nodup).2.1).1 hj
          rw [Table.isPlaceholder, takeOut, removes.entries j (by simpa using ne)]
          rfl
        rw [if_pos empty, List.filter_cons_of_pos empty, List.foldl_cons, ← marks]
        refine ih (w := takeOut w i) removed ?_ removes.linked rest le
        rw [keys]
        show (s.2.1 ++ (w.1.remove i).2, s.2.2 + 1) = (w.2.1 ++ (w.1.remove i).2, w.2.2 + 1)
        rw [same]
      · rw [if_neg empty, List.filter_cons_of_neg empty]
        have step := ih f same linked (show w.1.chain b = pre ++ [i] ++ post by simp [chain]) le
        rwa [List.getLast?_concat] at step

/-- Sifting chain after chain. -/
theorem Forms.sift_foldl (f : s.1.Forms w.1) (same : s.2 = w.2) (linked : w.1.Linked)
    {bs : List Nat} (nodup : bs.Nodup) :
    let s' := bs.foldl (fun s b => HashTable.sift b s.1.nodes.size none (s.1.head? b) s) s
    let w' := ((bs.flatMap w.1.chain).filter w.1.isPlaceholder).foldl takeOut w
    s'.1.Forms w'.1 ∧ s'.2 = w'.2 := by
  induction bs generalizing s w with
  | nil => exact ⟨f, same⟩
  | cons b bs ih =>
    obtain ⟨unmet, nodup⟩ := List.nodup_cons.mp nodup
    obtain ⟨start, le⟩ : s.1.head? b = (w.1.chain b).head? ∧
        (w.1.chain b).length ≤ s.1.nodes.size := by
      obtain ⟨cs, lays, e⟩ := f
      rw [← e]
      exact ⟨(lays.leads b).start_eq, lays.length_le b⟩
    obtain ⟨formed, kept⟩ := f.sift same linked (show w.1.chain b = [] ++ w.1.chain b from rfl) le
    set gone := (w.1.chain b).filter w.1.isPlaceholder with hg
    have sub : ∀ i ∈ gone, i ∈ w.1.chain b := fun i hi => (List.mem_filter.mp hi).1
    have mem : ∀ i ∈ gone, i ∈ w.1.chained := fun i hi =>
      Table.mem_chained_iff.mpr ⟨b, sub i hi⟩
    have distinct : gone.Nodup := (Table.nodup_chain linked b).filter _
    have removes := removes_takeOut linked distinct mem
    have other : ∀ c ∈ bs, ∀ i ∈ w.1.chain c, i ∉ gone := by
      intro c hc i hi hg
      obtain rfl := (linked.placed b i (sub i hg)).symm.trans (linked.placed c i hi)
      exact unmet hc
    -- the chains that follow have the placeholders that they had
    have chains : bs.flatMap (gone.foldl takeOut w).1.chain = bs.flatMap w.1.chain := by
      refine List.flatMap_congr fun c hc => ?_
      exact chain_takeOut linked distinct mem fun i hg hi => other c hc i hi hg
    have marks : (bs.flatMap w.1.chain).filter (gone.foldl takeOut w).1.isPlaceholder =
        (bs.flatMap w.1.chain).filter w.1.isPlaceholder := by
      refine List.filter_congr fun i hi => ?_
      obtain ⟨c, hc, hi⟩ := List.mem_flatMap.mp hi
      rw [Table.isPlaceholder, removes.entries i (other c hc i hi)]
      rfl
    have step := ih formed kept removes.linked nodup
    rw [chains, marks] at step
    rw [List.flatMap_cons, List.filter_append, List.foldl_append, List.foldl_cons, start]
    exact step

end

/-- Dropping placeholders takes them out one after the other. -/
theorem dropPlaceholders_eq (u : Table α) :
    u.dropPlaceholders =
      let w := (u.chained.filter u.isPlaceholder).foldl takeOut (u, [], 0)
      ({ w.1 with total := w.1.total - w.2.2, placeholders := w.1.placeholders - w.2.2 },
        w.2.1) := by
  rw [takeOut_foldl, Nat.zero_add]
  rfl

/-- **Dropping placeholders** takes the same entries out, in the same order. -/
theorem Forms.dropPlaceholders (f : t.Forms u) (linked : u.Linked) :
    t.dropPlaceholders.1.Forms u.dropPlaceholders.1 ∧
      t.dropPlaceholders.2 = u.dropPlaceholders.2 := by
  have buckets : t.buckets = u.buckets := by
    obtain ⟨cs, lays, rfl⟩ := f
    exact lays.buckets
  have went := Forms.sift_foldl (s := (t, [], 0)) (w := (u, [], 0)) f rfl linked
    (List.nodup_range (n := u.buckets))
  dsimp only at went
  rw [← Table.chained_eq, ← buckets] at went
  obtain ⟨formed, kept⟩ := went
  rw [dropPlaceholders_eq, HashTable.dropPlaceholders]
  generalize (List.range t.buckets).foldl _ _ = s at formed kept ⊢
  generalize (u.chained.filter u.isPlaceholder).foldl _ _ = w at formed kept ⊢
  obtain ⟨s, keys, n⟩ := s
  obtain ⟨w, keys', n'⟩ := w
  cases kept
  dsimp only at formed ⊢
  have counts : s.total = w.total ∧ s.placeholders = w.placeholders := by
    obtain ⟨cs, -, e⟩ := formed
    rw [← e]
    exact ⟨rfl, rfl⟩
  rw [counts.1, counts.2]
  exact ⟨(formed.withTotal (w.total - n)).withPlaceholders (w.placeholders - n), rfl⟩

end ScriptCore.HashTable
