import ScriptCore.Proofs.Heap.Storing

/-!
# Heap — what arrays and hashes hold

Operations on aggregates keep the books.  What an operation puts in is retained, what it takes out
is let go or handed over, and a new cell that an operation makes is owned by the aggregate alone.

* `Kept.putItems`, `Kept.putTable`: the elements of an array, or the table of a hash, are replaced.
* `leads_store`, `leads_delete`: what was stored before is the caller's.
* `keeps_storeItem`, `leads_fetchOrCreate`: new cells.
-/

namespace ScriptCore.Heap

section
variable {h₀ h : Heap} {i j v : CellId} {c : Cell}
  {out gains loses moved items items' : List CellId} {t u : Table CellId} {r : Keyring}
  {key : Spelling}

/-! ### New cells -/

/-- A new cell that holds nothing. -/
theorem leads_new (valid : c.Valid) (bare : c.hooks = []) (empty : c.owned = [])
    (tidy : ∀ h, Kept h₀ out h → ∀ t, c.payload = .hash t → t.Tidy h.ring) {E : Heap → Prop} :
    Leads (Kept h₀ out) (new c) (fun i => Kept h₀ (i :: out)) E := by
  intro h k
  refine Kept.allocate ?_ valid bare (tidy h k)
  rwa [empty]

theorem leads_newScalar (valid : c.Valid) (bare : c.hooks = []) (empty : c.owned = [])
    (plain : ∀ t, c.payload ≠ .hash t) {E : Heap → Prop} :
    Leads (Kept h₀ out) (new c) (fun i => Kept h₀ (i :: out)) E :=
  leads_new valid bare empty fun _ _ t ht => absurd ht (plain t)

theorem leads_newRef (hv : v ∈ out) {E : Heap → Prop} :
    Leads (Kept h₀ out) (newRef v) (fun i => Kept h₀ (i :: out)) E := by
  intro h k
  have retained := k.retainAll [v] fun j hj => by
    rw [List.mem_singleton.mp hj]
    exact k.alive hv
  exact Kept.allocate (c := .ofTarget v) retained (Cell.valid_ofTarget v) rfl
    fun _ => Payload.noConfusion

theorem leads_newArray (hitems : ∀ v ∈ items, v ∈ out) {E : Heap → Prop} :
    Leads (Kept h₀ out) (newArray items) (fun i => Kept h₀ (i :: out)) E := by
  intro h k
  have retained := k.retainAll _ fun j hj => k.alive (hitems j hj)
  exact Kept.allocate (c := .ofItems items) retained (Cell.valid_aggregate rfl rfl) rfl
    fun _ => Payload.noConfusion

/-- New empty cells, and another cell that stays what it is. -/
theorem Kept.fresh {α : Type} (k : Kept h₀ out h) (hc : h.cell? i = some c) (l : List α)
    {E : Heap → Prop} : Ends (l.mapM fun _ => new {}) h
      (fun gap t => Kept h₀ (gap ++ out) t ∧ t.cell? i = some c) E := by
  induction l generalizing h out with
  | nil => exact ⟨k, hc⟩
  | cons a l ih =>
    rw [List.mapM_cons]
    have made : Kept h₀ (h.cells.size :: out) (h.allocate {}).2 :=
      k.allocate Cell.valid_empty rfl fun _ => Payload.noConfusion
    have same : (h.allocate {}).2.cell? i = some c := by
      rw [cell?_allocate, if_neg (Nat.ne_of_lt (lt_size hc)), hc]
    refine Ends.step (a := h.cells.size) rfl ((ih made same).bind fun gap t ⟨kept, hc⟩ => ?_)
    exact ⟨kept.perm List.perm_middle, hc⟩

/-! ### Arrays -/

theorem ends_items (hc : h.cell? i = some c) :
    Ends (Heap.items i) h (fun items g => g = h ∧ c.payload = .array items) (· = h) := by
  refine Ends.read ?_
  rw [cell_eq hc]
  dsimp only
  cases array : c.payload with
  | array items => exact ⟨rfl, rfl⟩
  | _ => rfl

/-- The elements of an array are replaced. -/
theorem Kept.putItems (moved gains loses : List CellId) (k : Kept h₀ (moved ++ out) h)
    (hc : h.cell? i = some c) (array : c.payload = .array items)
    (alive : ∀ j ∈ gains, ∃ d, h.cell? j = some d) (held : ∀ j, items'.count j + loses.count j =
      items.count j + gains.count j + moved.count j) :
    Kept h₀ out
      (((h.setCell i { c with payload := .array items' }).retainAll gains).letGo loses) := by
  refine Kept.letGo (Kept.exchange moved gains loses k hc
    ((k.valid hc).withPayload (by rw [array]; rfl)) (fun _ => Payload.noConfusion) alive
    fun j => ?_)
  have traded := held j
  rw [owned_eq c, owned_eq, array]
  show (kept c.target ++ items').count j + _ = (kept c.target ++ items).count j + _ + _
  simp only [List.count_append]
  omega

theorem changeItems_eq (hc : h.cell? i = some c) (writable : c.checkWritable = .ok ())
    (array : c.payload = .array items) (f loses : List CellId → List CellId) :
    changeItems i f gains loses h = .ok () (((h.setCell i
      { c with payload := .array (f items) }).retainAll gains).letGo (loses items)) := by
  unfold changeItems
  rw [bind_get, cell_eq hc, writable, array]
  rfl

/-- **Changing an array** takes hold of what comes in and lets go of what goes out. -/
theorem keeps_changeItems (hi : i ∈ out) (hgains : ∀ v ∈ gains, v ∈ out)
    {f loses : List CellId → List CellId} (held : ∀ items j,
      (f items).count j + (loses items).count j = items.count j + gains.count j) :
    Keeps (Kept h₀ out) (changeItems i f gains loses) := by
  refine Keeps.read fun h k => ?_
  obtain ⟨c, hc⟩ := k.alive hi
  rw [cell_eq hc]
  refine Ends.outcome (fun _ _ => ?_) k
  cases array : c.payload with
  | array items =>
    exact Kept.putItems [] _ _ k hc array (fun j hj => k.alive (hgains j hj)) (held items)
  | _ => exact k

theorem keeps_push (hi : i ∈ out) (hv : v ∈ out) : Keeps (Kept h₀ out) (push i v) :=
  keeps_changeItems hi (by simpa using hv) fun _ _ => by simp

theorem keeps_clearItems (hi : i ∈ out) : Keeps (Kept h₀ out) (clearItems i) :=
  keeps_changeItems hi (by simp) fun _ _ => by simp

theorem keeps_assignItems (hi : i ∈ out) (hitems : ∀ v ∈ items, v ∈ out) :
    Keeps (Kept h₀ out) (assignItems i items) :=
  keeps_changeItems hi hitems fun _ _ => Nat.add_comm _ _

/-- An element is replaced. -/
theorem count_set {k : Nat} (hk : k < items.length) (v x : CellId) :
    (items.set k v).count x + items[k]?.toList.count x = items.count x + [v].count x := by
  have new := (List.set_perm_cons_eraseIdx hk v).count_eq x
  have old := (List.getElem_cons_eraseIdx_perm hk).count_eq x
  rw [List.getElem?_eq_getElem hk, Option.toList_some]
  simp only [List.count_cons, List.count_nil] at new old ⊢
  omega

/-- **Storing an element.**  The cells that fill a gap belong to the array alone. -/
theorem keeps_storeItem (hi : i ∈ out) (hv : v ∈ out) (index : Nat) :
    Keeps (Kept h₀ out) (storeItem i index v) := by
  refine Keeps.read fun h k => ?_
  obtain ⟨c, hc⟩ := k.alive hi
  rw [cell_eq hc]
  refine Ends.outcome (fun _ writable => ?_) k
  cases array : c.payload with
  | array items =>
    dsimp only
    by_cases within : index < items.length
    · rw [Nat.sub_eq_zero_of_le (Nat.le_of_lt within)]
      refine Ends.step (a := []) rfl (Ends.of_ok (changeItems_eq hc writable array _ _) ?_)
      rw [if_pos within]
      refine Kept.putItems [] _ _ k hc array (by simpa using k.alive hv) fun j => ?_
      exact count_set within v j
    · refine (k.fresh hc _).bind fun gap g ⟨kept, hc⟩ => ?_
      refine Ends.of_ok (changeItems_eq hc writable array _ _) ?_
      rw [if_neg within, List.getElem?_eq_none (Nat.le_of_not_lt within)]
      refine Kept.putItems gap _ _ kept hc array
        (by simpa using kept.alive (List.mem_append_right _ hv)) fun j => ?_
      simp only [List.count_append, Option.toList_none, List.count_nil]
      omega
  | _ => exact k

/-! ### Hashes -/

theorem admitted_ok {α : Type} {x : Except Refusal α} {a : α} (h : admitted x = .ok a) :
    x = .ok a := by
  cases x with
  | ok b =>
    cases h
    rfl
  | error e => cases h

/-- The table of a live hash. -/
def IsTable (h : Heap) (i : CellId) (t : Table CellId) : Prop :=
  ∃ c, h.cell? i = some c ∧ c.payload = .hash t

theorem Kept.tidy (k : Kept h₀ out h) (is : h.IsTable i t) : t.Tidy h.ring := by
  obtain ⟨c, hc, hash⟩ := is
  exact (k.sound.fit i c hc).tidy t hash

theorem ends_table (alive : ∃ c, h.cell? i = some c) :
    Ends (table i) h (fun t g => g = h ∧ h.IsTable i t) (· = h) := by
  obtain ⟨c, hc⟩ := alive
  refine Ends.read ?_
  rw [cell_eq hc]
  dsimp only
  cases hash : c.payload with
  | hash t => exact ⟨rfl, c, hc, hash⟩
  | _ => rfl

theorem ends_writableTable (alive : ∃ c, h.cell? i = some c) :
    Ends (writableTable i) h (fun t g => g = h ∧ h.IsTable i t) (· = h) :=
  Ends.read (Ends.outcome (fun _ _ => ends_table alive) rfl)

/-- An operation on the table of a hash that may be changed. -/
theorem Kept.onTable {α : Type} {f : Table CellId → OnHeap α} {Q : α → Heap → Prop}
    (k : Kept h₀ out h) (hi : i ∈ out)
    (hf : ∀ t, h.IsTable i t → Ends (f t) h Q (Kept h₀ out)) :
    Ends (writableTable i >>= f) h Q (Kept h₀ out) := by
  refine ((ends_writableTable (k.alive hi)).imp (fun _ _ q => q) fun g e => e ▸ k).bind ?_
  rintro t g ⟨rfl, is⟩
  exact hf t is

/-- The values of a table are alive. -/
theorem Kept.alive_value (k : Kept h₀ out h) (is : h.IsTable i t) (hj : j ∈ t.values) :
    ∃ d, h.cell? j = some d := by
  obtain ⟨c, hc, hash⟩ := is
  refine k.sound.owned.alive_held hc ?_
  rw [owned_eq, hash]
  exact List.mem_append_right _ hj

/-- **The table of a hash is replaced**, and the pools have turned with it. -/
theorem Kept.putTable (moved gains loses : List CellId) (k : Kept h₀ (moved ++ out) h)
    (is : h.IsTable i t) (turns : h.ring.Turns r) (tidy : u.Tidy r)
    (alive : ∀ j ∈ gains, ∃ d, h.cell? j = some d) (held : ∀ j, u.values.count j + loses.count j =
      t.values.count j + gains.count j + moved.count j) :
    Kept h₀ (loses ++ out) ((h.withTable i u r).retainAll gains) := by
  obtain ⟨c, hc, hash⟩ := is
  have hc' : { h with ring := r }.cell? i = some c := hc
  unfold withTable updateCell
  rw [cell_eq hc']
  refine Kept.exchange moved gains loses (k.turn turns) hc'
    ((k.valid hc).withPayload (by rw [hash]; rfl)) ?_ alive fun j => ?_
  · intro t' ht
    cases ht
    exact tidy
  · have traded := held j
    rw [owned_eq c, owned_eq, hash]
    show (kept c.target ++ u.values).count j + _ = (kept c.target ++ t.values).count j + _ + _
    simp only [List.count_append]
    omega

/-- **Storing** takes hold of the value and hands over the one it replaces. -/
theorem leads_store (hi : i ∈ out) (hv : v ∈ out) : Leads (Kept h₀ out) (store i key v)
    (fun old => Kept h₀ (old.toList ++ out)) (Kept h₀ out) := by
  intro h k
  refine k.onTable hi fun t is => ?_
  refine Ends.read (Ends.outcome ?_ k)
  rintro ⟨old, u, r⟩ stored
  obtain ⟨tidy, turns, traded⟩ := (k.tidy is).store (admitted_ok stored)
  exact Kept.putTable [] [v] _ k is turns tidy (by simpa using k.alive hv) traded

/-- **Deleting** hands over the value. -/
theorem leads_delete (hi : i ∈ out) : Leads (Kept h₀ out) (delete i key)
    (fun old => Kept h₀ (old.toList ++ out)) (Kept h₀ out) := by
  intro h k
  refine k.onTable hi fun t is => ?_
  refine Ends.read (Ends.outcome ?_ k)
  rintro ⟨old, u, r⟩ deleted
  obtain ⟨tidy, turns, traded⟩ := (k.tidy is).delete (admitted_ok deleted)
  exact Kept.putTable [] [] _ k is turns tidy nofun traded

/-- What is fetched is alive. -/
theorem leads_fetch (hi : i ∈ out) : Leads (Kept h₀ out) (fetch i key)
    (fun found g => Kept h₀ out g ∧ ∀ v, found = some v → ∃ d, g.cell? v = some d)
    (Kept h₀ out) := by
  intro h k
  refine (ends_table (k.alive hi)).imp (fun _ _ q => q) (fun g e => e ▸ k) |>.bind ?_
  rintro t g ⟨rfl, is⟩
  exact ⟨k, fun v found => k.alive_value is (Table.mem_values_of_fetch? found)⟩

/-- A cell may be made before a table is replaced as well as after. -/
theorem allocate_withTable (hc : h.cell? i = some c) (u : Table CellId) (r : Keyring) (d : Cell) :
    ((h.withTable i u r).allocate d).2 = (h.allocate d).2.withTable i u r := by
  have before : { h with ring := r }.cell? i = some c := hc
  have after : { (h.allocate d).2 with ring := r }.cell? i = some c := by
    refine (cell?_allocate h d i).trans ?_
    rw [if_neg (Nat.ne_of_lt (lt_size hc)), hc]
  have cells (e : Option Cell) : (h.cells.setIfInBounds i e).push (some { d with owners := 1 }) =
      (h.cells.push (some { d with owners := 1 })).setIfInBounds i e := by
    refine Array.ext' ?_
    rw [Array.toList_push, Array.toList_setIfInBounds, Array.toList_setIfInBounds,
      Array.toList_push, List.set_append_left _ _ (lt_size hc)]
  unfold withTable updateCell setCell isAlive
  rw [before, after, cell_eq before, cell_eq after, Option.isSome_some, if_pos rfl, if_pos rfl]
  unfold Heap.allocate
  dsimp only
  rw [cells]

/-- **A new value** belongs to the table alone. -/
theorem leads_fetchOrCreate (hi : i ∈ out) : Leads (Kept h₀ out) (fetchOrCreate i key)
    (fun v g => Kept h₀ out g ∧ ∃ d, g.cell? v = some d) (Kept h₀ out) := by
  intro h k
  refine k.onTable hi fun t is => ?_
  dsimp only
  cases found : t.fetch? key with
  | some v => exact ⟨k, k.alive_value is (Table.mem_values_of_fetch? found)⟩
  | none =>
    refine Ends.read (Ends.outcome ?_ k)
    rintro ⟨old, u, r⟩ stored
    obtain ⟨tidy, turns, traded⟩ := (k.tidy is).store (admitted_ok stored)
    have nothing := (k.tidy is).store_old (admitted_ok stored)
    rw [found] at nothing
    subst nothing
    obtain ⟨c, hc, hash⟩ := is
    -- the new cell is made first, and its handle moves into the table
    have made : Kept h₀ ([h.cells.size] ++ out) (h.allocate {}).2 :=
      k.allocate Cell.valid_empty rfl fun _ => Payload.noConfusion
    have hc' : (h.allocate {}).2.cell? i = some c := by
      rw [cell?_allocate, if_neg (Nat.ne_of_lt (lt_size hc)), hc]
    have put := Kept.putTable [h.cells.size] [] [] made ⟨c, hc', hash⟩ turns tidy nofun traded
    have last := cell?_allocate (h.withTable i u r) {} (h.withTable i u r).cells.size
    rw [if_pos rfl] at last
    refine ⟨?_, _, last⟩
    show Kept h₀ out ((h.withTable i u r).allocate {}).2
    rw [allocate_withTable hc]
    exact put

theorem keeps_reserve (hi : i ∈ out) (expected : Nat) :
    Keeps (Kept h₀ out) (reserve i expected) := by
  intro h k
  refine k.onTable hi fun t is => ?_
  refine Ends.outcome (fun u reserved => Ends.read ?_) k
  have tidy := (k.tidy is).reserve (admitted_ok reserved)
  refine Kept.putTable [] [] [] k is (.refl k.sound.ring) tidy
    nofun fun j => ?_
  rw [Table.values_reserve (admitted_ok reserved)]
  rfl

theorem keeps_setRestricted (hi : i ∈ out) (on : Bool) :
    Keeps (Kept h₀ out) (setRestricted i on) := by
  intro h k
  refine k.onTable hi fun t is => ?_
  refine Ends.read ?_
  have tidy : (if on then t.restrict else t.unrestrict).Tidy h.ring := by
    cases on
    · exact (k.tidy is).setRestricted false
    · exact (k.tidy is).setRestricted true
  refine Kept.putTable [] [] [] k is (.refl k.sound.ring) tidy
    nofun fun j => ?_
  cases on <;> rfl

/-- A new table in the place of the one there was, whose keys have gone back. -/
theorem Kept.remade (k : Kept h₀ out h) (is : h.IsTable i t) :
    Kept h₀ (t.values ++ out)
      { h.withTable i t.emptied h.ring with ring := (t.dispose h.ring).2 } := by
  have put : Kept h₀ (t.values ++ out) ((h.withTable i t.emptied h.ring).retainAll []) := by
    refine Kept.putTable [] [] _ k is (.refl k.sound.ring) (k.tidy is).emptied nofun fun j => ?_
    exact Nat.add_comm 0 _
  have turns : (h.withTable i t.emptied h.ring).ring.Turns (t.dispose h.ring).2 := by
    rw [ring_withTable]
    exact k.sound.ring.releaseAll _ _
  exact put.turn turns

/-- **Clearing a hash** lets go of its values. -/
theorem keeps_clearTable (hi : i ∈ out) : Keeps (Kept h₀ out) (clearTable i) := by
  intro h k
  refine k.onTable hi fun t is => ?_
  refine Ends.read ?_
  split
  · rename_i restricted
    refine Ends.outcome ?_ k
    rintro ⟨gone, u, r⟩ cleared
    obtain ⟨tidy, turns, traded⟩ := (k.tidy is).clear restricted (admitted_ok cleared)
    exact Kept.letGo (Kept.putTable [] [] _ k is turns tidy nofun traded)
  · exact (k.remade is).letGo

/-! ### Code -/

theorem keeps_updateRoutine (hi : i ∈ out) (f : Routine → Routine) :
    Keeps (Kept h₀ out) (updateRoutine i f) := by
  refine Keeps.of_ends fun h k => ?_
  obtain ⟨c, hc⟩ := k.alive hi
  have read : Ends (routine i) h (fun r g => g = h ∧ c.payload = .code r) (Kept h₀ out) := by
    refine Ends.read ?_
    rw [cell_eq hc]
    dsimp only
    cases code : c.payload with
    | code r => exact ⟨rfl, rfl⟩
    | _ => exact k
  refine read.bind ?_
  rintro r g ⟨rfl, code⟩
  show Kept h₀ out (g.setCell i { g.cell i with payload := .code (f r) })
  rw [cell_eq hc]
  refine Kept.exchange [] [] [] k hc
    ((k.valid hc).withPayload (by rw [code]; rfl)) (fun _ => Payload.noConfusion) nofun fun j => ?_
  rw [owned_eq c, owned_eq, code]
  rfl

/-- **Calls** hand over their result. -/
theorem leads_runNative (n : Native) {args : List CellId} (hargs : ∀ a ∈ args, a ∈ out) :
    Leads (Kept h₀ out) (runNative n args) (fun i => Kept h₀ (i :: out)) (Kept h₀ out) := by
  cases n with
  | count => exact leads_newScalar (Cell.valid_ofInt _) rfl rfl fun _ => Payload.noConfusion
  | first =>
    cases args with
    | nil => exact leads_newScalar Cell.valid_empty rfl rfl fun _ => Payload.noConfusion
    | cons a args =>
      intro h k
      exact k.retainAll [a] fun j hj => by
        rw [List.mem_singleton.mp hj]
        exact k.alive (hargs a List.mem_cons_self)
  | fail => exact Leads.throw fun _ k => k
  | sum =>
    refine Leads.bind (Keeps.foldlM (fun a ha n => ?_) 0) fun total => ?_
    · exact Keeps.bind (keeps_get (hargs a ha) (keeps_readInt (hargs a ha) .silent)) fun _ =>
        Keeps.pure _
    · exact leads_newScalar (Cell.valid_ofInt _) rfl rfl fun _ => Payload.noConfusion
  | hello => exact leads_newScalar (Cell.valid_ofText _) rfl rfl fun _ => Payload.noConfusion

end

end ScriptCore.Heap
