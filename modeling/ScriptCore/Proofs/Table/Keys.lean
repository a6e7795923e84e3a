import ScriptCore.Proofs.Key.Users

/-!
# Table — the keys that an arena holds

An entry that leaves its chain may keep its place, and with it its key, for as long as the cursor
stands on it.  What counts is the arena: every key that an operation lets go of has left the arena,
and every other is still there.

* `tally_remove`, `tally_settle`: the key of an entry is let go of when its place is freed, now or
  by the next step of the cursor.
* `Linked.trades_add`: an entry that is added brings one key, also when the table grows, drops
  placeholders or gives up its pool.
-/

namespace ScriptCore.Table
open Key
variable {α : Type}

/-- The keys a table holds of a pool. -/
def keysIn (t : Table α) (p : Nat) : List Key := if t.pool = some p then t.heldKeys else []

/-- `u` is the table `t` with some keys of its pool more, and some less. -/
def Trades (t : Table α) (taken gone : List Key) (u : Table α) : Prop :=
  ∀ p x, tally x (u.keysIn p) + (if t.pool = some p then tally x gone else 0) =
    tally x (t.keysIn p) + if t.pool = some p then tally x taken else 0

section
variable {t u v : Table α} {taken gone more : List Key} {i : Nat} {x : Bytes × Bool}

theorem tally_keysIn (t : Table α) (p : Nat) :
    tally x (t.keysIn p) = if t.pool = some p then tally x t.heldKeys else 0 := by
  unfold keysIn
  split <;> rfl

theorem Trades.of_tally (pool : u.pool = t.pool)
    (keys : ∀ x, tally x u.heldKeys + tally x gone = tally x t.heldKeys + tally x taken) :
    t.Trades taken gone u := by
  intro p x
  unfold keysIn
  rw [pool]
  split
  · exact keys x
  · rfl

theorem Trades.trans (h : t.Trades taken gone u) (pool : u.pool = t.pool)
    (h' : u.Trades [] more v) : t.Trades taken (gone ++ more) v := by
  intro p x
  have first := h p x
  have second := h' p x
  rw [pool] at second
  rw [tally_append]
  by_cases own : t.pool = some p
  · simp only [own, if_true, tally_nil] at first second ⊢
    omega
  · simp only [own, if_false] at first second ⊢
    omega

/-! ### Places -/

section
variable {β γ : Type} {l : List β} {a : β}

/-- What the members of a list yield when one of them is another. -/
theorem perm_flatMap_set (f : β → List γ) (b : β) (hi : l[i]? = some a) :
    (l.flatMap f ++ f b).Perm ((l.set i b).flatMap f ++ f a) := by
  induction l generalizing i with
  | nil => cases hi
  | cons c l ih =>
    cases i with
    | zero =>
      obtain rfl : c = a := by simpa using hi
      rw [List.set_cons_zero, List.flatMap_cons, List.flatMap_cons, List.append_assoc,
        List.append_assoc]
      refine (List.perm_append_comm.append_left _).trans ?_
      rw [← List.append_assoc (f b)]
      exact List.perm_append_comm
    | succ i =>
      rw [List.set_cons_succ, List.flatMap_cons, List.flatMap_cons, List.append_assoc,
        List.append_assoc]
      exact (ih (by simpa using hi)).append_left _

/-- What a list yields when a member is changed and yields the same. -/
theorem filterMap_modify {f : β → Option γ} {g : β → β} (same : ∀ a, f (g a) = f a) :
    (l.modify i g).filterMap f = l.filterMap f := by
  induction l generalizing i with
  | nil => simp
  | cons c l ih =>
    cases i with
    | zero => simp [List.filterMap_cons, same]
    | succ i => simp [List.filterMap_cons, ih]

end

/-- A place that is filled anew gives up the key it had. -/
theorem tally_setEntry {entries : Array (Option (Entry α))} {o : Option (Entry α)}
    (hi : entries[i]? = some o) (o' : Option (Entry α)) :
    tally x (entries.toList.filterMap fun e => e.map (·.key)) + tally x (o'.map (·.key)).toList =
      tally x ((entries.setIfInBounds i o').toList.filterMap fun e => e.map (·.key)) +
        tally x (o.map (·.key)).toList := by
  have perm := perm_flatMap_set (fun e : Option (Entry α) => (e.map (·.key)).toList) o'
    (l := entries.toList) (i := i) (by simpa using hi)
  rw [← List.filterMap_eq_flatMap_toList, ← List.filterMap_eq_flatMap_toList,
    ← Array.toList_setIfInBounds] at perm
  rw [← tally_append, ← tally_append]
  exact perm.countP_eq _

theorem heldKeys_setValue (t : Table α) (i : Nat) (v : Option α) :
    (t.setValue i v).heldKeys = t.heldKeys := by
  unfold setValue heldKeys
  rw [Array.toList_modify]
  exact filterMap_modify fun e => by cases e <;> rfl

/-- **Freeing a place** lets go of the key it holds. -/
theorem tally_freePlace (t : Table α) (i : Nat) :
    tally x (t.freePlace i).1.heldKeys + tally x (t.freePlace i).2 = tally x t.heldKeys := by
  unfold freePlace heldKeys entry?
  cases there : t.entries[i]? with
  | none =>
    have outside : t.entries.toList.length ≤ i := by simpa using there
    rw [Array.toList_setIfInBounds, List.set_eq_of_length_le outside]
    rfl
  | some e => exact (tally_setEntry there none).symm

/-- **Removing** an entry lets go of its key, unless the cursor stands on it. -/
theorem tally_remove (t : Table α) (i : Nat) :
    tally x (t.remove i).1.heldKeys + tally x (t.remove i).2 = tally x t.heldKeys := by
  have blank : ((t.unlink i).setValue i none).heldKeys = t.heldKeys := heldKeys_setValue ..
  unfold remove
  dsimp only
  split
  · exact congrArg (tally x) blank
  · rw [tally_freePlace, blank]

theorem pool_remove (t : Table α) (i : Nat) : (t.remove i).1.pool = t.pool := by
  unfold remove
  dsimp only
  split <;> rfl

theorem tally_foldl_remove (places : List Nat) (ks : List Key) :
    let left := places.foldl (fun (t, ks) i =>
      let (t, k) := t.remove i
      (t, ks ++ k)) (t, ks)
    left.1.pool = t.pool ∧
      tally x left.1.heldKeys + tally x left.2 = tally x t.heldKeys + tally x ks := by
  induction places generalizing t ks with
  | nil => exact ⟨rfl, rfl⟩
  | cons i places ih =>
    obtain ⟨pool, keys⟩ := ih (t := (t.remove i).1) (ks ++ (t.remove i).2)
    refine ⟨pool.trans (pool_remove t i), keys.trans ?_⟩
    rw [tally_append]
    have := tally_remove (x := x) t i
    omega

/-- **Dropping placeholders** lets go of their keys. -/
theorem trades_dropPlaceholders (t : Table α) :
    t.Trades [] t.dropPlaceholders.2 t.dropPlaceholders.1 ∧ t.dropPlaceholders.1.pool = t.pool := by
  have left (x : Bytes × Bool) :=
    tally_foldl_remove (t := t) (x := x) (t.chained.filter t.isPlaceholder) []
  exact ⟨.of_tally (left default).1 fun x => (left x).2, (left default).1⟩

/-- **Settling** lets go of the key of an entry that was deleted under the cursor. -/
theorem trades_settle (t : Table α) :
    t.Trades [] t.settle.2 t.settle.1 ∧ t.settle.1.pool = t.pool := by
  unfold settle
  split
  · exact ⟨.of_tally rfl fun x => tally_freePlace { t with cursor := _ } _, rfl⟩
  · exact ⟨.of_tally rfl fun x => rfl, rfl⟩

/-! ### Adding -/

/-- **Reseeding** lets go of all keys, when they are from a pool. -/
theorem trades_reseed (t : Table α) (supply : Supply) :
    t.Trades [] (t.reseed supply).2.1 (t.reseed supply).1 := by
  intro p x
  have given : (t.reseed supply).2.1 = if t.pool.isSome then t.heldKeys else [] := rfl
  have none : (t.reseed supply).1.keysIn p = [] := rfl
  rw [none, given]
  unfold keysIn
  by_cases own : t.pool = some p
  · simp [own]
  · simp [own]

theorem trades_split (t : Table α) (supply : Supply) :
    t.Trades [] (t.split supply).2.1 (t.split supply).1 := by
  have cleared : let w := if 0 < t.placeholders ∧ t.restricted = false then t.dropPlaceholders
      else (t, [])
      t.Trades [] w.2 w.1 ∧ w.1.pool = t.pool := by
    dsimp only
    split
    · exact trades_dropPlaceholders t
    · exact ⟨.of_tally rfl fun x => rfl, rfl⟩
  unfold split
  generalize (if 0 < t.placeholders ∧ t.restricted = false then t.dropPlaceholders
    else (t, [])) = w at cleared
  obtain ⟨trades, pool⟩ := cleared
  have doubled : t.Trades [] w.2 w.1.doubled := trades
  dsimp only
  split
  · exact doubled.trans pool (trades_reseed w.1.doubled supply)
  · exact doubled

/-- A new place brings the key that is put into it. -/
theorem Linked.tally_allocate (h : t.Linked) (e : Entry α) :
    tally x (t.allocate e).2.heldKeys = tally x t.heldKeys + tally x [e.key] := by
  unfold allocate
  split
  · rename_i i rest free
    have vacant := h.vacant i (by simp [free])
    have there : t.entries[i]? = some none := by
      have lt : i < t.entries.size := by
        have : i ∈ List.range t.entries.size := h.places.subset (by simp [free])
        simpa using this
      rw [ entry?, Array.getElem?_eq_getElem lt, Option.join_some] at vacant
      rw [Array.getElem?_eq_getElem lt, vacant]
    exact (tally_setEntry there (some e)).symm
  · unfold heldKeys
    rw [Array.toList_push, List.filterMap_append, tally_append]
    rfl

/-- **Adding** an entry brings its key. -/
theorem Linked.trades_add (h : t.Linked) (key : Key) (v : α) (supply : Supply) :
    t.Trades [key] (t.add key v supply).2.2.1 (t.add key v supply).2.1 := by
  have linked : t.Trades [key] [] (t.link ⟨key, some v⟩).2 ∧
      (t.link ⟨key, some v⟩).2.pool = t.pool := by
    have pool : (t.allocate ⟨key, some v⟩).2.pool = t.pool := by
      unfold allocate
      split <;> rfl
    exact ⟨.of_tally pool fun x => h.tally_allocate ⟨key, some v⟩, pool⟩
  unfold add
  dsimp only
  split
  · exact linked.1.trans linked.2 (trades_split _ supply)
  · exact linked.1

end

end ScriptCore.Table
