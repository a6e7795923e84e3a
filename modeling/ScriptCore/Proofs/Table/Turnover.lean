import ScriptCore.Proofs.Key.Issued
import ScriptCore.Proofs.Table.Sharing

/-!
# Table — where the keys of a table come from

An operation leaves no key in the arena of its table that was not there, but for the one that it
takes from the pool.  A table that gives up its pool has every key made anew.

* `Op.Does.turnover`: each operation lets go of keys, or inserts one.
* `Turnover.keepsOrHeld`: the keys that a table of a pool has are those that it had, and one that
  the pool holds.
* `Turnover.issues`: the keys that are left were all made, each with an identity of its own.
-/

namespace ScriptCore.Table
variable {α : Type}

section
variable {t u v : Table α} {i j : Nat} {k key : Key} {ks : List Key} {supply : Supply}

theorem mem_heldKeys : k ∈ t.heldKeys ↔ ∃ i, t.keyAt i = some k := by
  have at_place (i : Nat) : t.keyAt i = some k ↔
      ∃ o, t.entries[i]? = some o ∧ o.map (·.key) = some k := by
    unfold keyAt entry?
    cases t.entries[i]? <;> simp
  simp only [at_place, heldKeys, List.mem_filterMap, Array.mem_toList_iff, Array.mem_iff_getElem?]
  constructor
  · rintro ⟨o, ⟨i, hi⟩, ho⟩
    exact ⟨i, o, hi, ho⟩
  · rintro ⟨i, o, hi, ho⟩
    exact ⟨o, ⟨i, hi⟩, ho⟩

/-! ### Keys that are let go of -/

/-- `u` has no keys but those of `t`, and of the same pool. -/
def Thins (t u : Table α) : Prop := u.pool = t.pool ∧ u.heldKeys ⊆ t.heldKeys

theorem Thins.refl (t : Table α) : t.Thins t := ⟨rfl, fun _ => id⟩

theorem Thins.trans (h : t.Thins u) (h' : u.Thins v) : t.Thins v :=
  ⟨h'.1.trans h.1, fun _ hk => h.2 (h'.2 hk)⟩

theorem Thins.of_eq (pool : u.pool = t.pool) (keys : u.heldKeys = t.heldKeys) : t.Thins u :=
  ⟨pool, fun _ hk => keys ▸ hk⟩

theorem thins_setValue (t : Table α) (i : Nat) (v : Option α) : t.Thins (t.setValue i v) :=
  .of_eq rfl (heldKeys_setValue t i v)

theorem thins_freePlace (t : Table α) (i : Nat) : t.Thins (t.freePlace i).1 := by
  refine ⟨rfl, fun k hk => ?_⟩
  obtain ⟨j, there⟩ := mem_heldKeys.mp hk
  refine mem_heldKeys.mpr ⟨j, ?_⟩
  rw [keyAt, entry?_freePlace] at there
  split at there
  · cases there
  · exact there

theorem thins_remove (t : Table α) (i : Nat) : t.Thins (t.remove i).1 := by
  have blank : t.Thins ((t.unlink i).setValue i none) := thins_setValue (t.unlink i) i none
  unfold remove
  dsimp only
  split
  · exact blank
  · exact blank.trans (thins_freePlace _ i)

theorem thins_dropPlaceholders (t : Table α) : t.Thins t.dropPlaceholders.1 := by
  have left (places : List Nat) (s : Table α × List Key) : s.1.Thins (places.foldl (fun s i =>
      ((s.1.remove i).1, s.2 ++ (s.1.remove i).2)) s).1 := by
    induction places generalizing s with
    | nil => exact .refl s.1
    | cons i places ih => exact (thins_remove s.1 i).trans (ih _)
  exact left (t.chained.filter t.isPlaceholder) (t, [])

theorem thins_settle (t : Table α) : t.Thins t.settle.1 := by
  unfold settle
  split
  · exact thins_freePlace { t with cursor := _ } _
  · exact .refl t

theorem thins_step (t : Table α) (w : Bool) : t.Thins (t.step w).2.1 := by
  have settled := thins_settle t
  unfold Table.step
  dsimp only
  split <;> exact settled

/-! ### A key that comes in -/

/-- **A new seed** comes with a key of its own for every entry. -/
theorem issued_reseed (t : Table α) (h : supply.Issued ks) :
    (t.reseed supply).2.2.Issued ((t.reseed supply).1.heldKeys ++ ks) := by
  let keysOf (l : List (Option (Entry α))) : List Key := l.filterMap fun e => e.map (·.key)
  have moved (seed : Seed) (l : List (Option (Entry α)))
      (state : List (Option (Entry α)) × Supply) (h : state.2.Issued (keysOf state.1 ++ ks)) :
      (l.foldl (rekey seed) state).2.Issued (keysOf (l.foldl (rekey seed) state).1 ++ ks) := by
    induction l generalizing state with
    | nil => exact h
    | cons o l ih =>
      refine ih _ ?_
      cases o with
      | none => exact h
      | some e => exact h.fresh rfl
  refine (moved supply.draw.1 t.entries.toList ([], supply.draw.2) ⟨h.below, h.apart⟩).subset ?_
  refine List.append_subset.mpr ⟨fun k hk => List.mem_append_left _ ?_, fun k hk =>
    List.mem_append_right _ hk⟩
  -- the entries come in the order of the arena again
  obtain ⟨o, ho, there⟩ := List.mem_filterMap.mp hk
  refine List.mem_filterMap.mpr ⟨o, ?_, there⟩
  simpa [Table.reseed, rebucket] using ho

theorem Linked.heldKeys_link (h : t.Linked) (e : Entry α) :
    (t.link e).2.heldKeys ⊆ e.key :: t.heldKeys := by
  intro k hk
  obtain ⟨j, there⟩ := mem_heldKeys.mp hk
  rw [keyAt, (h.link e).entry] at there
  split at there
  · exact Option.some.inj there ▸ List.mem_cons_self
  · exact List.mem_cons_of_mem _ (mem_heldKeys.mpr ⟨j, there⟩)

/-- **Adding** a key brings it, or gives up the pool. -/
theorem Linked.add_cases (h : t.Linked) (key : Key) (v : α) (supply : Supply) :
    ((t.add key v supply).2.1.pool = t.pool ∧ (t.add key v supply).2.2.2 = supply ∧
      (t.add key v supply).2.1.heldKeys ⊆ key :: t.heldKeys) ∨
    ∃ w : Table α, (t.add key v supply).2.1 = (w.reseed supply).1 ∧
      (t.add key v supply).2.2.2 = (w.reseed supply).2.2 := by
  have brings := h.heldKeys_link ⟨key, some v⟩
  have pool : (t.link ⟨key, some v⟩).2.pool = t.pool :=
    congrArg Settings.pool (h.link ⟨key, some v⟩).settings
  unfold Table.add
  generalize t.link ⟨key, some v⟩ = r at brings pool
  obtain ⟨i, w⟩ := r
  dsimp only at brings pool ⊢
  split
  · have cleared : w.Thins (if 0 < w.placeholders ∧ w.restricted = false then w.dropPlaceholders
        else (w, [])).1 := by
      split
      · exact thins_dropPlaceholders w
      · exact .refl w
    unfold Table.split
    generalize (if 0 < w.placeholders ∧ w.restricted = false then w.dropPlaceholders
      else (w, [])) = c at cleared
    dsimp only
    split
    · exact .inr ⟨c.1.doubled, rfl, rfl⟩
    · exact .inl ⟨cleared.1.trans pool, rfl, fun k hk => brings (cleared.2 hk)⟩
  · exact .inl ⟨pool, rfl, brings⟩

/-! ### Operations -/

/-- The spelling of the key that an operation may bring. -/
def Op.brings : Op α → Option Spelling
  | store s _ => some s
  | fetchOrStore s _ => some s
  | _ => none

/-- What an operation does to the keys of a table: it lets go of some, or inserts one. -/
def Turnover (t : Table α) (r : Keyring) (brings : Option Spelling) (u : Table α)
    (r' : Keyring) : Prop :=
  (t.Thins u ∧ ∃ gone, r' = r.releaseAll t.pool gone) ∨
    ∃ s ∈ brings, ∃ v, u = (t.insertNew r s v).2.1 ∧ r' = (t.insertNew r s v).2.2

variable {r r' : Keyring} {brings : Option Spelling}

theorem Turnover.of_thins (h : t.Thins u) (gone : List Key) :
    t.Turnover r brings u (r.releaseAll t.pool gone) := .inl ⟨h, gone, rfl⟩

theorem Turnover.kept (h : t.Thins u) : t.Turnover r brings u r :=
  .inl ⟨h, [], by cases t.pool <;> rfl⟩

/-- **What an operation does to the keys** of its table. -/
theorem Op.Does.turnover {op : Op α} (does : op.Does t r u r') (own : op.IsOwn) :
    t.Turnover r op.brings u r' := by
  cases does with
  | nothing => exact .kept (.refl t)
  | value _ v n => exact .kept (thins_setValue t _ v)
  | insert brings => rcases brings with rfl | rfl <;> exact .inr ⟨_, rfl, _, rfl, rfl⟩
  | remove _ _ n =>
    refine .of_thins ?_ _
    exact thins_remove t _
  | blank _ n =>
    obtain ⟨pool, keys⟩ := heldKeys_blanked t t.chained
    exact .kept (.of_eq pool keys)
  | empty =>
    refine .of_thins ?_ _
    exact ⟨rfl, List.nil_subset _⟩
  | clearPlaceholders => exact .of_thins (thins_dropPlaceholders t) _
  | restrict | unrestrict | pinSeed | rebucket => exact .kept (.of_eq rfl rfl)
  | rewind =>
    refine .of_thins ?_ _
    exact thins_settle t
  | step => exact .of_thins (thins_step t _) _
  | intern | release => cases own

/-! ### What becomes of the keys -/

/-- The keys of a table are those that it had and those that its pool holds, in a keyring that
holds all that was held before and is held after; or the table has given up its pool. -/
def KeepsOrHeld (t : Table α) (r : Keyring) (u : Table α) (r' : Keyring) : Prop :=
  ∃ mid : Keyring, r.Within mid ∧ r'.Within mid ∧
    (u.pool = none ∨ u.pool = t.pool ∧ ∀ k ∈ u.heldKeys, k ∈ t.heldKeys ∨
      ∀ p < r.pools.size, t.pool = some p → (mid.pool p).key? k = some k)

/-- **Inserting** stores the key that the pool holds. -/
theorem Linked.keepsOrHeld_insertNew (h : t.Linked) (sound : r.Sound) (s : Spelling) (v : α) :
    t.KeepsOrHeld r (t.insertNew r s v).2.1 (t.insertNew r s v).2.2 := by
  obtain ⟨turned, within⟩ := sound.within_keyFor t.pool s t.seed
  have given : ∀ p < r.pools.size, t.pool = some p →
      ((r.keyFor t.pool s t.seed).2.pool p).key? (r.keyFor t.pool s t.seed).1 =
        some (r.keyFor t.pool s t.seed).1 := by
    intro p hp own
    rw [own]
    show ((r.intern p s).2.pool p).key? (r.intern p s).1 = some (r.intern p s).1
    rw [sound.key?_intern hp, if_pos ⟨rfl, (sound.intern p s).1⟩]
  unfold Table.insertNew
  generalize r.keyFor t.pool s t.seed = made at within given turned
  obtain ⟨key, mid⟩ := made
  dsimp only at within given turned ⊢
  have added := h.add_cases key v mid.supply
  generalize t.add key v mid.supply = a at added
  obtain ⟨i, u, gone, supply⟩ := a
  dsimp only at added ⊢
  have left : Keyring.Sound { mid with supply } := turned
  refine ⟨mid, within, left.releaseAll_within t.pool gone, ?_⟩
  rcases added with ⟨pool, -, keys⟩ | ⟨w, reseeded, -⟩
  · refine .inr ⟨pool, fun k hk => (List.mem_cons.mp (keys hk)).symm.imp_right ?_⟩
    rintro rfl
    exact given
  · rw [reseeded]
    exact .inl rfl

theorem Turnover.keepsOrHeld (h : t.Turnover r brings u r') (linked : t.Linked)
    (sound : r.Sound) : t.KeepsOrHeld r u r' := by
  rcases h with ⟨thins, gone, rfl⟩ | ⟨s, -, v, rfl, rfl⟩
  · exact ⟨r, .refl r, sound.releaseAll_within t.pool gone,
      .inr ⟨thins.1, fun k hk => .inl (thins.2 hk)⟩⟩
  · exact linked.keepsOrHeld_insertNew sound s v

/-- **What is issued.**  The keys that are left were all made, each with its identity. -/
theorem Turnover.issues (h : t.Turnover r brings u r') (linked : t.Linked) (sound : r.Sound)
    (issues : r.Issues ks) (held : t.heldKeys ⊆ ks) (read : ∀ s ∈ brings, s.ReadOff ks) :
    ∃ ls, ks ⊆ ls ∧ u.heldKeys ⊆ ls ∧ r'.Issues ls := by
  rcases h with ⟨thins, gone, rfl⟩ | ⟨s, hs, v, rfl, rfl⟩
  · exact ⟨ks, fun _ => id, fun k hk => held (thins.2 hk), issues.releaseAll sound t.pool gone⟩
  have made := issues.keyFor sound t.pool (read s hs) t.seed
  have turned := (sound.within_keyFor t.pool s t.seed).1
  unfold Table.insertNew
  generalize r.keyFor t.pool s t.seed = k at made turned
  obtain ⟨key, mid⟩ := k
  dsimp only at made turned ⊢
  have added := linked.add_cases key v mid.supply
  generalize t.add key v mid.supply = a at added
  obtain ⟨i, u, gone, supply⟩ := a
  dsimp only at added ⊢
  have left : Keyring.Sound { mid with supply } := turned
  rcases added with ⟨-, same, keys⟩ | ⟨w, reseeded, drawn⟩
  · refine ⟨key :: ks, List.subset_cons_self key ks, fun k hk => ?_, ?_⟩
    · exact List.cons_subset_cons key held (keys hk)
    · exact (made.more (same ▸ made.issued) fun _ => id).releaseAll left t.pool gone
  · have issued := issued_reseed w made.issued
    rw [← drawn, ← reseeded] at issued
    refine ⟨u.heldKeys ++ key :: ks, fun k hk => ?_, List.subset_append_left .., ?_⟩
    · exact List.mem_append_right _ (List.mem_cons_of_mem key hk)
    · exact (made.more issued (List.subset_append_right ..)).releaseAll left t.pool gone

end

end ScriptCore.Table
