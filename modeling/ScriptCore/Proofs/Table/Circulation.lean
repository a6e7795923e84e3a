import ScriptCore.Proofs.Table.Turnover

/-!
# Table — one identity for a key

Tables and others intern keys in the same pools, give them to each other, and give them back.  A
`Circulation` is that of a `Commons`, where keys are also released by those who have not interned
them, and where a key is only spelt by those who have met it.

* `Sound.after`: what one step does to the keys of pools and tables.
* `one_identity`: for as long as a key has users, whoever interns it is given the same identity, and
  the tables that take it in store that one; and distinct keys have distinct identities.
-/

namespace ScriptCore

/-! ### An operation on a table -/

namespace Table
variable {α : Type} {t : Table α} {r : Keyring}

/-- What is left of a housed table and of its keyring. -/
structure Performed (t : Table α) (r : Keyring) (op : Op α) (u : Table α) (r' : Keyring) :
    Prop where
  housed : u.Housed r'
  exact : r'.Exact
  size : r'.pools.size = r.pools.size
  turns : r.Turns r'
  turnover : t.Turnover r op.brings u r'

theorem Housed.performed (h : t.Housed r) (exact : r.Exact) {op : Op α} (own : op.IsOwn) :
    t.Performed r op (op.after (t, r)).1 (op.after (t, r)).2 := by
  have does := op.does_after (t, r)
  obtain ⟨taken, gone, mid, d⟩ := does.dealsWith h own
  obtain ⟨-, exact', size⟩ := d.exact exact
  exact ⟨h.after op, exact', size, d.turns exact.sound, does.turnover own⟩

end Table

namespace Commons
open Key
variable {α : Type}

/-- The keys in the arenas of all tables. -/
def stored (c : Commons α) : List Key := c.tables.flatMap fun t => t.elim [] (·.heldKeys)

theorem mem_stored {c : Commons α} {k : Key} :
    k ∈ c.stored ↔ ∃ t, some t ∈ c.tables ∧ k ∈ t.heldKeys := by
  rw [stored, List.mem_flatMap]
  constructor
  · rintro ⟨t | t, ht, hk⟩
    · cases hk
    · exact ⟨t, ht, hk⟩
  · rintro ⟨t, ht, hk⟩
    exact ⟨some t, ht, hk⟩

/-- A key that a table stores has a user. -/
theorem Balanced.users_pos {c : Commons α} {t : Table α} {p : Nat} {k : Key} (b : c.Balanced)
    (ht : some t ∈ c.tables) (hp : p < c.ring.pools.size) (own : t.pool = some p)
    (hk : k ∈ t.heldKeys) : 0 < (c.ring.pool p).users k := by
  obtain ⟨n, hn⟩ := List.mem_iff_getElem?.mp ht
  have owed : tally k.letters (t.keysIn p) ≤ (c.ring.pool p).users k := b.owed hn hp k
  rw [Table.tally_keysIn, if_pos own] at owed
  have one : 0 < tally k.letters t.heldKeys :=
    List.countP_pos_iff.mpr ⟨k, hk, decide_eq_true rfl⟩
  omega

end Commons

/-! ### Steps -/

/-- Tables and others who share keys, and the keys that have been met. -/
structure Circulation (α : Type) extends Commons α where
  known : List Key := []

namespace Circulation
open Commons (mem_stored)
variable {α : Type}

/-- Something done to the tables or by those who intern keys; here these release any key they like.
Besides, a key may be made that no pool holds. -/
inductive Op (α : Type)
  | common (op : Commons.Op α)
  | make (s : Spelling) (seed : Seed)

/-- The spelling of the key that an operation may bring. -/
def Op.brings : Op α → Option Spelling
  | common (.perform _ op) => op.1.brings
  | common (.intern _ s) => some s
  | make s _ => some s
  | _ => none

/-- Where a spelling is read off a key, that is a key that has been met. -/
def Op.Admitted (c : Circulation α) (op : Op α) : Prop := ∀ s ∈ op.brings, s.ReadOff c.known

instance (c : Circulation α) (op : Op α) : Decidable (op.Admitted c) :=
  inferInstanceAs (Decidable (∀ s ∈ op.brings, s.ReadOff c.known))

/-- Carries out an operation.  The keys in tables can be met there. -/
def Op.carry (c : Circulation α) : Op α → Circulation α
  | common (.release p k) =>
    { c with ring := (c.ring.release p k).2, lent := c.lent.eraseP (Commons.isLent p k) }
  | common (.intern p s) =>
    { toCommons := (Commons.Op.intern p s).after c.toCommons
      known := (c.ring.intern p s).1 :: c.known }
  | common op =>
    let d := op.after c.toCommons
    { toCommons := d, known := d.stored ++ c.known }
  | make s seed =>
    let (key, ring) := c.ring.newKey s seed
    { c with ring, known := key :: c.known }

/-- What is left after an operation. -/
def Op.after (c : Circulation α) (op : Op α) : Circulation α :=
  if op.Admitted c then op.carry c else c

/-- The key that a pool hands over. -/
def Op.handed (c : Circulation α) (p : Nat) : Op α → Option Key
  | common (.intern q s) =>
    if q = p ∧ s.ReadOff c.known then some (c.ring.intern p s).1 else none
  | _ => none

/-- Carries out operations one after the other. -/
def run (ops : List (Op α)) (c : Circulation α) : Circulation α := ops.foldl Op.after c

/-- The keys that a pool hands over, one after the other. -/
def handed (p : Nat) : List (Op α) → Circulation α → List Key
  | [], _ => []
  | op :: ops, c => (op.handed c p).toList ++ handed p ops (op.after c)

/-- After each operation the key has users. -/
def StaysUsed (p : Nat) (s : Spelling) : List (Op α) → Circulation α → Prop
  | [], _ => True
  | op :: ops, c => 0 < ((op.after c).ring.pool p).users s ∧ StaysUsed p s ops (op.after c)

/-- Every key that is released is given back by one to whom it is lent. -/
def Fair : List (Op α) → Circulation α → Prop
  | [], _ => True
  | op :: ops, c =>
    (∀ p k, op = .common (.release p k) → c.lent.any (Commons.isLent p k) = true) ∧
      Fair ops (op.after c)

/-- Keys can be trusted, and those that are about were all made, each with its identity. -/
structure Sound (c : Circulation α) : Prop where
  exact : c.ring.Exact
  housed : ∀ t, some t ∈ c.tables → t.Housed c.ring
  issues : ∃ ks, c.known ⊆ ks ∧ c.stored ⊆ ks ∧ c.ring.Issues ks

/-- What one step does.  A table of a pool has the keys that it had, and others that the pool
holds. -/
structure Advances (c d : Circulation α) : Prop where
  sound : d.Sound
  size : d.ring.pools.size = c.ring.pools.size
  keys : ∃ mid : Keyring, c.ring.Within mid ∧ d.ring.Within mid ∧
    ∀ (n : Nat) (t : Table α), d.tables[n]? = some (some t) → ∀ p < c.ring.pools.size,
      t.pool = some p → ∀ k ∈ t.heldKeys,
        (∃ u, c.tables[n]? = some (some u) ∧ u.pool = some p ∧ k ∈ u.heldKeys) ∨
          (mid.pool p).key? k = some k

section
variable {c d : Circulation α} {t u : Table α} {r : Keyring} {n p : Nat} {k : Key} {ks : List Key}

theorem Advances.refl (h : c.Sound) : c.Advances c :=
  ⟨h, rfl, c.ring, .refl c.ring, .refl c.ring, fun _ t ht _ _ own _ hk => .inl ⟨t, ht, own, hk⟩⟩

/-- Only the keyring changes, and keys may have been met. -/
theorem Sound.rering (h : c.Sound) {mid : Keyring} (exact : r.Exact)
    (size : r.pools.size = c.ring.pools.size) (turns : c.ring.Turns r)
    (before : c.ring.Within mid) (after : r.Within mid) (lent : List (Nat × Key))
    {known : List Key} (issues : ∀ ks, c.known ⊆ ks → c.stored ⊆ ks →
      c.ring.Issues ks → ∃ ls, ks ⊆ ls ∧ known ⊆ ls ∧ r.Issues ls) :
    c.Advances { c with ring := r, lent, known } where
  sound := by
    obtain ⟨ks, knows, stores, issued⟩ := h.issues
    obtain ⟨ls, sub, knows', issued'⟩ := issues ks knows stores issued
    refine ⟨exact, fun t ht => ?_, ls, knows', fun k hk => sub (stores hk), issued'⟩
    have housed := h.housed t ht
    exact housed.of_sound housed.sound turns rfl rfl
  size := size
  keys := ⟨mid, before, after, fun _ t ht _ _ own _ hk => .inl ⟨t, ht, own, hk⟩⟩

/-- Nothing changes but that the keys in tables are met. -/
theorem Sound.meet (h : c.Sound) :
    c.Advances { c with known := c.stored ++ c.known } :=
  h.rering h.exact rfl (.refl h.exact.sound) (.refl c.ring) (.refl c.ring) c.lent
    fun ks knows stores issued => ⟨ks, fun _ => id, List.append_subset.mpr ⟨stores, knows⟩, issued⟩

/-- One table is replaced by another, or dropped. -/
theorem Sound.replace (h : c.Sound) (hn : c.tables[n]? = some (some t)) {o : Option (Table α)}
    {mid : Keyring} (exact : r.Exact) (size : r.pools.size = c.ring.pools.size)
    (turns : c.ring.Turns r) (before : c.ring.Within mid) (after : r.Within mid)
    (housed : ∀ u ∈ o, u.Housed r)
    (issues : ∀ ks, t.heldKeys ⊆ ks → c.known ⊆ ks → c.ring.Issues ks →
      ∃ ls, ks ⊆ ls ∧ (∀ u ∈ o, u.heldKeys ⊆ ls) ∧ r.Issues ls)
    (keys : ∀ u ∈ o, ∀ p < c.ring.pools.size, u.pool = some p → ∀ k ∈ u.heldKeys,
      t.pool = some p ∧ k ∈ t.heldKeys ∨ (mid.pool p).key? k = some k) :
    let d : Commons α := { c.toCommons with ring := r, tables := c.tables.set n o }
    c.Advances { toCommons := d, known := d.stored ++ c.known } := by
  intro d
  have mem {u : Table α} (hu : some u ∈ d.tables) : some u ∈ c.tables ∨ u ∈ o :=
    (List.mem_or_eq_of_mem_set hu).imp_right Eq.symm
  refine ⟨⟨exact, fun u hu => ?_, ?_⟩, size, mid, before, after, fun m u hu p hp own k hk => ?_⟩
  · rcases mem hu with hu | hu
    · have here := h.housed u hu
      exact here.of_sound here.sound turns rfl rfl
    · exact housed u hu
  · obtain ⟨ks, knows, stores, issued⟩ := h.issues
    obtain ⟨ls, sub, held, issued'⟩ := issues ks
      (fun k hk => stores (mem_stored.mpr ⟨t, List.mem_of_getElem? hn, hk⟩)) knows issued
    have stores' : d.stored ⊆ ls := by
      intro k hk
      obtain ⟨u, hu, hk⟩ := mem_stored.mp hk
      rcases mem hu with hu | hu
      · exact sub (stores (mem_stored.mpr ⟨u, hu, hk⟩))
      · exact held u hu hk
    exact ⟨ls, List.append_subset.mpr ⟨stores', fun k hk => sub (knows hk)⟩, stores', issued'⟩
  · change (c.tables.set n o)[m]? = some (some u) at hu
    rw [List.getElem?_set] at hu
    split at hu
    · rename_i here
      subst here
      split at hu
      · refine (keys u (Option.some.inj hu) p hp own k hk).imp_left fun ⟨own, hk⟩ => ?_
        exact ⟨t, hn, own, hk⟩
      · cases hu
    · exact .inl ⟨u, hu, own, hk⟩

theorem heldKeys_fresh (home : Table.Home) (r : Keyring) :
    (home.fresh r : Table α).heldKeys = [] := by
  cases home <;> simp [Table.Home.fresh, Table.inPool, Table.heldKeys]

/-- A new table has no keys. -/
theorem Sound.add (h : c.Sound) (home : Table.Home) :
    let d : Commons α := { c.toCommons with tables := c.tables ++ [some (home.fresh c.ring)] }
    c.Advances { toCommons := d, known := d.stored ++ c.known } := by
  intro d
  have same : d.stored = c.stored := by simp [Commons.stored, d, heldKeys_fresh]
  refine ⟨⟨h.exact, fun t ht => ?_, ?_⟩, rfl, c.ring, .refl _, .refl _,
    fun m u hu p hp own k hk => ?_⟩
  · rcases List.mem_append.mp ht with ht | ht
    · exact h.housed t ht
    · cases List.mem_singleton.mp ht
      exact home.housed h.exact.sound
  · obtain ⟨ks, knows, stores, issued⟩ := h.issues
    exact ⟨ks, List.append_subset.mpr ⟨same ▸ stores, knows⟩, same ▸ stores, issued⟩
  · change (c.tables ++ [some (home.fresh c.ring)])[m]? = some (some u) at hu
    rw [List.getElem?_append] at hu
    split at hu
    · exact .inl ⟨u, hu, own, hk⟩
    · rw [List.getElem?_singleton] at hu
      split at hu
      · cases hu
        rw [heldKeys_fresh] at hk
        cases hk
      · cases hu

/-- What an operation leaves of a table. -/
theorem Sound.perform (h : c.Sound) (hn : c.tables[n]? = some (some t)) {op : Table.Op α}
    (own : op.IsOwn) (read : ∀ s ∈ op.brings, s.ReadOff c.known) :
    let (u, ring) := op.after (t, c.ring)
    let d : Commons α := { c.toCommons with ring, tables := c.tables.set n (some u) }
    c.Advances { toCommons := d, known := d.stored ++ c.known } := by
  have sound := h.exact.sound
  have housed := h.housed t (List.mem_of_getElem? hn)
  have performed := housed.performed h.exact own
  generalize op.after (t, c.ring) = left at performed ⊢
  obtain ⟨housed', exact, size, turns, turnover⟩ := performed
  obtain ⟨mid, before, after, keys⟩ := turnover.keepsOrHeld housed.sound.toLinked sound
  refine h.replace hn exact size turns before after ?_ (fun ks held knows issued => ?_) ?_
  · rintro u ⟨⟩
    exact housed'
  · obtain ⟨ls, sub, held', issued'⟩ := turnover.issues housed.sound.toLinked sound issued held
      fun s hs k hk => knows (read s hs k hk)
    refine ⟨ls, sub, ?_, issued'⟩
    rintro u ⟨⟩
    exact held'
  · rintro u ⟨⟩ p hp own k hk
    rcases keys with none | ⟨pool, keys⟩
    · rw [none] at own
      cases own
    · rw [pool] at own
      exact (keys k hk).imp (fun hk => ⟨own, hk⟩) fun held => held p hp own

/-- **A step** that is carried out. -/
theorem Sound.carry (h : c.Sound) (op : Op α) (admitted : op.Admitted c) :
    c.Advances (op.carry c) := by
  have sound := h.exact.sound
  cases op with
  | make s seed =>
    have within : c.ring.Within (c.ring.newKey s seed).2 := .refl c.ring
    refine h.rering (r := (c.ring.newKey s seed).2) h.exact rfl ⟨sound, fun _ => rfl⟩ within
      (.refl _) c.lent fun ks knows _ issued => ?_
    have made := issued.newKey (fun k hk => knows (admitted s rfl k hk)) seed
    exact ⟨_, List.subset_cons_self _ ks, List.cons_subset_cons _ knows, made⟩
  | common op =>
    cases op with
    | add home => exact h.add home
    | perform n op =>
      dsimp only [Op.carry, Commons.Op.after]
      split
      · exact h.perform (by assumption) op.2 admitted
      · exact h.meet
    | drop n =>
      dsimp only [Op.carry, Commons.Op.after]
      split
      · rename_i t hn
        obtain ⟨exact, size⟩ := h.exact.releaseAll t.pool t.heldKeys
        exact h.replace hn exact size (sound.releaseAll t.pool t.heldKeys) (.refl c.ring)
          (sound.releaseAll_within t.pool t.heldKeys) nofun
          (fun ks _ _ issued => ⟨ks, fun _ => id, nofun, issued.releaseAll sound _ _⟩) nofun
      · exact h.meet
    | intern p s =>
      refine h.rering (h.exact.intern p s) (Keyring.size_intern p s) (sound.intern p s).2.2
        (sound.within_intern p s) (.refl _) _ fun ks knows _ issued => ?_
      have interned := issued.intern sound p fun k hk => knows (admitted s rfl k hk)
      exact ⟨_, List.subset_cons_self _ ks, List.cons_subset_cons _ knows, interned⟩
    | release p k =>
      refine h.rering (h.exact.release p k) (Keyring.size_release p k) (sound.release p k)
        (.refl c.ring) (sound.release_within p k) _ fun ks knows _ issued => ?_
      exact ⟨ks, fun _ => id, knows, issued.of_within (sound.release_within p k) rfl⟩

theorem Sound.after (h : c.Sound) (op : Op α) : c.Advances (op.after c) := by
  unfold Op.after
  split
  · exact h.carry op (by assumption)
  · exact .refl h

/-- A key that is handed over is held. -/
theorem Sound.key?_handed (h : c.Sound) (hp : p < c.ring.pools.size) {op : Op α} {s : Spelling}
    (handed : k ∈ op.handed c p) (letters : k.letters = s.letters) :
    ((op.after c).ring.pool p).key? s = some k := by
  unfold Op.handed at handed
  split at handed
  · rename_i q y
    split at handed
    · rename_i here
      obtain ⟨rfl, read⟩ := here
      have admitted : (Op.common (α := α) (.intern q y)).Admitted c := by
        rintro z ⟨⟩
        exact read
      cases handed
      rw [Op.after, if_pos admitted]
      show ((c.ring.intern q y).2.pool q).key? s = _
      rw [h.exact.sound.key?_intern hp,
        if_pos ⟨rfl, letters.symm.trans (h.exact.sound.intern q y).1⟩]
    · cases handed
  · cases handed

/-! ### Runs -/

section
variable {s : Spelling} {ops : List (Op α)}

/-- A key that is held is the one of its letters for as long as it has users. -/
theorem Advances.key? (a : c.Advances d) {mid : Keyring} (after : d.ring.Within mid)
    (used : 0 < (d.ring.pool p).users s) (held : (mid.pool p).key? s = some k) :
    (d.ring.pool p).key? s = some k := by
  obtain ⟨l, hl⟩ := Option.isSome_iff_exists.mp (((a.sound.exact p).isSome_key?_iff s).mpr used)
  rw [hl]
  exact (after p s l hl).symm.trans held

theorem Sound.run_sound (h : c.Sound) (ops : List (Op α)) :
    (run ops c).Sound ∧ (run ops c).ring.pools.size = c.ring.pools.size := by
  induction ops generalizing c with
  | nil => exact ⟨h, rfl⟩
  | cons op ops ih =>
    have a := h.after op
    obtain ⟨sound, size⟩ := ih a.sound
    exact ⟨sound, size.trans a.size⟩

/-- A key that is held is held for as long as it has users. -/
theorem Sound.key?_run (h : c.Sound) (used : c.StaysUsed p s ops)
    (held : (c.ring.pool p).key? s = some k) :
    ((run ops c).ring.pool p).key? s = some k := by
  induction ops generalizing c with
  | nil => exact held
  | cons op ops ih =>
    have a := h.after op
    obtain ⟨mid, before, after, -⟩ := a.keys
    exact ih a.sound used.2 (a.key? after used.1 (before p s k held))

/-- **Handing over.**  All who intern a key while it has users are given the key that is held. -/
theorem Sound.handed_run (h : c.Sound) (hp : p < c.ring.pools.size)
    (used : c.StaysUsed p s ops) (handed : k ∈ c.handed p ops) (letters : k.letters = s.letters) :
    ((run ops c).ring.pool p).key? s = some k := by
  induction ops generalizing c with
  | nil => cases handed
  | cons op ops ih =>
    have a := h.after op
    rcases List.mem_append.mp handed with handed | handed
    · have held := h.key?_handed hp (Option.mem_toList.mp handed) letters
      exact a.sound.key?_run used.2 held
    · exact ih a.sound (hp.trans_eq a.size.symm) used.2 handed

/-- **Taking in.**  All tables that take a key in while it has users store the key that is held. -/
theorem Sound.stored_run (h : c.Sound) (hp : p < c.ring.pools.size)
    (used : c.StaysUsed p s ops) (hn : (run ops c).tables[n]? = some (some t))
    (own : t.pool = some p) (hk : k ∈ t.heldKeys) (letters : k.letters = s.letters) :
    ((run ops c).ring.pool p).key? s = some k ∨
      ∃ u, c.tables[n]? = some (some u) ∧ u.pool = some p ∧ k ∈ u.heldKeys := by
  induction ops generalizing c with
  | nil => exact .inr ⟨t, hn, own, hk⟩
  | cons op ops ih =>
    have a := h.after op
    rcases ih a.sound (hp.trans_eq a.size.symm) used.2 hn with held | ⟨u, hu, own, hk⟩
    · exact .inl held
    obtain ⟨mid, -, after, keys⟩ := a.keys
    refine (keys n u hu p hp own k hk).symm.imp_left fun held => ?_
    have sound := (a.sound.exact p).toSound
    have users : 0 < ((op.after c).ring.pool p).users k := by
      rw [sound.users_congr (s := .ofKey k) letters]
      exact used.1
    refine a.sound.key?_run used.2 ?_
    rw [← sound.key?_congr (s := .ofKey k) letters]
    exact a.key? after users held

/-! ### Fair releases -/

/-- Every table of a pool stores the keys that the pool holds. -/
def Shares (c : Circulation α) : Prop :=
  ∀ t, some t ∈ c.tables → ∀ p < c.ring.pools.size, t.pool = some p → ∀ k ∈ t.heldKeys,
    (c.ring.pool p).key? k = some k

/-- A fair step keeps the users of keys balanced. -/
theorem balanced_after (b : c.Balanced) (op : Op α)
    (fair : ∀ p k, op = .common (.release p k) → c.lent.any (Commons.isLent p k) = true) :
    (op.after c).Balanced := by
  unfold Op.after
  split
  · cases op with
    | make s seed =>
      exact b.lend (r := (c.ring.newKey s seed).2) b.exact rfl ⟨b.exact.sound, fun _ => rfl⟩
        fun _ _ _ => rfl
    | common op =>
      have balanced := b.after op
      cases op with
      | release p k =>
        dsimp only [Commons.Op.after] at balanced
        rwa [if_pos (fair p k rfl)] at balanced
      | _ => exact balanced
  · exact b

/-- **Sharing.**  Where every release is fair, the tables of a pool have the keys that it holds in
common with all who intern them. -/
theorem Sound.shares_run (h : c.Sound) (b : c.Balanced) (shares : c.Shares)
    (fair : c.Fair ops) : (run ops c).Shares := by
  induction ops generalizing c with
  | nil => exact shares
  | cons op ops ih =>
    have a := h.after op
    have b' := balanced_after b op fair.1
    refine ih a.sound b' (fun t ht p hp own k hk => ?_) fair.2
    have users := b'.users_pos ht hp own hk
    obtain ⟨mid, before, after, keys⟩ := a.keys
    have hp : p < c.ring.pools.size := a.size ▸ hp
    obtain ⟨n, hn⟩ := List.mem_iff_getElem?.mp ht
    refine a.key? after users ?_
    rcases keys n t hn p hp own k hk with ⟨u, hu, own, hk⟩ | held
    · exact before p k k (shares u (List.mem_of_getElem? hu) p hp own k hk)
    · exact held

/-! ### One identity -/

/-- Empty pools, no tables, and no key that has been met. -/
def start (seeds : Array Seed) (supply : Supply) : Circulation α where
  toCommons := .start seeds supply

theorem sound_start (seeds : Array Seed) (supply : Supply) :
    (start seeds supply : Circulation α).Sound where
  exact := Keyring.exact_ofSeeds seeds supply
  housed := nofun
  issues := ⟨[], fun _ => id, fun _ => id, Keyring.issues_ofSeeds seeds supply⟩

/-- The key is about: it has been met, or a pool holds it, or a table stores it. -/
def Meets (c : Circulation α) (k : Key) : Prop :=
  k ∈ c.known ∨ (∃ p s, (c.ring.pool p).key? s = some k) ∨ k ∈ c.stored

theorem Sound.eq_of_handle (h : c.Sound) {l : Key} (hk : c.Meets k) (hl : c.Meets l)
    (same : k.handle = l.handle) : k = l := by
  obtain ⟨ks, knows, stores, issues⟩ := h.issues
  have mem {m : Key} (hm : c.Meets m) : m ∈ ks := by
    rcases hm with hm | ⟨p, s, hm⟩ | hm
    · exact knows hm
    · exact issues.pools p s m hm
    · exact stores hm
  exact issues.issued.apart k (mem hk) l (mem hl) same

/-- **One identity for a key.**  Whatever has been done by tables and others, a pool counts the
users of its keys one by one, and no two keys that are about have one identity.  Whatever is done
while a key has users, all who intern it are given the one key that is held, and so is each table
that takes it in.  Where no one has released a key but to give one back, the tables of the pool
store that very key. -/
theorem one_identity (seeds : Array Seed) (supply : Supply) (earlier ops : List (Op α))
    (p : Fin seeds.size) :
    let c := run earlier (start seeds supply)
    let d := run ops c
    (d.ring.pool p).CountsUsers ∧
      (∀ k l, d.Meets k → d.Meets l → k.handle = l.handle → k = l) ∧
      (∀ s, c.StaysUsed p s ops →
        (∀ k ∈ c.handed p ops, k.letters = s.letters → (d.ring.pool p).key? s = some k) ∧
        ∀ (n : Nat) t, d.tables[n]? = some (some t) → t.pool = some p.val →
          ∀ k ∈ t.heldKeys, k.letters = s.letters →
            (d.ring.pool p).key? s = some k ∨
              ∃ u, c.tables[n]? = some (some u) ∧ u.pool = some p.val ∧ k ∈ u.heldKeys) ∧
      ((start seeds supply).Fair (earlier ++ ops) →
        ∀ t, some t ∈ d.tables → t.pool = some p.val → ∀ k ∈ t.heldKeys,
          (d.ring.pool p).key? k = some k) := by
  intro c d
  obtain ⟨sound, size⟩ := (sound_start (α := α) seeds supply).run_sound earlier
  obtain ⟨sound', size'⟩ := sound.run_sound ops
  have there : p < c.ring.pools.size :=
    p.isLt.trans_eq ((Array.size_map ..).symm.trans size.symm)
  refine ⟨(sound'.exact p).countsUsers, fun k l => sound'.eq_of_handle, fun s used => ⟨?_, ?_⟩,
    fun fair => ?_⟩
  · exact fun k handed letters => sound.handed_run there used handed letters
  · exact fun n t hn own k hk letters => sound.stored_run there used hn own hk letters
  · have shares := (sound_start seeds supply).shares_run (Commons.balanced_start seeds supply)
      nofun fair
    rw [run, List.foldl_append] at shares
    exact fun t ht own k hk => shares t ht p (there.trans_eq size'.symm) own k hk

/-- A table and two others intern a key, and one of them gives it back. -/
theorem one_identity_shared :
    let s : Spelling := .ofText "x"
    let earlier : List (Op Nat) := [.common (.add (.pool 0)), .common (.intern 0 s)]
    let ops : List (Op Nat) := [.common (.perform 0 ⟨.store s 1, trivial⟩),
      .common (.intern 0 s), .common (.release 0 (.probe s {}))]
    let c := run earlier (start #[{}] {})
    let d := run ops c
    c.StaysUsed 0 s ops ∧ (start #[{}] {}).Fair (earlier ++ ops) ∧
      (d.ring.pool 0).users s = 2 ∧ (c.handed 0 ops).length = 1 ∧
      (∀ k ∈ c.handed 0 ops, k.letters = s.letters → (d.ring.pool 0).key? s = some k) ∧
      ∀ t, some t ∈ d.tables → t.pool = some 0 → ∀ k ∈ t.heldKeys,
        (d.ring.pool 0).key? k = some k := by
  intro s earlier ops c d
  have used : c.StaysUsed 0 s ops :=
    ⟨by decide +kernel, by decide +kernel, by decide +kernel, trivial⟩
  have fair : (start #[{}] {}).Fair (earlier ++ ops) := by
    refine ⟨nofun, nofun, nofun, nofun, ?_, trivial⟩
    rintro p k ⟨⟩
    decide +kernel
  obtain ⟨-, -, held, common⟩ := one_identity #[{}] {} earlier ops (0 : Fin 1)
  exact ⟨used, fair, by decide +kernel, by decide +kernel, (held s used).1, common fair⟩

/-- When one who has not interned a key releases it, the use of a table is gone: who interns the
key from then on is given another than the table stores. -/
theorem stored_apart_of_unfair :
    let s : Spelling := .ofText "x"
    let ops : List (Op Nat) := [.common (.add (.pool 0)),
      .common (.perform 0 ⟨.store s 1, trivial⟩), .common (.release 0 (.probe s {})),
      .common (.intern 0 s)]
    let d := run ops (start #[{}] {})
    (d.ring.pool 0).users s = 1 ∧ ((start #[{}] {}).handed 0 ops).map (·.handle) = [2] ∧
      d.tables.map (fun t => t.bind (·.pool)) = [some 0] ∧
      d.tables.map (fun t => (t.bind (·.storedKey? s)).map (·.handle)) = [some 1] := by
  decide +kernel

end

end

end Circulation

end ScriptCore
