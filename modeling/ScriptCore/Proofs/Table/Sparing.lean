import ScriptCore.Proofs.Table.Ahead
import ScriptCore.Proofs.Table.Changes

/-!
# Table — what spares a walk

Whatever is done to a table that does not grow, other than to clear it or to move its cursor,
spares a walk (`Housed.spared`): it takes the places that it removes out of what is ahead, wherever
the cursor stands (`resume_remove`), and puts new ones there only in later buckets
(`resume_link`).
-/

namespace ScriptCore.Table
variable {α : Type}

/-- `u` is the table `t` after something that spares its walk.  A place that is left stays ahead or
behind; a new one holds letters that `t` had not, and does not come into the rest of the chain. -/
structure Spared (t u : Table α) : Prop where
  linked : u.Linked
  buckets : u.buckets = t.buckets
  seed : u.seed = t.seed
  bucket : u.cursor.bucket = t.cursor.bucket
  resume : ∀ i, i ∈ u.resume ↔ i ∈ t.resume ∧ i ∈ u.chained
  kept : ∀ i ∈ t.chained, i ∈ u.chained → u.lettersAt i = t.lettersAt i
  fresh : ∀ i ∈ u.chained, i ∉ t.chained → ∀ j ∈ t.chained, t.lettersAt j ≠ u.lettersAt i

/-- What may be done during a walk: its steps, and whatever else but to clear the table or to
start anew. -/
def Op.During (withPlaceholders : Bool) : Op α → Prop
  | clear _ => False
  | startWalk => False
  | walk w => w = withPlaceholders
  | _ => True

section
variable {t u : Table α} {r : Keyring} {w : Bool} {b i j : Nat} {pre post : List Nat}

/-- The rest of a chain depends on the chains, the cursor and the hashes. -/
theorem resume_congr (chains : u.chains = t.chains) (cursor : u.cursor = t.cursor)
    (hash : ∀ i, u.hashAt i = t.hashAt i) : u.resume = t.resume := by
  have chain (b : Nat) : u.chain b = t.chain b := by rw [chain, chains]; rfl
  have bucketOf (h : UInt32) : u.bucketOf h = t.bucketOf h := by
    rw [Table.bucketOf, buckets, chains]
    rfl
  simp only [resume_eq, goesOn, onward, cursor, chain, bucketOf, hash]

theorem Spared.of_same (linked : u.Linked) (chains : u.chains = t.chains) (seed : u.seed = t.seed)
    (cursor : u.cursor = t.cursor) (letters : ∀ i, u.lettersAt i = t.lettersAt i)
    (hash : ∀ i, u.hashAt i = t.hashAt i) : t.Spared u where
  linked := linked
  buckets := by rw [Table.buckets, chains]; rfl
  seed := seed
  bucket := by rw [cursor]
  resume i := by
    rw [resume_congr chains cursor hash, chained, chains]
    exact (and_iff_left_of_imp mem_of_mem_resume).symm
  kept i _ _ := letters i
  fresh i hi old := absurd (by rwa [Table.chained, chains] at hi) old

theorem Spared.refl (h : t.Linked) : t.Spared t :=
  .of_same h rfl rfl rfl (fun _ => rfl) fun _ => rfl

/-! ### Removing during a walk -/

theorem Linked.chain_unlink (h : t.Linked) (i b : Nat) :
    (t.unlink i).chain b = (t.chain b).erase i := by
  have modified : (t.unlink i).chain b =
      if t.bucketOf (t.hashAt i) = b then (t.chain b).erase i else t.chain b :=
    chain_modify (·.erase i) rfl
  rw [modified]
  split
  · rfl
  · rename_i other
    exact (List.erase_of_not_mem fun hi => other (h.placed b i hi)).symm

theorem chains_remove (t : Table α) (i : Nat) : (t.remove i).1.chains = (t.unlink i).chains := by
  unfold remove
  dsimp only
  split <;> rfl

/-- A place taken out of a list, seen from the end. -/
theorem exists_erase_append (nodup : (pre ++ post).Nodup) (i : Nat) :
    ∃ pre', (pre ++ post).erase i = pre' ++ post.erase i := by
  by_cases hi : i ∈ pre
  · have apart : i ∉ post := fun hp => (List.nodup_append.mp nodup).2.2 i hi i hp rfl
    exact ⟨pre.erase i, by rw [List.erase_append_left _ hi, List.erase_of_not_mem apart]⟩
  · exact ⟨pre, List.erase_append_right _ hi⟩

/-- Where the cursor goes on once the place `i` is taken out, unless it stands on it. -/
theorem cursor_remove (hc : t.cursor.current ≠ some i) :
    (t.remove i).1.cursor =
      if t.cursor.parted ∧ t.cursor.next = some i then
        { t.cursor with next := successor i (t.chain (t.bucketOf (t.hashAt i))) }
      else t.cursor := by
  unfold remove
  dsimp only
  have current : ((t.unlink i).setValue i none).cursor.current = t.cursor.current := current_unlink
  rw [current, if_neg hc]
  rfl

/-- A cursor that stands on the place that is taken out parts, and goes on from what follows. -/
theorem goesOn_remove_current (hc : t.cursor.current = some i) :
    (t.remove i).1.goesOn = successor i (t.chain (t.bucketOf (t.hashAt i))) := by
  unfold remove
  dsimp only
  have current : ((t.unlink i).setValue i none).cursor.current = t.cursor.current := current_unlink
  rw [current, if_pos hc]
  rfl

theorem bucket_remove (t : Table α) (i : Nat) :
    (t.remove i).1.cursor.bucket = t.cursor.bucket := by
  have bucket : (t.unlink i).cursor.bucket = t.cursor.bucket := by
    unfold unlink
    dsimp only
    split <;> rfl
  unfold remove
  dsimp only
  split <;> exact bucket

/-- **Removing during a walk.**  What is left of the chain is left but for the place that is taken
out, wherever the cursor is. -/
theorem Linked.resume_remove (h : t.Linked) (hi : i ∈ t.chained) :
    (t.remove i).1.resume = t.resume.erase i := by
  have linked := (removes_remove h hi).linked
  have chain (b : Nat) : (t.remove i).1.chain b = (t.chain b).erase i := by
    rw [← h.chain_unlink, Table.chain, chains_remove]
    rfl
  obtain ⟨b, pre, c, on⟩ := h.resume_cases
  have nodup := nodup_chain h b
  rw [c] at nodup
  -- it is enough that the cursor goes on from the first place of what is left
  suffices (t.remove i).1.goesOn = (t.resume.erase i).head? by
    obtain ⟨pre', split⟩ := exists_erase_append nodup i
    rw [resume_eq, this]
    exact linked.onward_head? (by rw [chain, c, split])
  cases hp : t.cursor.parted with
  | true =>
    -- a link that leads to the place is moved on to what follows it
    have hc : t.cursor.current ≠ some i := fun hc =>
      h.not_chained_of_parked (by simp [parked, hp, hc]) hi
    have next : t.cursor.next = t.resume.head? := by simpa [goesOn, hp] using on
    rw [goesOn, cursor_remove hc]
    cases rest : t.resume with
    | nil => simp [next, rest, hp]
    | cons j rest' =>
      rw [rest, List.head?_cons] at next
      by_cases hj : j = i
      · subst hj
        rw [rest] at c
        have follows : successor j (t.chain (t.bucketOf (t.hashAt j))) = rest'.head? := by
          rw [h.placed b j (by simp [c]), c, successor_append]
          rw [rest] at nodup
          exact fun hj => (List.nodup_append.mp nodup).2.2 j hj j (by simp) rfl
        simp [next, hp, follows]
      · simp [next, hp, hj]
  | false =>
    cases hc : t.cursor.current with
    | none =>
      have nothing : t.resume = [] := by simp [resume_eq, goesOn, onward, hp, hc]
      rw [goesOn, cursor_remove (by simp [hc])]
      simp [hp, hc, nothing]
    | some k =>
      have hk : k ∈ t.chained := (h.standing k hc).resolve_right (by simp [parked, hp])
      obtain ⟨before, after, apart, split⟩ := h.chain_split hk
      have rest : t.resume = after := h.resume_of_current hp hc split
      by_cases here : k = i
      · -- the cursor stands on the place, and parts from it
        subst here
        have nodup := nodup_chain h (t.bucketOf (t.hashAt k))
        rw [split] at nodup
        have gone : k ∉ after := (List.nodup_cons.mp nodup.of_append_right).1
        rw [rest, List.erase_of_not_mem gone, goesOn_remove_current hc, split,
          successor_append apart]
      · have nodup := nodup_chain h (t.bucketOf (t.hashAt k))
        rw [split] at nodup
        obtain ⟨before', split'⟩ := exists_erase_append nodup i
        have cursor : (t.remove i).1.cursor = t.cursor := by
          rw [cursor_remove (by simpa [hc] using here), hp]
          simp
        have split' : (t.remove i).1.chain (t.bucketOf (t.hashAt k)) =
            before' ++ k :: after.erase i := by
          rw [chain, split, split', List.erase_cons_tail (by simpa using here)]
        have rest' : (t.remove i).1.resume = after.erase i :=
          linked.resume_of_current (cursor ▸ hp) (cursor ▸ hc) split'
        obtain ⟨-, -, -, on'⟩ := linked.resume_cases
        rw [on', rest', rest]

theorem Linked.spared_remove (h : t.Linked) (hi : i ∈ t.chained) : t.Spared (t.remove i).1 := by
  have r := removes_remove h hi
  obtain ⟨b, pre, c, -⟩ := h.resume_cases
  have nodup : t.resume.Nodup := ((c ▸ nodup_chain h b : (pre ++ t.resume).Nodup)).of_append_right
  have left (j : Nat) : j ∈ (t.remove i).1.chained ↔ j ∈ t.chained ∧ j ≠ i := by
    rw [r.mem_chained_iff h, List.mem_singleton]
  refine ⟨r.linked, congrArg Settings.buckets r.settings, congrArg Settings.seed r.settings,
    bucket_remove t i, fun j => ?_, fun j _ hj => ?_, fun j hj old => ?_⟩
  · rw [h.resume_remove hi, nodup.mem_erase_iff, left]
    exact ⟨fun ⟨ne, hj⟩ => ⟨hj, mem_of_mem_resume hj, ne⟩, fun ⟨hj, _, ne⟩ => ⟨ne, hj⟩⟩
  · rw [lettersAt, r.kept h hj]
    rfl
  · exact absurd ((left j).mp hj).1 old

/-- Sparing a walk, and then only taking out what was chained. -/
theorem Spared.trans {v : Table α} (s : t.Spared u) (s' : u.Spared v)
    (sub : ∀ i ∈ v.chained, i ∈ u.chained) : t.Spared v where
  linked := s'.linked
  buckets := s'.buckets.trans s.buckets
  seed := s'.seed.trans s.seed
  bucket := s'.bucket.trans s.bucket
  resume i := by
    rw [s'.resume, s.resume]
    exact ⟨fun ⟨⟨hi, _⟩, hv⟩ => ⟨hi, hv⟩, fun ⟨hi, hv⟩ => ⟨⟨hi, sub i hv⟩, hv⟩⟩
  kept i hi hv := (s'.kept i (sub i hv) hv).trans (s.kept i hi (sub i hv))
  fresh i hv old j hj := by
    rw [s'.kept i (sub i hv) hv]
    exact s.fresh i (sub i hv) old j hj

theorem Linked.spared_foldl_remove {gone : List Nat} (h : t.Linked) (nodup : gone.Nodup)
    (sub : ∀ i ∈ gone, i ∈ t.chained) (ks : List Key) :
    t.Spared (gone.foldl (fun (t, ks) i =>
      let (t, k) := t.remove i
      (t, ks ++ k)) (t, ks)).1 := by
  induction gone generalizing t ks with
  | nil => exact .refl h
  | cons i gone ih =>
    have hi := sub i (List.mem_cons_self ..)
    have first := removes_remove h hi
    obtain ⟨apart, nodup⟩ := List.nodup_cons.mp nodup
    have sub (j : Nat) (hj : j ∈ gone) : j ∈ (t.remove i).1.chained :=
      (first.mem_chained_iff h).mpr ⟨sub j (List.mem_cons_of_mem _ hj), by
        rw [List.mem_singleton]
        rintro rfl
        exact apart hj⟩
    have rest := removes_foldl first.linked nodup sub (ks ++ (t.remove i).2)
    exact (h.spared_remove hi).trans (ih first.linked nodup sub _) fun j hj =>
      ((rest.mem_chained_iff first.linked).mp hj).1

/-! ### Adding during a walk -/

/-- A new entry stands before what a chain had. -/
theorem chain_link (t : Table α) (e : Entry α) (b : Nat) :
    ∃ pre, (t.link e).2.chain b = pre ++ t.chain b ∧ ∀ j ∈ pre, j = (t.link e).1 := by
  have alloc : (t.allocate e).2.chains = t.chains := by
    unfold allocate
    split <;> rfl
  unfold link
  dsimp only
  generalize t.allocate e = r at alloc
  obtain ⟨i, u⟩ := r
  dsimp only at alloc ⊢
  unfold chain
  rw [alloc, Array.getD_eq_getD_getElem?, Array.getD_eq_getD_getElem?, Array.getElem?_modify]
  split
  · cases t.chains[b]? with
    | none => exact ⟨[], rfl, nofun⟩
    | some c => exact ⟨[i], rfl, fun j hj => List.mem_singleton.mp hj⟩
  · exact ⟨[], rfl, nofun⟩

/-- **Adding during a walk.**  What is left of the chain is left, and nothing besides. -/
theorem Linked.resume_link (h : t.Linked) (e : Entry α) (linked : (t.link e).2.Linked) :
    (t.link e).2.resume = t.resume := by
  have g := h.link e
  have chain := chain_link t e
  generalize t.link e = r at g chain linked
  obtain ⟨i, u⟩ := r
  dsimp only at g chain linked ⊢
  obtain ⟨b, pre, c, on⟩ := h.resume_cases
  suffices u.goesOn = t.goesOn by
    obtain ⟨before, split, -⟩ := chain b
    have split' : u.chain b = (before ++ pre) ++ t.resume := by rw [split, c, List.append_assoc]
    rw [resume_eq, this, on]
    exact linked.onward_head? split'
  unfold goesOn
  rw [g.cursor]
  cases hp : t.cursor.parted with
  | true => rfl
  | false =>
    cases hc : t.cursor.current with
    | none => rfl
    | some k =>
      have hk : k ∈ t.chained := (h.standing k hc).resolve_right (by simp [parked, hp])
      obtain ⟨before, after, apart, split⟩ := h.chain_split hk
      obtain ⟨more, split', new⟩ := chain (t.bucketOf (t.hashAt k))
      have buckets : u.buckets = t.buckets := congrArg Settings.buckets g.settings
      have home : u.bucketOf (u.hashAt k) = t.bucketOf (t.hashAt k) := by
        rw [bucketOf, buckets, hashAt, g.old hk]
        rfl
      have apart' : k ∉ more ++ before := by
        rw [List.mem_append, not_or]
        exact ⟨fun hm => g.apart.1 (new k hm ▸ hk), apart⟩
      show successor k (u.chain (u.bucketOf (u.hashAt k))) =
        successor k (t.chain (t.bucketOf (t.hashAt k)))
      rw [home, split', split, successor_append apart, ← List.append_assoc,
        successor_append apart']

theorem Linked.spared_link (h : t.Linked) {e : Entry α}
    (hash : e.key.hash = t.seed.hash e.key.bytes)
    (fresh : ∀ i ∈ t.chained, t.lettersAt i ≠ some e.key.letters) : t.Spared (t.link e).2 := by
  have g := h.link e
  have linked := g.linked h hash fresh
  refine ⟨linked, congrArg Settings.buckets g.settings, congrArg Settings.seed g.settings,
    by rw [g.cursor], fun i => ?_, fun i hi _ => ?_, fun i hi old j hj => ?_⟩
  · rw [h.resume_link e linked]
    exact ⟨fun hi => ⟨hi, g.mem.mpr (.inr (mem_of_mem_resume hi))⟩, And.left⟩
  · rw [lettersAt, g.old hi]
    rfl
  · obtain rfl := (g.mem.mp hi).resolve_right old
    have letters : (t.link e).2.lettersAt (t.link e).1 = some e.key.letters := by
      rw [lettersAt, g.new]
      rfl
    rw [letters]
    exact fresh j hj

theorem Counted.buckets_split (h : t.Counted) (supply : Supply) :
    (t.split supply).1.buckets = t.buckets + t.buckets := by
  obtain ⟨-, buckets, -, -⟩ := h.grows_cleared
  unfold Table.split
  generalize (if 0 < t.placeholders ∧ t.restricted = false then t.dropPlaceholders else (t, [])) =
    w at buckets
  dsimp only at buckets ⊢
  have doubled : w.1.doubled.buckets = t.buckets + t.buckets := by rw [buckets_doubled, buckets]
  split
  · exact (buckets_reseed _ _).trans doubled
  · exact doubled

/-- A table that receives an entry and keeps its buckets has not grown, which spares its walk. -/
theorem Sound.spared_add (h : t.Sound) {key : Key} (hash : key.hash = t.seed.hash key.bytes)
    (fresh : ∀ i ∈ t.chained, t.lettersAt i ≠ some key.letters) {v : α} {supply : Supply}
    (same : (t.add key v supply).2.1.buckets = t.buckets) :
    t.Spared (t.add key v supply).2.1 := by
  have spared := h.toLinked.spared_link (e := ⟨key, some v⟩) hash fresh
  have counted := (h.toLinked.link ⟨key, some v⟩).counted h.toCounted hash fresh rfl
  unfold Table.add at same ⊢
  generalize t.link ⟨key, some v⟩ = r at spared counted same ⊢
  obtain ⟨i, w⟩ := r
  dsimp only at spared counted same ⊢
  split
  · rename_i grown
    rw [if_pos grown] at same
    have doubled := counted.buckets_split supply
    have positive := h.positive
    rw [spared.buckets] at doubled
    have same : (w.split supply).1.buckets = t.buckets := same
    omega
  · exact spared

/-! ### What spares a walk -/

theorem Spared.remarked (s : t.Spared u) (total placeholders : Nat) (restricted pinned : Bool) :
    t.Spared { u with total, placeholders, restricted, pinned } :=
  s.trans (.of_same (s.linked.remarked total placeholders restricted pinned) rfl rfl rfl
    (fun _ => rfl) fun _ => rfl) fun _ hi => hi

theorem Linked.spared_setValue (h : t.Linked) (i : Nat) (v : Option α) :
    t.Spared (t.setValue i v) :=
  .of_same (h.setValue i v) rfl rfl rfl (fun _ => lettersAt_setValue) fun _ => hashAt_setValue

/-- What is left by something that spares the walk, unless the table has grown. -/
def Spares (t u : Table α) (_ : Keyring) : Prop := u.buckets = t.buckets → t.Spared u

theorem Housed.spared_insertNew (h : Housed t r) {s : Spelling} (absent : t.locate s = none)
    (v : α) : t.Spares (t.insertNew r s v).2.1 (t.insertNew r s v).2.2 := by
  have unmet := (locate_eq_none_iff h.sound.toLinked).mp absent
  obtain ⟨letters, hash, -⟩ := h.ring.keyFor h.home s
  unfold Table.insertNew
  generalize r.keyFor t.pool s t.seed = k at letters hash
  obtain ⟨key, r'⟩ := k
  intro same
  exact h.sound.spared_add (by rwa [show key.bytes = s.bytes from congrArg Prod.fst letters])
    (letters ▸ unmet) same

theorem Linked.spared_dropPlaceholders (h : t.Linked) : t.Spared t.dropPlaceholders.1 :=
  (h.spared_foldl_remove (h.nodup_chained.filter t.isPlaceholder)
    (fun _ hi => (List.mem_filter.mp hi).1) []).remarked _ _ _ _

/-- **Sparing.**  Whatever is done during a walk but its steps spares it. -/
theorem Op.Does.spares {r' : Keyring} {op : Op α} (does : op.Does t r u r') (h : Housed t r)
    (during : op.During w) (other : ∀ w, op ≠ .walk w) : t.Spares u r' := by
  have linked := h.sound.toLinked
  have refl : t.Spared t := .refl linked
  cases does with
  | nothing | intern | release => exact fun _ => refl
  | value _ v n => exact fun _ => (linked.spared_setValue _ v).remarked t.total n _ _
  | insert _ absent => exact h.spared_insertNew absent _
  | remove found _ n =>
    have hi := ((locate_eq_some_iff linked).mp found).1
    exact fun _ => (linked.spared_remove hi).remarked n _ _ _
  | blank | empty | rewind => cases during
  | clearPlaceholders => exact fun _ => linked.spared_dropPlaceholders
  | restrict => exact fun _ => refl.remarked _ _ true t.pinned
  | unrestrict => exact fun _ => refl.remarked _ _ false t.pinned
  | pinSeed => exact fun _ => refl.remarked _ _ t.restricted true
  | rebucket more =>
    intro same
    rw [buckets_rebucket] at same
    exact absurd same (Nat.ne_of_gt more)
  | step => exact absurd rfl (other _)

theorem Housed.spared (h : Housed t r) {op : Op α} (during : op.During w)
    (other : ∀ w, op ≠ .walk w) : Leaves t.Spares (op.perform t r) :=
  (op.does t r).imp fun _ _ does => does.spares h during other

end

end ScriptCore.Table
