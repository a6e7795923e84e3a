import ScriptCore.Proofs.Heap.Aggregates

/-!
# Heap — the table in a hash cell

What becomes of the table in a hash cell that somebody has a handle on.  It stays where it is while
cells are retained, made and let go, and whatever the hooks of the cell do, they leave an empty
table as it is (`keeps_runHooks_table`): an aggregate has no room for a value, so a hook can neither
read nor write it, and one that undefines it makes a new empty table in its place.

* `Kept.ends_setUndef`: undefining a hash, by the write itself and by all hooks that follow it,
  leaves an empty table with nothing but the seed and the pool of the old one.
-/

namespace ScriptCore.Heap

section
variable {h₀ h h' : Heap} {i v : CellId} {c d : Cell} {out is : List CellId} {t u e : Table CellId}
  {r : Keyring} {key : Spelling}

/-! ### The table stays -/

/-- A cell with the same payload has the same table. -/
theorem IsTable.of_payload (is : h.IsTable i t)
    (same : ∀ c, h.cell? i = some c → ∃ d, h'.cell? i = some d ∧ d.payload = c.payload) :
    h'.IsTable i t := by
  obtain ⟨c, hc, hash⟩ := is
  obtain ⟨d, hd, payload⟩ := same c hc
  exact ⟨d, hd, payload.trans hash⟩

theorem IsTable.of_cells (is : h.IsTable i t) (same : h'.cells = h.cells) : h'.IsTable i t :=
  is.of_payload fun c hc => ⟨c, (cell?_of_cells same i).trans hc, rfl⟩

theorem IsTable.setCell (is : h.IsTable i t) {j : CellId} (hc : h.cell? j = some c)
    (same : d.payload = c.payload) : (h.setCell j d).IsTable i t := by
  refine is.of_payload fun c' hc' => ?_
  rw [cell?_setCell]
  split
  · rename_i here
    obtain ⟨rfl, -⟩ := here
    cases hc.symm.trans hc'
    exact ⟨d, rfl, same⟩
  · exact ⟨c', hc', rfl⟩

theorem IsTable.updateCell (is : h.IsTable i t) (j : CellId) {f : Cell → Cell}
    (same : ∀ c, (f c).payload = c.payload) : (h.updateCell j f).IsTable i t := by
  unfold Heap.updateCell
  cases hc : h.cell? j with
  | none => rwa [setCell_gone hc]
  | some c =>
    rw [cell_eq hc]
    exact is.setCell hc (same c)

theorem IsTable.retainAll (is : h.IsTable i t) (more : List CellId) :
    (h.retainAll more).IsTable i t :=
  is.of_payload fun c hc =>
    ⟨{ c with owners := c.owners + more.count i }, by rw [cell?_retainAll, hc]; rfl, rfl⟩

theorem IsTable.allocate (is : h.IsTable i t) (c : Cell) : (h.allocate c).2.IsTable i t := by
  refine is.of_payload fun d hd => ⟨d, ?_, rfl⟩
  rw [cell?_allocate, if_neg (Nat.ne_of_lt (lt_size hd)), hd]

theorem IsTable.withTable (is : h.IsTable i t) (u : Table CellId) (r : Keyring) :
    (h.withTable i u r).IsTable i u := by
  obtain ⟨c, hc, -⟩ := is
  have hc' : { h with ring := r }.cell? i = some c := hc
  refine ⟨{ c with payload := .hash u }, ?_, rfl⟩
  unfold Heap.withTable Heap.updateCell
  rw [cell?_setCell, cell_eq hc', isAlive, hc', if_pos ⟨rfl, rfl⟩]

/-- A hash that somebody has a handle on keeps its table when others let go. -/
theorem Kept.isTable_letGo (k : Kept h₀ (is ++ out) h) (hi : i ∈ out) (table : h.IsTable i t) :
    (h.letGo is).IsTable i t := by
  obtain ⟨c, hc, hash⟩ := table
  obtain ⟨n, hn⟩ := k.sound.owned.holds_letGo hi ⟨c.owners, hc⟩
  exact ⟨_, hn, hash⟩

/-! ### What hooks do to a hash -/

/-- A hash has no room for a value. -/
theorem Kept.shape_of_isTable (k : Kept h₀ out h) (table : h.IsTable i t) :
    (h.cell i).shape = .hash := by
  obtain ⟨c, hc, hash⟩ := table
  have payload := (k.valid hc).payload
  rw [hash] at payload
  rw [cell_eq hc]
  split at payload
  · exact (Option.some.inj payload).symm
  · cases payload

theorem Kept.ends_assign (k : Kept h₀ out h) (table : h.IsTable i t) {need : Room}
    (full : Shape.hash.growFor need = none) (gains : Option CellId) (fill : Cell → Cell)
    {Q : Unit → Heap → Prop} : Ends (Heap.assign i need gains fill) h Q (· = h) := by
  refine Ends.read (Ends.outcome (fun _ _ => Ends.outcome (fun d made => ?_) rfl) rfl)
  unfold Cell.makeRoom at made
  rw [k.shape_of_isTable table, full] at made
  cases made

theorem Kept.ends_readText (k : Kept h₀ out h) (table : h.IsTable i t) (sink : Sink)
    {Q : String → Heap → Prop} : Ends (readText i sink) h Q (· = h) := by
  have refused : (h.cell i).expectScalar = .error (.mismatch (.notScalar .hash)) := by
    unfold Cell.expectScalar
    rw [k.shape_of_isTable table]
    rfl
  have found : sourceOf i h = .error (.mismatch (.notScalar .hash)) h := by
    unfold sourceOf
    rw [bind_get, refused]
    rfl
  have read : readText i sink h = .error (.mismatch (.notScalar .hash)) h :=
    bind_error (bind_error found)
  unfold Ends
  rw [read]

/-- **Undefining** a hash puts an empty table in the place of the one there was. -/
theorem Kept.ends_undefine (k : Kept h₀ out h) (hi : i ∈ out) (table : h.IsTable i t) :
    Ends (undefine i) h (fun _ g => (h.cell i).checkWritable = .ok () ∧ Kept h₀ out g ∧
      g.IsTable i t.emptied) fun g => (h.cell i).checkWritable ≠ .ok () ∧ g = h := by
  obtain ⟨c, hc, hash⟩ := table
  refine Ends.read ?_
  rw [cell_eq hc]
  dsimp only
  cases writable : c.checkWritable with
  | error e => exact Ends.outcome nofun ⟨nofun, rfl⟩
  | ok _ =>
    refine Ends.step (a := ()) (t := h) rfl ?_
    have undefined := k.undefined hc
    have emptied : (h.setCell i { c.clearValue with payload := emptied c.payload }).IsTable i
        t.emptied := by
      refine ⟨{ c.clearValue with payload := emptied c.payload }, ?_, ?_⟩
      · rw [cell?_setCell, isAlive, hc, if_pos ⟨rfl, rfl⟩]
      · show Heap.emptied c.payload = _
        rw [hash]
        rfl
    have first := undefined.isTable_letGo (List.mem_append_right _ hi) emptied
    have released := undefined.letGo
    rw [← release_target] at first released
    have turned := released.turn (turns_releaseKeys released.sound.ring c.payload)
    exact ⟨rfl, turned.letGo, turned.isTable_letGo hi (first.of_cells rfl)⟩

/-- What is no concern of the cells. -/
theorem keeps_beside_table {f : Heap → Heap} (cells : ∀ h, (f h).cells = h.cells)
    (ring : ∀ h, (f h).ring = h.ring) (fired : ∀ h, (f h).fired.size = h.fired.size)
    (departed : ∀ h, (f h).departed = h.departed) :
    Keeps (fun g => Kept h₀ out g ∧ g.IsTable i t) (modify f : OnHeap Unit) :=
  Keeps.modify fun h k => ⟨k.1.beside (cells h) (ring h) (fired h) (departed h),
    k.2.of_cells (cells h)⟩

theorem keeps_assign_table {need : Room} (full : Shape.hash.growFor need = none)
    (gains : Option CellId) (fill : Cell → Cell) :
    Keeps (fun g => Kept h₀ out g ∧ g.IsTable i t) (assign i need gains fill) :=
  Keeps.of_ends fun _ k => (k.1.ends_assign k.2 full gains fill).imp (fun _ _ q => q)
    fun _ e => e ▸ k

theorem keeps_readText_table (sink : Sink) :
    Keeps (fun g => Kept h₀ out g ∧ g.IsTable i t) (readText i sink) :=
  Keeps.of_ends fun _ k => (k.1.ends_readText k.2 sink).imp (fun _ _ q => q) fun _ e => e ▸ k

theorem keeps_undefine_table (hi : i ∈ out) (empty : e.emptied = e) :
    Keeps (fun g => Kept h₀ out g ∧ g.IsTable i e) (undefine i) :=
  Keeps.of_ends fun _ k => (k.1.ends_undefine hi k.2).imp (fun _ _ q => ⟨q.2.1, empty ▸ q.2.2⟩)
    fun _ q => q.2 ▸ k

theorem keeps_attach_table (hi : i ∈ out) (kind : HookKind) (hook : Hook) :
    Keeps (fun g => Kept h₀ out g ∧ g.IsTable i t) (attach i kind hook) := by
  refine Keeps.of_ends fun h k => ((keeps_attach hi kind hook).ends k.1).and ?_
  refine Ends.read (Ends.outcome (fun d made => ?_) k.2)
  obtain ⟨s, -, rfl⟩ := Cell.makeRoom_ok made
  obtain ⟨c, hc, hash⟩ := k.2
  have hc' : { h with fired := h.fired.push 0 }.cell? i = some c := hc
  have table : { h with fired := h.fired.push 0 }.IsTable i t := ⟨c, hc', hash⟩
  rw [cell_eq hc]
  exact table.setCell hc' rfl

theorem keeps_detach_table (hi : i ∈ out) (kind : HookKind) :
    Keeps (fun g => Kept h₀ out g ∧ g.IsTable i t) (detach i kind) := by
  refine Keeps.of_ends fun h k => ((keeps_detach hi kind).ends k.1).and ?_
  obtain ⟨c, hc, hash⟩ := k.2
  have hc' (gone : List Attachment) : (h.takeLeave gone).cell? i = some c := hc
  have table (gone : List Attachment) : (h.takeLeave gone).IsTable i t := ⟨c, hc' gone, hash⟩
  refine Ends.read ?_
  rw [cell_eq hc]
  exact (table _).setCell (hc' _) rfl

theorem hooked_table (hi : i ∈ out) (empty : e.emptied = e) :
    Hooked (fun g => Kept h₀ out g ∧ g.IsTable i e) i fun _ => True where
  assignInt _ := keeps_assign_table rfl none _
  assignText _ := keeps_assign_table rfl none _
  undefine := keeps_undefine_table hi empty
  readText := keeps_readText_table .silent
  attach := keeps_attach_table hi
  detach := keeps_detach_table hi
  log _ := keeps_beside_table (fun _ => rfl) (fun _ => rfl) (fun _ => rfl) fun _ => rfl
  noteFired _ _ :=
    keeps_beside_table (fun _ => rfl) (fun _ => rfl) (fun _ => Array.size_modify ..) fun _ => rfl
  setTaint _ _ _ k := ⟨k.1.beside rfl rfl rfl rfl, k.2.of_cells rfl⟩
  tainted _ on k := ⟨k.1.setTainted i on, k.2.updateCell i fun _ => rfl⟩
  inHooks h on k := ⟨(hooked_kept hi).inHooks h on k.1, k.2.updateCell i fun _ => rfl⟩

/-- **Hooks** leave an empty table as it is. -/
theorem keeps_runHooks_table (hi : i ∈ out) (empty : e.emptied = e) (phase : Phase) :
    Keeps (fun g => Kept h₀ out g ∧ g.IsTable i e) (runHooks phase i) :=
  Keeps.of_ends fun _ k => (hooked_table hi empty).runHooks
    (fun _ _ _ _ k => ⟨k.1.beside rfl rfl rfl rfl, k.2.of_cells rfl⟩) k fun _ _ => trivial

/-- **Making a hash undefined.**  Unless it is refused, the table that is left is empty and has
nothing but the seed and the pool of the one there was, whatever the hooks do. -/
theorem Kept.ends_setUndef (k : Kept h₀ out h) (hi : i ∈ out) (table : h.IsTable i t) :
    Ends (setUndef i) h
      (fun _ g => (h.cell i).checkWritable = .ok () ∧ g.IsTable i t.emptied)
      fun g => (h.cell i).checkWritable = .ok () ∧ g.IsTable i t.emptied ∨
        (h.cell i).checkWritable ≠ .ok () ∧ g = h := by
  refine ((k.ends_undefine hi table).imp (fun _ _ q => q) fun _ => .inr).bind fun _ g q => ?_
  obtain ⟨writable, kept, empty⟩ := q
  exact ((keeps_runHooks_table hi rfl .set).ends ⟨kept, empty⟩).imp
    (fun _ _ q => ⟨writable, q.2⟩) fun _ q => .inl ⟨writable, q.2⟩

end

end ScriptCore.Heap
