import ScriptCore.Heap.Reference
import ScriptCore.Proofs.Heap.Books
import ScriptCore.Proofs.Heap.Firing

/-!
# Heap — values come and go

Operations on the value of a cell keep the books.  A write takes hold of what it brings before it
lets go of what was there (`Kept.assign`), a conversion leaves alone what the cell holds
(`Kept.keep`), and hooks do nothing to their cell that a host could not do.
-/

namespace ScriptCore.Heap

/-- What a referent that is held adds to what a cell owns. -/
def kept : Option Target → List CellId
  | some (.strong i) => [i]
  | _ => []

/-- A way to fill a cell that was cleared, after it has got room: valid, and with a hold on what
is gained alone. -/
def Fills (need : Room) (gains : Option CellId) (fill : Cell → Cell) (c : Cell) : Prop :=
  ∀ t, c.shape.Grows need t → c.Becomes (fill { c with shape := t }.clearValue) ∧
    kept (fill { c with shape := t }.clearValue).target = gains.toList ∧
      (fill { c with shape := t }.clearValue).payload = c.payload

section
variable {h₀ h : Heap} {i j source target : CellId} {c d : Cell} {out is : List CellId}
  {need : Room} {gains : Option CellId} {fill : Cell → Cell} {sink : Sink}

theorem owned_eq (c : Cell) : c.owned = kept c.target ++ c.payload.cells := by
  unfold Cell.owned kept
  rcases c.target with - | - | - <;> rfl

theorem setCell_gone (hc : h.cell? i = none) (d : Cell) : h.setCell i d = h := by
  unfold setCell
  rw [isAlive, hc, Option.isSome_none, if_neg Bool.false_ne_true]

theorem letGo_nil (h : Heap) : h.letGo [] = h := by rw [Heap.letGo]

/-- The old referent is let go. -/
theorem release_target (h : Heap) (c : Cell) :
    (match c.target with
      | some (.strong old) => h.release old
      | _ => h) = h.letGo (kept c.target) := by
  rcases c.target with - | old | old
  · exact h.letGo_nil.symm
  · rfl
  · exact h.letGo_nil.symm

theorem Kept.valid (k : Kept h₀ out h) (hc : h.cell? i = some c) : c.Valid :=
  (k.sound.fit i c hc).valid

theorem Kept.alive (k : Kept h₀ out h) (hi : i ∈ out) : ∃ c, h.cell? i = some c :=
  k.sound.owned.alive hi

/-! ### Writes -/

/-- **A write** takes hold of what it brings and lets go of what was there. -/
theorem Kept.assign (k : Kept h₀ out h) (hc : h.cell? i = some c)
    (alive : ∀ j ∈ gains.toList, ∃ d, h.cell? j = some d) (fills : Fills need gains fill c) :
    Ends (assign i need gains fill) h (fun _ => Kept h₀ out) (Kept h₀ out) := by
  unfold Heap.assign
  refine Ends.read ?_
  rw [cell_eq hc]
  refine Ends.outcome (fun _ _ => Ends.outcome (fun roomy hroomy => ?_) k) k
  obtain ⟨t, grows, rfl⟩ := Cell.makeRoom_ok hroomy
  obtain ⟨becomes, held, payload⟩ := fills t grows
  show Kept h₀ out (match c.target with
    | some (.strong old) => _
    | _ => _)
  rw [release_target]
  refine Kept.letGo (Kept.exchange [] _ _ k hc becomes ?_ alive fun j => ?_)
  · rw [payload]
    exact (k.sound.fit i c hc).tidy
  · rw [owned_eq, owned_eq, held, payload]
    simp only [List.count_append, List.count_nil]
    omega

theorem keeps_assign (hi : i ∈ out) (fills : ∀ c, c.Valid → Fills need none fill c) :
    Keeps (Kept h₀ out) (assign i need none fill) := by
  intro h k
  obtain ⟨c, hc⟩ := k.alive hi
  exact k.assign hc nofun (fills c (k.valid hc))

theorem keeps_assignInt (hi : i ∈ out) (v : Int64) : Keeps (Kept h₀ out) (assignInt i v) := by
  refine keeps_assign hi fun c valid t grows => ⟨?_, rfl, rfl⟩
  exact valid.refill grows ⟨fun _ => rfl, nofun, rfl, ⟨nofun, nofun⟩, nofun, nofun⟩ rfl rfl

theorem keeps_assignFloat (hi : i ∈ out) (v : Binary64) :
    Keeps (Kept h₀ out) (assignFloat i v) := by
  refine keeps_assign hi fun c valid t grows => ⟨?_, rfl, rfl⟩
  exact valid.refill grows ⟨nofun, fun _ => rfl, rfl, ⟨nofun, nofun⟩, nofun, nofun⟩ rfl rfl

theorem keeps_assignBytes (hi : i ∈ out) (b : Bytes) : Keeps (Kept h₀ out) (assignBytes i b) := by
  refine keeps_assign hi fun c valid t grows => ⟨?_, rfl, rfl⟩
  exact valid.refill grows ⟨nofun, nofun, rfl, ⟨nofun, nofun⟩, nofun, nofun⟩ rfl rfl

theorem keeps_assignText (hi : i ∈ out) (s : String) :
    Keeps (Kept h₀ out) (assignText i s) := by
  refine keeps_assign hi fun c valid t grows => ⟨?_, rfl, rfl⟩
  exact valid.refill grows ⟨nofun, nofun, rfl, ⟨nofun, nofun⟩, nofun,
    fun _ => ⟨rfl, s, rfl⟩⟩ rfl rfl

theorem keeps_assignRef (hi : i ∈ out) (target_alive : target ∈ out) :
    Keeps (Kept h₀ out) (assignRef i target) := by
  intro h k
  obtain ⟨c, hc⟩ := k.alive hi
  refine k.assign hc (fun j hj => ?_) fun t grows => ⟨?_, rfl, rfl⟩
  · rw [List.mem_singleton.mp hj]
    exact k.alive target_alive
  · exact (k.valid hc).refill grows
      ⟨nofun, nofun, rfl, ⟨nofun, nofun⟩, fun _ => ⟨rfl, rfl, rfl⟩, nofun⟩ rfl rfl

/-- What is left of a payload holds nothing. -/
theorem cells_emptied (p : Payload) : (emptied p).cells = [] := by
  cases p <;> rfl

/-- A cell that is undefined leaves its referent, and all that an aggregate held, to the outside. -/
theorem Kept.undefined (k : Kept h₀ out h) (hc : h.cell? i = some c) :
    Kept h₀ (kept c.target ++ (c.payload.cells ++ out))
      (h.setCell i { c.clearValue with payload := emptied c.payload }) := by
  have fit := k.sound.fit i c hc
  have becomes := fit.valid.clear (emptied c.payload) (by cases c.payload <;> rfl)
  have tidy : ∀ t, emptied c.payload = .hash t → t.Tidy h.ring := by
    intro t ht
    cases hp : c.payload with
    | hash u =>
      rw [hp] at ht
      cases ht
      exact (fit.tidy u hp).emptied
    | _ =>
      rw [hp] at ht
      cases ht
  rw [← List.append_assoc]
  refine Kept.exchange [] [] _ k hc becomes tidy nofun fun j => ?_
  rw [owned_eq c, owned_eq { c.clearValue with payload := emptied c.payload }]
  show (kept none ++ (emptied c.payload).cells).count j + _ = _
  rw [cells_emptied]
  simp [kept]

/-- **Undefining** lets go of the referent and of all that an aggregate held. -/
theorem keeps_undefine (hi : i ∈ out) : Keeps (Kept h₀ out) (undefine i) := by
  refine Keeps.read fun h k => ?_
  obtain ⟨c, hc⟩ := k.alive hi
  rw [cell_eq hc]
  refine Ends.outcome (fun _ _ => ?_) k
  have released := (k.undefined hc).letGo
  rw [← release_target] at released
  exact (released.turn (turns_releaseKeys released.sound.ring c.payload)).letGo

/-! ### Attachments -/

theorem keeps_attach (hi : i ∈ out) (kind : HookKind) (hook : Hook) :
    Keeps (Kept h₀ out) (attach i kind hook) := by
  refine Keeps.read fun h k => ?_
  obtain ⟨c, hc⟩ := k.alive hi
  rw [cell_eq hc]
  refine Ends.outcome (fun d hd => ?_) k
  obtain ⟨keeps, room, -⟩ := (k.valid hc).makeRoomForHooks hd
  exact k.attach hc keeps room rfl

theorem keeps_detach (hi : i ∈ out) (kind : HookKind) :
    Keeps (Kept h₀ out) (detach i kind) := by
  refine Keeps.read fun h k => ?_
  obtain ⟨c, hc⟩ := k.alive hi
  rw [cell_eq hc]
  refine k.detach hc ?_
  show c.hooks.Perm ((c.hooks.partition _).1 ++ (c.hooks.partition _).2)
  rw [List.partition_eq_filter_filter]
  exact (List.filter_append_perm ..).symm

/-! ### Reads -/

/-- What is no concern of the cells. -/
theorem keeps_beside {f : Heap → Heap} (cells : ∀ h, (f h).cells = h.cells)
    (ring : ∀ h, (f h).ring = h.ring) (fired : ∀ h, (f h).fired.size = h.fired.size)
    (departed : ∀ h, (f h).departed = h.departed) :
    Keeps (Kept h₀ out) (modify f : OnHeap Unit) :=
  Keeps.modify fun h k => k.beside (cells h) (ring h) (fired h) (departed h)

theorem keeps_log (event : String) : Keeps (Kept h₀ out) (log event) :=
  keeps_beside (fun _ => rfl) (fun _ => rfl) (fun _ => rfl) fun _ => rfl

theorem keeps_report (sink : Sink) (a : Advisory) : Keeps (Kept h₀ out) (report sink a) := by
  cases sink with
  | silent => exact Keeps.pure _
  | site n => exact keeps_beside (fun _ => rfl) (fun _ => rfl) (fun _ => rfl) fun _ => rfl

/-- What a read finds changes nothing. -/
theorem Kept.found {α : Type} {f : Cell.Source → OnHeap α} {Q : α → Heap → Prop}
    (k : Kept h₀ out h)
    (hf : Ends (f ((h.cell i).source h.isAlive)) h Q (Kept h₀ out)) :
    Ends (sourceOf i >>= f) h Q (Kept h₀ out) := by
  unfold sourceOf
  rw [bind_assoc]
  refine Ends.read ?_
  rw [bind_assoc]
  exact Ends.outcome (fun _ _ => hf) k

/-- **A conversion** leaves alone what the cell holds. -/
theorem Kept.keep (k : Kept h₀ out h) (hi : i ∈ out) {f : Cell → Except Fault Cell}
    (keeps : ∀ d, (h.cell i).Valid → f (h.cell i) = .ok d → (h.cell i).Keeps d) :
    Ends (keep i f) h (fun _ => Kept h₀ out) (Kept h₀ out) := by
  obtain ⟨c, hc⟩ := k.alive hi
  rw [cell_eq hc] at keeps
  refine Ends.read ?_
  rw [cell_eq hc]
  exact Ends.outcome (fun d hd => k.setCell hc (keeps d (k.valid hc) hd)) k

/-- A value that is no reference is converted. -/
theorem Kept.numify (k : Kept h₀ out h) (hi : i ∈ out)
    (plain : ((h.cell i).source h.isAlive).IsPlain) (b : Bytes) (sink : Sink) :
    Ends (numify i b sink) h (fun _ => Kept h₀ out) (Kept h₀ out) := by
  unfold Heap.numify
  rcases parseNumber b with ⟨n, numeric⟩
  refine (k.keep hi fun d valid => valid.keepNumber (valid.plain plain)).bind fun _ g k => ?_
  cases numeric with
  | true => exact k
  | false => exact ((keeps_report _ _).bind fun _ => Keeps.pure _).ends k

theorem keeps_readInt (hi : i ∈ out) (sink : Sink) : Keeps (Kept h₀ out) (readInt i sink) := by
  refine Keeps.of_ends fun h k => k.found ?_
  cases found : (h.cell i).source h.isAlive with
  | int v => exact k
  | float v =>
    cases whole : v.isInt64 with
    | false =>
      simp only [whole]
      exact k
    | true =>
      simp only [whole]
      refine (k.keep hi fun d valid made => ?_).bind fun _ _ k => k
      obtain ⟨e, keeps, room, flags, rfl⟩ := valid.makeRoomKeeping_bind _ made
      have plain : (h.cell i).flags.refOk ≠ true := valid.plain (by rw [found]; trivial)
      exact keeps.trans (keeps.valid.keepInt (flags ▸ plain) ((Room.within_iff.mp room).1 rfl) _ _)
  | ref j => exact k
  | text b => exact (k.numify hi (by rw [found]; trivial) b sink).bind fun _ _ k => k
  | nothing => exact ((keeps_report _ _).bind fun _ => Keeps.pure _).ends k

theorem keeps_readFloat (hi : i ∈ out) (sink : Sink) :
    Keeps (Kept h₀ out) (readFloat i sink) := by
  refine Keeps.of_ends fun h k => k.found ?_
  cases found : (h.cell i).source h.isAlive with
  | int v =>
    refine (k.keep hi fun d valid made => ?_).bind fun _ _ k => k
    obtain ⟨e, keeps, room, flags, rfl⟩ := valid.makeRoomKeeping_bind _ made
    have plain : (h.cell i).flags.refOk ≠ true := valid.plain (by rw [found]; trivial)
    exact keeps.trans
      (keeps.valid.keepFloat (flags ▸ plain) ((Room.within_iff.mp room).2.1 rfl) _ _)
  | float v => exact k
  | ref j => exact k
  | text b => exact (k.numify hi (by rw [found]; trivial) b sink).bind fun _ _ k => k
  | nothing => exact ((keeps_report _ _).bind fun _ => Keeps.pure _).ends k

/-- A text is kept beside a number. -/
theorem Kept.keepText (k : Kept h₀ out h) (hi : i ∈ out)
    (plain : ((h.cell i).source h.isAlive).IsPlain) (absent : (h.cell i).flags.textOk = false)
    (cs : List Char) : Ends (keepText i cs) h (fun _ => Kept h₀ out) (Kept h₀ out) := by
  refine (k.keep hi fun d valid made => ?_).bind fun _ _ k => k
  obtain ⟨e, keeps, room, flags, rfl⟩ := valid.makeRoomKeeping_bind _ made
  exact keeps.trans (keeps.valid.keepText (flags ▸ valid.plain plain)
    ((Room.within_iff.mp room).2.2.1 rfl) (by rw [flags]; exact absent) _)

theorem keeps_readBytes (hi : i ∈ out) (sink : Sink) :
    Keeps (Kept h₀ out) (readBytes i sink) := by
  refine Keeps.of_ends fun h k => k.found (Ends.read ?_)
  cases absent : (h.cell i).flags.textOk with
  | true =>
    rw [if_pos absent]
    exact k
  | false =>
    rw [if_neg (by simp [absent])]
    cases found : (h.cell i).source h.isAlive with
    | int v => exact k.keepText hi (by rw [found]; trivial) absent _
    | float v => exact k.keepText hi (by rw [found]; trivial) absent _
    | ref j => exact k
    | text b => exact k
    | nothing => exact ((keeps_report _ _).bind fun _ => Keeps.pure _).ends k

theorem keeps_readText (hi : i ∈ out) (sink : Sink) : Keeps (Kept h₀ out) (readText i sink) :=
  (keeps_readBytes hi sink).bind fun _ => Keeps.read fun _ k => k

/-! ### Marks -/

/-- Marks that do not belong to the value of a cell. -/
theorem Kept.mark (k : Kept h₀ out h) (i : CellId) (readOnly tainted inHooks : Cell → Bool) :
    Kept h₀ out (h.updateCell i fun c => { c with
      flags := { c.flags with
        readOnly := readOnly c, tainted := tainted c, inHooks := inHooks c } }) := by
  unfold updateCell
  cases hc : h.cell? i with
  | none => rwa [setCell_gone hc]
  | some c =>
    rw [cell_eq hc]
    exact k.setCell hc ((k.valid hc).marked _ _ _)

theorem Kept.setReadOnly (k : Kept h₀ out h) (i : CellId) (on : Bool) :
    Kept h₀ out (h.setReadOnly i on) :=
  k.mark i (fun _ => on) (·.flags.tainted) (·.flags.inHooks)

theorem Kept.setTainted (k : Kept h₀ out h) (i : CellId) (on : Bool) :
    Kept h₀ out (h.setTainted i on) :=
  k.mark i (·.flags.readOnly) (fun _ => on) (·.flags.inHooks)

/-! ### Hooks -/

theorem keeps_noteFired (a : Attachment) : Keeps (Kept h₀ out) (noteFired a) :=
  keeps_beside (fun _ => rfl) (fun _ => rfl) (fun _ => Array.size_modify ..) fun _ => rfl

theorem hooked_kept (hi : i ∈ out) : Hooked (Kept h₀ out) i fun _ => True where
  assignInt := keeps_assignInt hi
  assignText := keeps_assignText hi
  undefine := keeps_undefine hi
  readText := keeps_readText hi .silent
  attach := keeps_attach hi
  detach := keeps_detach hi
  log := keeps_log
  noteFired a _ := keeps_noteFired a
  setTaint _ _ _ k := k.beside rfl rfl rfl rfl
  tainted _ on k := k.setTainted i on
  inHooks _ on k := k.mark i (·.flags.readOnly) (·.flags.tainted) (fun _ => on)

/-- **Hooks** keep the books. -/
theorem keeps_runHooks (hi : i ∈ out) (phase : Phase) :
    Keeps (Kept h₀ out) (runHooks phase i) :=
  Keeps.of_ends fun _ k => (hooked_kept hi).runHooks (fun _ _ _ _ k => k.beside rfl rfl rfl rfl) k
    fun _ _ => trivial

/-! ### Reads and writes with hooks -/

/-- A read runs the hooks of its cell first. -/
theorem keeps_get {α : Type} {x : OnHeap α} (hi : i ∈ out) (hx : Keeps (Kept h₀ out) x) :
    Keeps (Kept h₀ out) (runHooks .get i >>= fun _ => x) :=
  (keeps_runHooks hi .get).bind fun _ => hx

/-- A write runs the hooks of its cell afterwards. -/
theorem keeps_set {x : OnHeap Unit} (hi : i ∈ out) (hx : Keeps (Kept h₀ out) x) :
    Keeps (Kept h₀ out) (x >>= fun _ => runHooks .set i) :=
  hx.bind fun _ => keeps_runHooks hi .set

theorem keeps_getTruth (hi : i ∈ out) : Keeps (Kept h₀ out) (getTruth i) :=
  keeps_get hi (Keeps.read fun _ k => k)

/-! ### Copies -/

/-- What a copy refers to is alive, if it is held. -/
theorem Kept.copiedTarget (k : Kept h₀ out h) (hc : h.cell? i = some c)
    (held : h.copiedTarget c = some (.strong j)) : ∃ d, h.cell? j = some d := by
  unfold Heap.copiedTarget at held
  split at held
  · obtain ⟨t, ht, held⟩ := Option.map_eq_some_iff.mp held
    split at held
    · rename_i alive
      cases held
      exact Option.isSome_iff_exists.mp alive
    · subst held
      refine k.sound.owned.alive_held hc ?_
      rw [owned_eq, ht]
      exact List.mem_cons_self
  · cases held

/-- The target of a copy tells the same as that of its source. -/
theorem isSome_copiedTarget (valid : c.Valid) : c.flags.refOk = (h.copiedTarget c).isSome := by
  unfold Heap.copiedTarget
  cases ref : c.flags.refOk with
  | false => rfl
  | true =>
    rw [if_pos rfl, Option.isSome_map]
    exact ref.symm.trans valid.value.ref

theorem weak_copiedTarget (valid : c.Valid) (weak : h.copiedTarget c = some (.weak j)) :
    c.flags.weak = true := by
  unfold Heap.copiedTarget at weak
  split at weak
  · obtain ⟨t, ht, weak⟩ := Option.map_eq_some_iff.mp weak
    split at weak
    · cases weak
    · subst weak
      exact valid.value.weak.mpr ⟨j, ht⟩
  · cases weak

/-- The value of a valid cell fills another one that has room for it. -/
theorem fills_copy (valid : c.Valid) (valid' : d.Valid) {target : Option Target} {weak : Bool}
    (ref : c.flags.refOk = target.isSome) (weak_iff : weak = true ↔ ∃ j, target = some (.weak j))
    (held : kept target = gains.toList) :
    Fills c.shape.room.values gains (fun d => { d with
      int := c.int, num := c.num, text := c.text, target
      flags := d.flags.union { c.flags.copied with weak } }) d := by
  intro t grows
  have room := Room.within_iff.mp valid.room
  have flags : ({ d with shape := t }.clearValue).flags.union { c.flags.copied with weak } =
      { c.flags with
        weak, readOnly := d.flags.readOnly, tainted := d.flags.tainted || c.flags.tainted
        object := d.flags.object, inHooks := d.flags.inHooks } := by
    simp [Cell.clearValue, Flags.withoutValue, Flags.union, Flags.copied]
  refine ⟨?_, held, rfl⟩
  dsimp only
  rw [flags]
  refine valid'.refill grows ?_ ?_ rfl
  · exact ⟨valid.value.int, valid.value.num, ref, weak_iff, valid.value.alone, valid.value.utf8⟩
  · exact Room.within_iff.mpr ⟨room.1, room.2.1, room.2.2.1, room.2.2.2.1, nofun⟩

/-- **A copy** owns its referent, if that is alive. -/
theorem keeps_copyFrom (hi : i ∈ out) (hsource : source ∈ out) :
    Keeps (Kept h₀ out) (copyFrom i source) := by
  unfold copyFrom
  split
  · exact Keeps.pure _
  refine Keeps.bind (keeps_runHooks hsource .get) fun _ => Keeps.read fun h k => ?_
  obtain ⟨c, hc⟩ := k.alive hsource
  obtain ⟨d, hd⟩ := k.alive hi
  have valid := k.valid hc
  have valid' := k.valid hd
  have ref := isSome_copiedTarget (h := h) valid
  rw [cell_eq hc]
  refine Ends.outcome (fun _ _ => ?_) k
  cases target : h.copiedTarget c with
  | none =>
    rw [target] at ref
    refine (k.assign hd (by simp) (fills_copy valid valid' ref ?_ rfl)).bind
      fun _ _ k => (keeps_runHooks hi .set).ends k
    -- what is not copied was no reference
    have none : c.target = none := by
      rw [valid.value.ref] at ref
      exact Option.isSome_eq_false_iff.mp ref |> Option.isNone_iff_eq_none.mp
    rw [valid.value.weak, none]
  | some t =>
    rw [target] at ref
    cases t with
    | strong j =>
      refine (k.assign hd (fun _ hj => ?_) (fills_copy valid valid' ref ?_ rfl)).bind
        fun _ _ k => (keeps_runHooks hi .set).ends k
      · rw [List.mem_singleton.mp hj]
        exact k.copiedTarget hc target
      · exact ⟨nofun, nofun⟩
    | weak j =>
      refine (k.assign hd (by simp) (fills_copy valid valid' ref ?_ rfl)).bind
        fun _ _ k => (keeps_runHooks hi .set).ends k
      exact ⟨fun _ => ⟨j, rfl⟩, fun _ => weak_copiedTarget valid target⟩

/-! ### References -/

/-- **Weakening** gives up the hold of a reference. -/
theorem keeps_weaken (hi : i ∈ out) : Keeps (Kept h₀ out) (weaken i) := by
  refine Keeps.read fun h k => ?_
  obtain ⟨c, hc⟩ := k.alive hi
  rw [cell_eq hc]
  dsimp only
  split
  · exact k
  split
  · exact k
  split
  · rename_i j target
    refine Kept.letGo (Kept.exchange [] [] [j] k hc ((k.valid hc).weaken target)
      (k.sound.fit i c hc).tidy nofun fun x => ?_)
    rw [owned_eq c, target, owned_eq]
    simp only [kept, List.count_append, List.count_nil]
    omega
  · exact k

/-- **Blessing** a live referent. -/
theorem keeps_bless (i : CellId) (package : Key) : Keeps (Kept h₀ out) (bless i package) := by
  refine Keeps.read fun h k => ?_
  cases referent : h.referent? i with
  | none => exact k
  | some j =>
    dsimp only
    split
    · exact k
    refine Ends.outcome (fun d made => ?_) k
    cases hc : h.cell? j with
    | none =>
      show Kept h₀ out (h.setCell j _)
      rwa [setCell_gone hc]
    | some c =>
      rw [cell_eq hc] at made
      obtain ⟨keeps, room, -⟩ := (k.valid hc).makeRoomForHooks made
      exact k.setCell hc (keeps.trans (keeps.valid.bless room package))

/-- An empty cell becomes an aggregate. -/
theorem keeps_upgrade (hi : i ∈ out) {shape : Shape} (aggregate : shape.isAggregate = true) :
    Keeps (Kept h₀ out) (upgrade i shape) := by
  refine Keeps.read fun h k => ?_
  obtain ⟨c, hc⟩ := k.alive hi
  rw [cell_eq hc]
  have valid := k.valid hc
  dsimp only
  split
  · rename_i climbs
    by_cases same : c.shape = shape
    · -- nothing changes
      rw [if_neg fun new => new.2 same, ← same]
      exact k.setCell hc (valid.keeps rfl rfl rfl rfl rfl)
    · rw [if_pos ⟨aggregate, same⟩]
      have undef : c.shape = .undef := by
        rcases Shape.climbsTo_iff.mp climbs with same' | ⟨-, undef⟩ | ⟨scalar, -⟩
        · exact absurd same' same
        · exact undef
        · rw [aggregate] at scalar
          cases scalar
      have becomes := valid.aggregated undef aggregate (.fresh shape) (by
        cases shape <;> first | rfl | cases aggregate)
      have empty : c.payload.cells = [] := by
        have none := valid.payload
        rw [undef] at none
        cases hp : c.payload with
        | none => rfl
        | _ =>
          rw [hp] at none
          cases none
      refine Kept.exchange [] [] [] k hc becomes ?_ nofun ?_
      · intro t ht
        cases shape with
        | hash =>
          cases ht
          exact Table.tidy_empty k.sound.ring nofun
        | _ => cases ht
      · intro j
        rw [owned_eq c, owned_eq, empty]
        cases shape <;> rfl
  · split <;> exact k

end

end ScriptCore.Heap
