import ScriptCore.Package.Dispatch
import ScriptCore.Proofs.Key.Spelling
import ScriptCore.Proofs.Package.Stashes

/-!
# Package — what operations do to parent lists
-/

namespace ScriptCore.Registry
open Beside

variable {home home' : CellId → Bytes × Bool} {x : Bytes × Bool} {list : List String}
  {lists : Bytes × Bool → List String} {h h' : Heap} {t u : Table CellId}
  {m n stashes : Table.Contents CellId} {i isa : CellId} {seed : Seed} {r r' : Registry}

/-! ### Reading -/

theorem IsStash.fetch (s : IsStash home x list h t m) (holds : h.Holds i (.ofTable t))
    (k : Spelling) : Heap.fetch i k h = .ok (m.lookup k.letters) h := by
  rw [Heap.fetch_eq holds, s.shows.fetch? s.housed.sound.toLinked]

theorem Shelved.stash?_eq (s : Shelved lists seed r h) (shows : r.stashes.Shows stashes)
    (name : Spelling) : r.stash? name = stashes.lookup name.letters :=
  shows.fetch? s.housed.sound.toLinked name

/-- **Reading parents.**  They are the packages that the list of the package names. -/
theorem Shelved.parents (s : Shelved lists seed r h) (package : Key) :
    r.parents package h = .ok (graph lists seed package) h := by
  obtain ⟨home, stashes, shows, shelf⟩ := s.shelf
  have stash := s.stash?_eq shows (.ofKey package)
  unfold Registry.parents
  cases found : stashes.lookup (Spelling.ofKey package).letters with
  | none =>
    -- a package that is not defined has no parents
    have array : r.parentArray? package h = .ok none h := by
      unfold parentArray?
      rw [stash, found]
      rfl
    unfold graph
    rw [bind_ok array, shelf.absent package.letters found]
    rfl
  | some i =>
    obtain ⟨-, t, m, holds, is⟩ := shelf.stash _ i found
    have fetched := is.fetch holds (.ofText parentEntry)
    have array : r.parentArray? package h = .ok ((m.lookup parentLetters).filter fun i =>
        (h.cell i).shape = .array) h := by
      unfold parentArray?
      rw [stash, found]
      exact bind_ok fetched
    rw [bind_ok array]
    unfold graph
    rcases is.parents with ⟨none, empty⟩ | ⟨isa, items, some, -, array, texts⟩
    · rw [none, show lists package.letters = [] from empty]
      rfl
    · have shape : (h.cell isa).shape = .array := by
        obtain ⟨n, hn⟩ := array
        rw [Heap.cell_eq hn]
        rfl
      rw [some, Option.filter_some, shape]
      refine (bind_ok (Heap.items_eq array)).trans ?_
      rw [s.seed]
      exact Heap.mapM_getBytes (fun b => Key.probe (.ofBytes b) seed)
        (texts.imp fun _ _ => And.right)

/-- The key of a package is hashed by the seed and spells its name. -/
theorem Shelved.keyOf (s : Shelved lists seed r h) (name : String) :
    (r.keyOf name).hash = seed.hash (r.keyOf name).bytes ∧
      (r.keyOf name).letters = (Spelling.ofText name).letters := by
  unfold Registry.keyOf key? Table.storedKey?
  rcases s.housed.sound.locate_cases (.ofText name) with ⟨none, -⟩ | ⟨i, o, found, hi, c⟩
  · rw [none]
    exact ⟨congrArg (Seed.hash · _) s.seed, rfl⟩
  · obtain ⟨e, he, letters, -⟩ := Table.contentAt_eq_some_iff.mp c
    rw [found, Option.bind_some, he]
    exact ⟨(s.housed.sound.hashed i e he).trans (congrArg (Seed.hash · _) s.seed), letters⟩

/-! ### Writing -/

theorem define_defined {name : String} (hi : r.stash? (.ofText name) = some i) :
    Registry.define name ⟨h, r⟩ = .ok i ⟨h, r⟩ := by
  unfold Registry.define
  rw [self_bind, hi]
  rfl

/-- A package that is new gets an empty stash. -/
theorem define_new {name : String} (new : r.stash? (.ofText name) = none) {old : Option CellId}
    {stashes : Table CellId} {ring : Keyring}
    (stored : r.stashes.store h.ring (.ofText name) h.cells.size = .ok (old, stashes, ring)) :
    Registry.define name ⟨h, r⟩ = .ok h.cells.size
      ⟨({ h with ring }.allocate (.ofTable (.inPool ring r.pool))).2, { r with stashes }⟩ := by
  unfold Registry.define
  rw [self_bind, new]
  refine (bind_ok (x := onHeap) (s := ⟨h, r⟩) rfl).trans ?_
  rw [stored]
  rfl

/-- **Defining.**  The package has a stash, and all parent lists stay. -/
theorem Shelved.define (s : Shelved lists seed r h) (name : String) :
    Ends (Registry.define name) ⟨h, r⟩ (fun i t => Shelved lists seed t.own t.heap ∧
      Remembers r t.own ∧ t.own.stash? (.ofText name) = some i ∧
        ∀ j, h.IsCode j → t.heap.IsCode j) fun _ => False := by
  obtain ⟨home, stashes, shows, shelf⟩ := s.shelf
  have stash := s.stash?_eq shows (.ofText name)
  cases found : r.stash? (.ofText name) with
  | some i => exact Ends.of_ok (define_defined found) ⟨s, ⟨rfl, rfl⟩, found, fun _ => id⟩
  | none =>
    rw [found] at stash
    obtain ⟨u, ring, stored, housed, shown, fixed, turns⟩ :=
      s.housed.store_free shows s.unrestricted (.ofText name) h.cells.size
    obtain ⟨settled, seeded⟩ := fixed.seed s.settled
    -- the new stash comes on the heap with the keyring of the table of stashes
    have steady : h.Steady ({ h with ring }.allocate (.ofTable (.inPool ring r.pool))).2
        fun _ => False := (Heap.steady_ring h fun _ => turns).trans (Heap.steady_allocate _ rfl)
    have new : IsStash (Function.update home h.cells.size (Spelling.ofText name).letters)
        (Spelling.ofText name).letters (lists (Spelling.ofText name).letters)
        ({ h with ring }.allocate (.ofTable (.inPool ring r.pool))).2 (.inPool ring r.pool) ∅ := by
      rw [shelf.absent _ stash.symm]
      exact isStash_new _ _ housed.ring r.pool
    have placed := shelf.update steady (fun _ => False.elim) (fun j hj =>
      Function.update_of_ne (Nat.ne_of_lt hj) ..) (fun y hy => Finmap.lookup_insert_of_ne _ hy)
      (Finmap.lookup_insert _) (Function.update_self ..) (Heap.holds_allocate _ _) new
    rw [Function.update_eq_self] at placed
    refine Ends.of_ok (define_new found stored) ⟨?_, ⟨rfl, rfl⟩, ?_, steady.code⟩
    · exact ⟨housed, fixed.restricted.trans s.unrestricted, settled, seeded.trans s.seed,
        steady.bare s.bare, fun k i hi => steady.code i (s.codes k i hi), _, _, shown, placed⟩
    · exact (shown.fetch? housed.sound.toLinked _).trans (Finmap.lookup_insert _)

/-- Another table in a stash, with the parent list it had. -/
theorem Shelf.withTable (s : Shelf home stashes lists h) (hx : stashes.lookup x = some i)
    (holds : h.Holds i (.ofTable t)) (is : IsStash home x (lists x) h t m) {ring : Keyring}
    (housed : u.Housed ring) (shown : u.Shows n) (fixed : t.Fixed u) (turns : h.ring.Turns ring)
    (methods : ∀ y j, n.lookup y = some j → y ≠ parentLetters → h.IsCode j)
    (same : n.lookup parentLetters = m.lookup parentLetters) :
    Shelf home stashes lists (h.withTable i u ring) := by
  have steady : h.Steady (h.withTable i u ring) (· = i) :=
    Heap.steady_withTable holds fun _ => turns
  have hi : home i = x := (s.stash x i hx).1
  exact s.restash steady (fun j hj => .inl (hj ▸ hi)) (fun _ _ => rfl) hx hi
    (Heap.holds_withTable holds ring)
    { housed := by rwa [Heap.ring_withTable]
      shows := shown
      unrestricted := fixed.restricted.trans is.unrestricted
      methods := fun y j hj hy => steady.code j (methods y j hj hy)
      parents := by
        rw [same]
        refine is.parents.imp_right fun ⟨isa, items, hisa, there⟩ => ⟨isa, items, hisa, ?_⟩
        obtain ⟨home, array, texts⟩ := there
        have apart {j : CellId} {c : Cell} (hc : h.Holds j c) (hp : c.payload ≠ .hash t) :
            j ≠ i := hc.ne holds hp
        exact ⟨home, steady.held _ _ (apart array nofun) array, texts.imp fun j s hj =>
          ⟨hj.1, steady.held _ _ (apart hj.2 nofun) hj.2⟩⟩ }

/-- A new empty array that is stored and let go has the table as its one owner. -/
theorem steady_handOver {g : Heap} (hc : g.cell? isa = some (.ofItems [])) :
    g.Steady ((g.retain isa).release isa) fun _ => False := by
  have twice : (g.retainAll [isa]).cell? isa = some { Cell.ofItems [] with owners := 2 } := by
    rw [Heap.cell?_retainAll, hc, List.count_singleton_self]
    rfl
  refine (Heap.steady_retainAll g [isa]).trans (Heap.steady_letGo_owned fun j hj => ?_)
  rw [List.mem_singleton] at hj
  subst hj
  refine ⟨_, twice, ⟨rfl, fun _ => Payload.noConfusion⟩, ?_⟩
  rw [List.count_singleton_self]
  exact Nat.one_lt_two

/-- The array of parents that a package has. -/
theorem IsStash.parentArray_there (s : IsStash home x list h t m)
    (holds : h.Holds i (.ofTable t)) (bound : m.lookup parentLetters = some isa) :
    parentArray i h = .ok isa h := by
  obtain ⟨items, -, array, -⟩ := s.hasList bound
  have shape : (h.cell isa).shape = .array := by
    obtain ⟨n, hn⟩ := array
    rw [Heap.cell_eq hn]
    rfl
  have fetched : Heap.fetch i (.ofText parentEntry) h = .ok (some isa) h := by
    rw [s.fetch holds]
    exact congrArg (EStateM.Result.ok · h) bound
  refine (bind_ok fetched).trans ((Heap.bind_get _ h).trans ?_)
  rw [if_pos shape]
  rfl

/-- The array of parents that is made where there is none. -/
theorem IsStash.parentArray_new (s : IsStash home x list h t m) (holds : h.Holds i (.ofTable t))
    (unbound : m.lookup parentLetters = none)
    (holds' : (h.allocate (.ofItems [])).2.Holds i (.ofTable t)) {old : Option CellId}
    {ring : Keyring} (e : t.store (h.allocate (.ofItems [])).2.ring (.ofText parentEntry)
      h.cells.size = .ok (old, u, ring)) :
    parentArray i h = .ok h.cells.size
      ((((h.allocate (.ofItems [])).2.withTable i u ring).retain h.cells.size).release
        h.cells.size) := by
  have fetched : Heap.fetch i (.ofText parentEntry) h = .ok none h := by
    rw [s.fetch holds]
    exact congrArg (EStateM.Result.ok · h) unbound
  have added : Heap.newArray [] h = .ok h.cells.size (h.allocate (.ofItems [])).2 := rfl
  have stored : attempt (Heap.store i (.ofText parentEntry) h.cells.size)
      (h.allocate (.ofItems [])).2 = .ok (.ok old)
        (((h.allocate (.ofItems [])).2.withTable i u ring).retain h.cells.size) := by
    unfold attempt
    rw [Heap.store_eq holds' e]
  exact (bind_ok fetched).trans ((bind_ok added).trans ((bind_ok stored).trans rfl))

/-- A package without an array of parents gets one, for its empty list. -/
theorem Shelf.newParentArray (s : Shelf home stashes lists h) (hx : stashes.lookup x = some i)
    (holds : h.Holds i (.ofTable t)) (is : IsStash home x (lists x) h t m)
    (unbound : m.lookup parentLetters = none) (empty : lists x = []) :
    ∃ h' home' u, parentArray i h = .ok h.cells.size h' ∧ h.Steady h' (· = i) ∧
      Shelf home' stashes lists h' ∧ h'.Holds i (.ofTable u) ∧
      IsStash home' x (lists x) h' u (m.insert parentLetters h.cells.size) := by
  -- the heap with the new array, and the table that has it
  have made := Heap.steady_allocate h (c := .ofItems []) rfl
  generalize hg : (h.allocate (.ofItems [])).2 = g at made
  have holds' : g.Holds i (.ofTable t) := made.held i _ id holds
  have housed' : t.Housed g.ring :=
    is.housed.of_sound is.housed.sound (made.turns is.housed.ring) rfl rfl
  obtain ⟨u, ring, e, housed, shown, fixed, turns⟩ :=
    housed'.store_free is.shows is.unrestricted (.ofText parentEntry) h.cells.size
  have put : g.Steady (g.withTable i u ring) (· = i) := Heap.steady_withTable holds' fun _ => turns
  -- the array is a cell that was not there, and the table is
  have apart : h.cells.size ≠ i := Nat.ne_of_gt holds.lt_size
  have array : (g.withTable i u ring).cell? h.cells.size = some (.ofItems []) := by
    rw [Heap.cell?_withTable _ _ _ _ apart, ← hg, Heap.cell?_allocate, if_pos rfl]
    rfl
  have there : HasList (Function.update home h.cells.size x) x (lists x)
      (g.withTable i u ring) h.cells.size [] :=
    ⟨Function.update_self .., ⟨1, array⟩, by rw [empty]; exact .nil⟩
  have new : IsStash (Function.update home h.cells.size x) x (lists x)
      (g.withTable i u ring) u (m.insert parentLetters h.cells.size) :=
    { housed := by rwa [Heap.ring_withTable]
      shows := shown
      unrestricted := fixed.restricted.trans is.unrestricted
      methods := fun y j hj hy => by
        rw [Finmap.lookup_insert_of_ne _ hy] at hj
        exact put.code j (made.code j (is.methods y j hj hy))
      parents := .inr ⟨_, _, Finmap.lookup_insert _, there⟩ }
  have steady := (made.mono fun _ => False.elim).trans put
  have hi : home i = x := (s.stash x i hx).1
  have shelf := s.restash steady (fun j hj => .inl (hj ▸ hi))
    (fun j hj => Function.update_of_ne (Nat.ne_of_lt hj) ..) hx
    ((Function.update_of_ne apart.symm ..).trans hi) (Heap.holds_withTable holds' ring) new
  have handed := steady_handOver array
  refine ⟨_, Function.update home h.cells.size x, u, ?_, steady.trans (handed.mono fun _ =>
    False.elim), shelf.steady handed (fun _ => False.elim) fun _ _ => rfl,
    handed.held _ _ id (Heap.holds_withTable holds' ring),
    new.steady handed (fun _ => False.elim) fun _ _ => id⟩
  subst hg
  exact is.parentArray_new holds unbound holds' e

/-- **The array of parents** is there, or is made now for an empty list. -/
theorem Shelf.parentArray (s : Shelf home stashes lists h) (hx : stashes.lookup x = some i) :
    ∃ isa h' home' t m, parentArray i h = .ok isa h' ∧ h.Steady h' (· = i) ∧
      Shelf home' stashes lists h' ∧ h'.Holds i (.ofTable t) ∧
      IsStash home' x (lists x) h' t m ∧ m.lookup parentLetters = some isa := by
  obtain ⟨-, t, m, holds, is⟩ := s.stash x i hx
  rcases is.parents with ⟨unbound, empty⟩ | ⟨isa, items, bound, there⟩
  · obtain ⟨h', home', u, made, steady, shelf, holds', is'⟩ :=
      s.newParentArray hx holds is unbound empty
    exact ⟨_, h', home', u, _, made, steady, shelf, holds', is', Finmap.lookup_insert _⟩
  · exact ⟨isa, h, home, t, m, is.parentArray_there holds bound, .refl h, s, holds, is, bound⟩

/-- **Another list** in the place of the one there was, on cells that are new. -/
theorem HasList.replace (s : HasList home x list h isa items) (bare : h.IsBare)
    (list' : List String) :
    ∃ names g g' home', (list'.mapM fun s => Heap.new (.ofText s)) h = .ok names g ∧
      Heap.assignItems isa names g = .ok () g' ∧
      h.Steady (g'.letGo names) (fun j => j = isa ∨ j ∈ items) ∧
      (∀ j < h.cells.size, home' j = home j) ∧
      HasList home' x list' (g'.letGo names) isa names := by
  obtain ⟨hisa, array, old⟩ := s
  obtain ⟨names, g, new, steady, size, nodup, fresh, -, texts⟩ := Heap.mapM_new list' h
  have former {j : CellId} (hj : j ∈ items) : j < h.cells.size ∧ ∃ s, g.Holds j (.ofText s) := by
    obtain ⟨s, -, hs⟩ := Heap.exists_of_forall₂ old hj
    exact ⟨hs.lt_size, s, steady.held j _ id hs⟩
  have later {j : CellId} (hj : j ∈ names) (lt : j < h.cells.size) : False :=
    Nat.not_le_of_lt lt (fresh j hj)
  have array' := steady.held isa _ id array
  have leaf : ∀ j ∈ items, ∀ c, g.cell? j = some c → c.IsLeaf := by
    intro j hj c hc
    obtain ⟨-, s, hs⟩ := former hj
    have payload := hs.payload hc
    refine (steady.bare bare).isLeaf hc (by rw [payload]; rfl) fun t ht => ?_
    rw [payload] at ht
    cases ht
  have apart : isa ∉ items := fun hj => by
    obtain ⟨-, s, hs⟩ := former hj
    exact array'.ne hs nofun rfl
  -- old names are given up, and are not among the new ones
  obtain ⟨g', written, replaced, array''⟩ := Heap.replaceItems array' leaf apart nodup
    (fun j hj => ⟨fun e => later hj (e ▸ array.lt_size), fun hi => later hj (former hi).1⟩)
    (fun j hj => Heap.exists_of_forall₂ texts hj)
  -- the new names belong to the package
  refine ⟨names, g, g', fun j => if j ∈ names then x else home j, new, written,
    (steady.mono fun _ => False.elim).trans replaced,
    fun j hj => if_neg fun hn => later hn hj,
    (if_neg fun hn => later hn array.lt_size).trans hisa, array'', ?_⟩
  refine ((List.forall₂_and_left ..).mpr ⟨fun j hj => hj, texts⟩).imp fun j s named => ?_
  obtain ⟨hj, hs⟩ := named
  refine ⟨if_pos hj, replaced.held j _ ?_ ⟨1, hs⟩⟩
  rintro (e | hi)
  · exact later hj (e ▸ array.lt_size)
  · exact later hj (former hi).1

/-- **Writing parents.**  The package gets the list, and all others keep theirs. -/
theorem Shelved.writeParents (s : Shelved lists seed r h) (name : String) (list : List String) :
    Ends (Registry.writeParents name list) ⟨h, r⟩ (fun _ t =>
      Shelved (Function.update lists (Spelling.ofText name).letters list) seed t.own t.heap ∧
        Remembers r t.own) fun _ => False := by
  refine (s.define name).bind fun i ⟨h, r'⟩ ⟨s, rem, stash, _⟩ => ?_
  dsimp only at s rem stash
  obtain ⟨home, stashes, shows, shelf⟩ := s.shelf
  rw [s.stash?_eq shows] at stash
  generalize (Spelling.ofText name).letters = x at stash ⊢
  obtain ⟨isa, h₁, home₁, t, m, made, steady₁, shelf₁, holds, is, bound⟩ := shelf.parentArray stash
  obtain ⟨items, there⟩ := is.hasList bound
  obtain ⟨names, h₂, h₃, home₃, new, written, steady₃, homes, listed⟩ :=
    there.replace (steady₁.bare s.bare) list
  have own : ∀ j, j = isa ∨ j ∈ items → home₁ j = x := by
    rintro j (rfl | hj)
    · exact there.1
    · exact (Heap.exists_of_forall₂ there.2.2 hj).elim fun _ => And.left
  -- the table is neither the array nor one of its names
  have stashed : (h₃.letGo names).Holds i (.ofTable t) := by
    refine steady₃.held i _ ?_ holds
    rintro (e | hi)
    · exact holds.ne there.2.1 nofun e
    · obtain ⟨s, -, hs⟩ := Heap.exists_of_forall₂ there.2.2 hi
      exact holds.ne hs nofun rfl
  have shelf₃ := shelf₁.update steady₃ (fun j hj => .inl (own j hj)) homes (fun _ _ => rfl) stash
    ((homes i holds.lt_size).trans (shelf₁.stash x i stash).1) stashed
    (is.onto steady₃ (.inr ⟨isa, names, bound, listed⟩))
  have whole : h.Steady (h₃.letGo names) fun _ => True :=
    (steady₁.mono fun _ _ => trivial).trans (steady₃.mono fun _ _ => trivial)
  refine Ends.step (liftM_ok made) ?_
  rw [mapM_liftM]
  refine Ends.step (liftM_ok new) ?_
  refine Ends.step (a := .ok ()) (t := ⟨h₃, r'⟩) ?_ ?_
  · unfold attempt
    rw [liftM_ok (s := ⟨h₂, r'⟩) written]
  · exact ⟨s.of_shelf whole rfl (fun k j hj => whole.code j (s.codes k j hj))
      ⟨home₃, stashes, shows, shelf₃⟩, rem⟩

/-! ### Methods -/

theorem parentLetters_ne {method : String} (other : method ≠ parentEntry) :
    (Spelling.ofText method).letters ≠ parentLetters :=
  fun e => other (Spelling.ofText_letters_inj e)

theorem ends_routine (h : Heap) (code : CellId) :
    Ends (Heap.routine code) h
      (fun q h' => h' = h ∧ ∃ c, h.cell? code = some c ∧ c.payload = .code q) fun h' => h' = h := by
  unfold Heap.routine
  refine Ends.step (a := h) (t := h) rfl ?_
  cases hc : h.cell? code with
  | none =>
    rw [show h.cell code = { owners := 0 } by rw [Heap.cell, hc]; rfl]
    exact rfl
  | some c =>
    rw [Heap.cell_eq hc]
    dsimp only
    split
    · exact ⟨rfl, c, rfl, by assumption⟩
    · exact rfl

/-- Changing a routine changes nothing but code. -/
theorem Shelved.updateRoutine (s : Shelved lists seed r h) (code : CellId)
    (f : Routine → Routine) :
    Ends (Heap.updateRoutine code f) h (fun _ h' => Shelved lists seed r h' ∧ h'.IsCode code)
      (Shelved lists seed r) := by
  unfold Heap.updateRoutine
  refine ((ends_routine h code).imp (fun _ _ => id) fun h' e => e ▸ s).bind ?_
  rintro q h ⟨rfl, c, hc, hq⟩
  have isCode : h.IsCode code := ⟨Heap.lt_size hc, fun d hd => ⟨q, by
    rw [← hq, Option.some.inj (hd.symm.trans hc)]⟩⟩
  have steady := Heap.steady_setPayload h code hc (p := .code (f q)) fun _ _ => ⟨_, rfl⟩
  have e : h.updateCell code (fun c => { c with payload := .code (f q) }) =
      h.setCell code { c with payload := .code (f q) } := by
    unfold Heap.updateCell
    rw [Heap.cell_eq hc]
  show Shelved lists seed r (h.updateCell code _) ∧ (h.updateCell code _).IsCode code
  rw [e]
  exact ⟨s.onHeap steady fun j hj => hj ▸ isCode, steady.code code isCode⟩

/-- Another table in a stash, where all parent lists stay. -/
theorem Shelved.withTable (s : Shelved lists seed r h) (shows : r.stashes.Shows stashes)
    (holds : h.Holds i (.ofTable t)) {ring : Keyring} (turns : h.ring.Turns ring)
    (shelf : Shelf home stashes lists (h.withTable i u ring)) :
    Shelved lists seed r (h.withTable i u ring) ∧
      ∀ j, h.IsCode j → (h.withTable i u ring).IsCode j := by
  have steady : h.Steady (h.withTable i u ring) (· = i) :=
    Heap.steady_withTable holds fun _ => turns
  exact ⟨s.of_shelf steady rfl (fun k j hj => steady.code j (s.codes k j hj))
    ⟨home, stashes, shows, shelf⟩, steady.code⟩

/-- **Storing code** in a stash leaves all parent lists alone. -/
theorem Shelved.store (s : Shelved lists seed r h) {name method : String}
    (other : method ≠ parentEntry) (hi : r.stash? (.ofText name) = some i) {code : CellId}
    (hc : h.IsCode code) :
    Ends (Heap.store i (.ofText method) code) h (fun old h' => Shelved lists seed r h' ∧
      ∀ j ∈ old, h'.IsCode j) fun _ => False := by
  obtain ⟨home, stashes, shows, shelf⟩ := s.shelf
  rw [s.stash?_eq shows] at hi
  obtain ⟨-, t, m, holds, is⟩ := shelf.stash _ i hi
  obtain ⟨u, ring, e, housed, shown, fixed, turns⟩ :=
    is.housed.store_free is.shows is.unrestricted (.ofText method) code
  have methods : ∀ y j, (m.insert (Spelling.ofText method).letters code).lookup y = some j →
      y ≠ parentLetters → h.IsCode j := by
    intro y j hj hy
    by_cases hym : y = (Spelling.ofText method).letters
    · rw [hym, Finmap.lookup_insert] at hj
      cases hj
      exact hc
    · rw [Finmap.lookup_insert_of_ne _ hym] at hj
      exact is.methods y j hj hy
  obtain ⟨s, keep⟩ := s.withTable shows holds turns
    (shelf.withTable hi holds is housed shown fixed turns methods
      (Finmap.lookup_insert_of_ne _ (parentLetters_ne other).symm))
  have retained := Heap.steady_retainAll (h.withTable i u ring) [code]
  refine Ends.of_ok (Heap.store_eq holds e) ⟨s.onHeap retained fun _ => False.elim, ?_⟩
  intro j hj
  exact retained.code j (keep j (is.methods _ j hj (parentLetters_ne other)))

/-- **Deleting a method** from a stash leaves all parent lists alone. -/
theorem Shelved.delete (s : Shelved lists seed r h) {name : Spelling} {method : String}
    (other : method ≠ parentEntry) (hi : r.stash? name = some i) :
    Ends (Heap.delete i (.ofText method)) h (fun _ h' => Shelved lists seed r h')
      fun _ => False := by
  obtain ⟨home, stashes, shows, shelf⟩ := s.shelf
  rw [s.stash?_eq shows] at hi
  obtain ⟨-, t, m, holds, is⟩ := shelf.stash _ i hi
  have deleted := is.housed.delete is.shows h.isReadOnly (.ofText method)
  cases e : t.delete h.ring h.isReadOnly (.ofText method) with
  | error =>
    rw [e, is.unrestricted] at deleted
    cases deleted
  | ok result =>
    obtain ⟨old, u, ring⟩ := result
    rw [e] at deleted
    obtain ⟨housed, shown, -, fixed, turns⟩ := deleted
    have methods : ∀ y j, (m.erase (Spelling.ofText method).letters).lookup y = some j →
        y ≠ parentLetters → h.IsCode j := by
      intro y j hj hy
      by_cases hym : y = (Spelling.ofText method).letters
      · rw [hym, Finmap.lookup_erase] at hj
        cases hj
      · rw [Finmap.lookup_erase_ne hym] at hj
        exact is.methods y j hj hy
    obtain ⟨s, -⟩ := s.withTable shows holds turns
      (shelf.withTable hi holds is housed shown fixed turns methods
        (Finmap.lookup_erase_ne (parentLetters_ne other).symm))
    exact Ends.of_ok (Heap.delete_eq holds e) s

/-- What a package itself defines for a method is code. -/
theorem Shelved.ownMethod (s : Shelved lists seed r h) (package : Key) (method : String) :
    ∃ found, r.ownMethod package method h = .ok found h ∧ ∀ i ∈ found, h.IsCode i := by
  obtain ⟨home, stashes, shows, shelf⟩ := s.shelf
  have stash := s.stash?_eq shows (.ofKey package)
  unfold Registry.ownMethod
  rw [stash]
  cases bound : stashes.lookup (Spelling.ofKey package).letters with
  | none => exact ⟨none, rfl, nofun⟩
  | some i =>
    dsimp only
    by_cases other : method = parentEntry
    · rw [if_pos other]
      exact ⟨none, rfl, nofun⟩
    · rw [if_neg other]
      obtain ⟨-, t, m, holds, is⟩ := shelf.stash _ i bound
      refine ⟨(m.lookup (Spelling.ofText method).letters).filter fun i =>
        (h.cell i).shape = .code, ?_, fun j hj => ?_⟩
      · exact bind_ok (is.fetch holds _)
      · obtain ⟨hj, -⟩ := Option.filter_eq_some_iff.mp hj
        exact is.methods _ j hj (parentLetters_ne other)

/-- An advisory is no cell. -/
theorem Shelved.report (s : Shelved lists seed r h) (a : Advisory) :
    Ends (Heap.report (.site none) a) h (fun _ h' => Shelved lists seed r h' ∧
      ∀ i, h.IsCode i → h'.IsCode i) fun _ => False := by
  have steady : h.Steady { h with reports := h.reports.push (a.atSite none) } fun _ => False :=
    ⟨fun _ _ _ holds => holds, fun _ code => code, fun bare => bare, .refl⟩
  exact ⟨s.onHeap steady fun _ => False.elim, steady.code⟩

/-- **Looking for a method** gives code, and leaves all parent lists alone. -/
theorem Shelved.search (s : Shelved lists seed r h) (origin : Key) (method : String)
    (packages : List (Key × Nat)) :
    Ends (r.search origin method packages) h (fun found h' => Shelved lists seed r h' ∧
      ∀ f ∈ found, h'.IsCode f.code) fun _ => False := by
  induction packages generalizing h with
  | nil => exact ⟨s, nofun⟩
  | cons e packages ih =>
    obtain ⟨package, place⟩ := e
    unfold Registry.search
    split
    · obtain ⟨found, own, code⟩ := s.ownMethod package method
      refine Ends.step own ?_
      cases found with
      | none => exact ih s
      | some i =>
        refine ⟨s, fun f hf => ?_⟩
        cases hf
        exact code i rfl
    · dsimp only
      split
      · exact (s.report _).bind fun _ h' s' => ih s'.1
      · exact ih s

/-- Letting code go leaves all parent lists alone. -/
theorem Shelved.letGo (s : Shelved lists seed r h) {is : List CellId}
    (code : ∀ i ∈ is, h.IsCode i) : Shelved lists seed r (h.letGo is) :=
  s.onHeap (Heap.steady_letGo_code s.bare code) fun _ => id

/-- **Defining a method** leaves all parent lists alone, also when it fails. -/
theorem Shelved.defineMethod (s : Shelved lists seed r h) (package : String) {method : String}
    (other : method ≠ parentEntry) (code : CellId) :
    let Q (t : Beside Registry) := Shelved lists seed t.own t.heap ∧ Remembers r t.own
    Ends (Registry.defineMethod package method code) ⟨h, r⟩ (fun _ => Q) Q := by
  intro Q
  have changed {r' : Registry} {h' : Heap} (s : Shelved lists seed r' h') (rem : Remembers r r') :
      Ends methodsChanged ⟨h', r'⟩ (fun _ => Q) Q := ⟨s.onSelf rfl s.codes, rem⟩
  unfold Registry.defineMethod
  refine Ends.bind (Q := fun _ => Q)
    ((s.define package).bind fun _ _ q => Ends.of_ok rfl ⟨q.1, q.2.1⟩).sure ?_
  rintro - ⟨h, r'⟩ ⟨s, rem⟩
  dsimp only at s rem
  refine Ends.self ?_
  refine Ends.bind (((s.updateRoutine code _).lift (s := ⟨h, r'⟩)).imp (fun _ _ => id)
    fun t ⟨own, s⟩ => ⟨own ▸ s, own ▸ rem⟩) ?_
  rintro - ⟨h, _⟩ ⟨rfl, s, isCode⟩
  dsimp only at s isCode rem
  refine (s.define package).sure.bind ?_
  rintro i ⟨h, r''⟩ ⟨s, rem', stash, later⟩
  dsimp only at s rem' stash later
  -- the code that was replaced is let go of, with an advisory or without
  refine ((s.store other stash (later code isCode)).liftSure (s := ⟨h, r''⟩)).bind ?_
  rintro old ⟨h, r''⟩ ⟨rfl, s, gone⟩
  dsimp only at s gone rem' ⊢
  have rem'' := rem.trans rem'
  cases old with
  | none => exact changed s rem''
  | some j =>
    refine Ends.step (a := h) (t := ⟨h, r''⟩) rfl ?_
    have finish {h : Heap} (s : Shelved lists seed r'' h) (isCode : h.IsCode j) :
        Ends (changeHeap (·.release j) >>= fun _ => methodsChanged) ⟨h, r''⟩ (fun _ => Q) Q :=
      Ends.step (t := ⟨h.release j, r''⟩) rfl (changed (s.letGo fun k hk => by
        rw [List.mem_singleton] at hk
        exact hk ▸ isCode) rem'')
    split
    · refine ((s.report _).liftSure (s := ⟨h, r''⟩)).bind ?_
      rintro - ⟨h, _⟩ ⟨rfl, s, keep⟩
      exact finish s (keep j (gone j rfl))
    · exact finish s (gone j rfl)

/-- **Removing a method** leaves all parent lists alone. -/
theorem Shelved.removeMethod (s : Shelved lists seed r h) (package : String) {method : String}
    (other : method ≠ parentEntry) :
    Ends (Registry.removeMethod package method) ⟨h, r⟩
      (fun _ t => Shelved lists seed t.own t.heap ∧ Remembers r t.own) fun _ => False := by
  unfold Registry.removeMethod
  refine Ends.self ?_
  obtain ⟨found, own, -⟩ := s.ownMethod (r.keyOf package) method
  refine Ends.step (liftM_ok own) ?_
  dsimp only
  split
  · rename_i i _ stash
    refine ((s.delete other stash).liftSure (s := ⟨h, r⟩)).bind ?_
    rintro removed ⟨h, _⟩ ⟨rfl, s⟩
    dsimp only at s ⊢
    split
    · exact ⟨s.onSelf rfl s.codes, rfl, rfl⟩
    · exact ⟨s, rfl, rfl⟩
  · exact ⟨s, rfl, rfl⟩

end ScriptCore.Registry
