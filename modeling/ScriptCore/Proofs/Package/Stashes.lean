import Mathlib.Logic.Function.Basic
import ScriptCore.Package.Registry
import ScriptCore.Proofs.Heap.Lists
import ScriptCore.Proofs.Key.Map
import ScriptCore.Proofs.Outcome
import ScriptCore.Proofs.Table.Update

/-!
# Package — the stashes on the heap

`Shelved lists seed r h` is the invariant of a registry and the heap its stashes are on: `lists`
gives the names that stand in the parent list of every package, and that is what `parents` reads
(`Shelved.parents`).  No cell serves two packages, and no cell of code serves as anything else, so
that a change to one package leaves the others alone (`Shelf.update`).
-/

namespace ScriptCore.Registry

/-- The letters of the stash entry of the parent list. -/
def parentLetters : Bytes × Bool := (Spelling.ofText parentEntry).letters

/-- The parents that a package is given by the lists of names. -/
def graph (lists : Bytes × Bool → List String) (seed : Seed) (package : Key) : List Key :=
  (lists package.letters).map fun s => .probe (.ofBytes (Text.encode s)) seed

/-- A cell of package `x` is an array of cells of `x` with the names of a list. -/
def HasList (home : CellId → Bytes × Bool) (x : Bytes × Bool) (list : List String) (h : Heap)
    (isa : CellId) (items : List CellId) : Prop :=
  home isa = x ∧ h.Holds isa (.ofItems items) ∧
    List.Forall₂ (fun i s => home i = x ∧ h.Holds i (.ofText s)) items list

/-- A table that holds code and the parent list of a package. -/
structure IsStash (home : CellId → Bytes × Bool) (x : Bytes × Bool) (list : List String)
    (h : Heap) (t : Table CellId) (m : Table.Contents CellId) : Prop where
  housed : t.Housed h.ring
  shows : t.Shows m
  unrestricted : t.restricted = false
  methods : ∀ y j, m.lookup y = some j → y ≠ parentLetters → h.IsCode j
  parents : m.lookup parentLetters = none ∧ list = [] ∨
    ∃ isa items, m.lookup parentLetters = some isa ∧ HasList home x list h isa items

/-- The stashes of packages, each on cells of its own. -/
structure Shelf (home : CellId → Bytes × Bool) (stashes : Table.Contents CellId)
    (lists : Bytes × Bool → List String) (h : Heap) : Prop where
  absent : ∀ x, stashes.lookup x = none → lists x = []
  stash : ∀ x i, stashes.lookup x = some i → home i = x ∧
    ∃ t m, h.Holds i (.ofTable t) ∧ IsStash home x (lists x) h t m

/-- A registry whose packages have the given parent lists. -/
structure Shelved (lists : Bytes × Bool → List String) (seed : Seed) (r : Registry) (h : Heap) :
    Prop where
  housed : r.stashes.Housed h.ring
  unrestricted : r.stashes.restricted = false
  settled : r.stashes.mayReseed = false
  seed : r.seed = seed
  bare : h.IsBare
  codes : ∀ k, ∀ i ∈ (r.profile k).codes, h.IsCode i
  shelf : ∃ home stashes, r.stashes.Shows stashes ∧ Shelf home stashes lists h

/-- The later registry remembers what the earlier did. -/
def Remembers (r r' : Registry) : Prop := r'.profiles = r.profiles ∧ r'.settings = r.settings

section
variable {home home' : CellId → Bytes × Bool} {x : Bytes × Bool} {list : List String}
  {lists : Bytes × Bool → List String} {h h' : Heap} {t u : Table CellId}
  {m n stashes : Table.Contents CellId} {but : CellId → Prop} {i isa : CellId}
  {items : List CellId} {seed : Seed} {r r' : Registry}

theorem Remembers.trans {r'' : Registry} (h : Remembers r r') (h' : Remembers r' r'') :
    Remembers r r'' := ⟨h'.1.trans h.1, h'.2.trans h.2⟩

theorem Remembers.profile (h : Remembers r r') (k : Key) : r'.profile k = r.profile k := by
  unfold Registry.profile
  rw [h.1]

/-! ### What leaves a stash alone -/

/-- Cells of a package that are not code are spared by what spares that package. -/
theorem held_of_spared (a : h.Steady h' but) (spared : ∀ j, but j → home j ≠ x ∨ h.IsCode j)
    {j : CellId} {c : Cell} (hj : home j = x) (holds : h.Holds j c)
    (plain : ∀ r, c.payload ≠ .code r) : h'.Holds j c := by
  refine a.held j c (fun b => ?_) holds
  rcases spared j b with other | code
  · exact other hj
  · exact holds.not_isCode plain code

theorem HasList.steady (s : HasList home x list h isa items) (a : h.Steady h' but)
    (spared : ∀ j, but j → home j ≠ x ∨ h.IsCode j)
    (homes : ∀ j < h.cells.size, home j = x → home' j = x) :
    HasList home' x list h' isa items := by
  obtain ⟨hi, array, texts⟩ := s
  refine ⟨homes isa array.lt_size hi,
    held_of_spared a spared hi array fun _ => Payload.noConfusion, texts.imp fun j s hj => ?_⟩
  exact ⟨homes j hj.2.lt_size hj.1,
    held_of_spared a spared hj.1 hj.2 fun _ => Payload.noConfusion⟩

/-- The same table, with a list that may be another. -/
theorem IsStash.onto (s : IsStash home x list h t m) (a : h.Steady h' but) {list' : List String}
    (parents : m.lookup parentLetters = none ∧ list' = [] ∨
      ∃ isa items, m.lookup parentLetters = some isa ∧ HasList home' x list' h' isa items) :
    IsStash home' x list' h' t m where
  housed := s.housed.of_sound s.housed.sound (a.turns s.housed.ring) rfl rfl
  shows := s.shows
  unrestricted := s.unrestricted
  methods y j hj hy := a.code j (s.methods y j hj hy)
  parents := parents

theorem IsStash.steady (s : IsStash home x list h t m) (a : h.Steady h' but)
    (spared : ∀ j, but j → home j ≠ x ∨ h.IsCode j)
    (homes : ∀ j < h.cells.size, home j = x → home' j = x) : IsStash home' x list h' t m := by
  refine s.onto a (s.parents.imp_right ?_)
  rintro ⟨isa, items, hisa, there⟩
  exact ⟨isa, items, hisa, there.steady a spared homes⟩

theorem IsStash.hasList (s : IsStash home x list h t m)
    (bound : m.lookup parentLetters = some isa) : ∃ items, HasList home x list h isa items := by
  rcases s.parents with ⟨unbound, -⟩ | ⟨isa', items, bound', there⟩
  · cases unbound.symm.trans bound
  · obtain rfl := Option.some.inj (bound'.symm.trans bound)
    exact ⟨items, there⟩

/-- A new table has no methods and no parents. -/
theorem isStash_new (home : CellId → Bytes × Bool) (x : Bytes × Bool) (sound : h.ring.Sound)
    (p : Nat) : IsStash home x [] h (.inPool h.ring p) ∅ where
  housed := by
    refine ⟨Table.sound_new _ false (some p), sound, fun q hq => ?_⟩
    cases hq
    rfl
  shows y v := by
    rw [Finmap.lookup_empty]
    exact iff_of_false (by simp) Table.not_binds_new
  unrestricted := rfl
  methods y j hj := by
    rw [Finmap.lookup_empty] at hj
    cases hj
  parents := .inl ⟨Finmap.lookup_empty _, rfl⟩

/-- **One package.**  What spares the cells of other packages leaves their stashes as they are. -/
theorem Shelf.update (s : Shelf home stashes lists h) (a : h.Steady h' but)
    (spared : ∀ j, but j → home j = x ∨ h.IsCode j)
    (homes : ∀ j < h.cells.size, home' j = home j) {stashes' : Table.Contents CellId}
    (others : ∀ y, y ≠ x → stashes'.lookup y = stashes.lookup y)
    (here : stashes'.lookup x = some i) (hi : home' i = x) (holds : h'.Holds i (.ofTable t))
    (new : IsStash home' x list h' t m) :
    Shelf home' stashes' (Function.update lists x list) h' where
  absent y hy := by
    by_cases hyx : y = x
    · rw [hyx, here] at hy
      cases hy
    · rw [Function.update_of_ne hyx]
      exact s.absent y (others y hyx ▸ hy)
  stash y j hj := by
    by_cases hyx : y = x
    · subst hyx
      obtain rfl : i = j := Option.some.inj (here.symm.trans hj)
      rw [Function.update_self]
      exact ⟨hi, t, m, holds, new⟩
    · rw [others y hyx] at hj
      obtain ⟨hy, t', m', holds', stash⟩ := s.stash y j hj
      have apart : ∀ k, but k → home k ≠ y ∨ h.IsCode k := fun k b =>
        (spared k b).imp_left fun hk e => hyx (e.symm.trans hk)
      rw [Function.update_of_ne hyx]
      exact ⟨(homes j holds'.lt_size).trans hy, t', m',
        held_of_spared a apart hy holds' fun _ => Payload.noConfusion,
        stash.steady a apart fun k hk e => (homes k hk).trans e⟩

/-- One package, where its list stays. -/
theorem Shelf.restash (s : Shelf home stashes lists h) (a : h.Steady h' but)
    (spared : ∀ j, but j → home j = x ∨ h.IsCode j)
    (homes : ∀ j < h.cells.size, home' j = home j) (here : stashes.lookup x = some i)
    (hi : home' i = x) (holds : h'.Holds i (.ofTable t))
    (new : IsStash home' x (lists x) h' t m) : Shelf home' stashes lists h' := by
  have := s.update a spared homes (fun _ _ => rfl) here hi holds new
  rwa [Function.update_eq_self] at this

/-- What spares everything but code leaves all stashes as they are. -/
theorem Shelf.steady (s : Shelf home stashes lists h) (a : h.Steady h' but)
    (spared : ∀ j, but j → h.IsCode j) (homes : ∀ j < h.cells.size, home' j = home j) :
    Shelf home' stashes lists h' where
  absent := s.absent
  stash y j hj := by
    obtain ⟨hy, t, m, holds, stash⟩ := s.stash y j hj
    have apart : ∀ k, but k → home k ≠ y ∨ h.IsCode k := fun k b => .inr (spared k b)
    exact ⟨(homes j holds.lt_size).trans hy, t, m,
      held_of_spared a apart hy holds fun _ => Payload.noConfusion,
      stash.steady a apart fun k hk e => (homes k hk).trans e⟩

/-- A registry on a later heap, whose stashes are seen to. -/
theorem Shelved.of_shelf {lists' : Bytes × Bool → List String} (s : Shelved lists seed r h)
    (a : h.Steady h' but) (same : r'.stashes = r.stashes)
    (codes : ∀ k, ∀ i ∈ (r'.profile k).codes, h'.IsCode i)
    (shelf : ∃ home stashes, r.stashes.Shows stashes ∧ Shelf home stashes lists' h') :
    Shelved lists' seed r' h' where
  housed := same ▸ s.housed.of_sound s.housed.sound (a.turns s.housed.ring) rfl rfl
  unrestricted := same ▸ s.unrestricted
  settled := same ▸ s.settled
  seed := (congrArg Table.seed same).trans s.seed
  bare := a.bare s.bare
  codes := codes
  shelf := same ▸ shelf

theorem Shelved.steady (s : Shelved lists seed r h) (a : h.Steady h' but)
    (spared : ∀ j, but j → h.IsCode j) (same : r'.stashes = r.stashes)
    (codes : ∀ k, ∀ i ∈ (r'.profile k).codes, h'.IsCode i) : Shelved lists seed r' h' := by
  obtain ⟨home, stashes, shows, shelf⟩ := s.shelf
  exact s.of_shelf a same codes ⟨home, stashes, shows, shelf.steady a spared fun _ _ => rfl⟩

/-- Only the heap has changed, and nothing on it but code. -/
theorem Shelved.onHeap (s : Shelved lists seed r h) (a : h.Steady h' but)
    (spared : ∀ j, but j → h.IsCode j) : Shelved lists seed r h' :=
  s.steady a spared rfl fun k i hi => a.code i (s.codes k i hi)

/-- Only what is remembered has changed. -/
theorem Shelved.onSelf (s : Shelved lists seed r h) (same : r'.stashes = r.stashes)
    (codes : ∀ k, ∀ i ∈ (r'.profile k).codes, h.IsCode i) : Shelved lists seed r' h :=
  have unchanged : h.Steady h fun _ => False := .refl h
  s.steady unchanged (fun _ => False.elim) same codes

end

end ScriptCore.Registry
