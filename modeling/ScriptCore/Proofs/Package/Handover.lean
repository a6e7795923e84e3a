import ScriptCore.Proofs.Package.Holdings

/-!
# Package — what operations take hold of and hand over

Defining packages, writing parents and defining methods make cells, hold them in stashes and let
go of what they replace.  A registry stays `Stocked` through each of them: with the stock it had
where only stashes or parents change (`Restashed`), and with another and a new generation of
methods where a method changes (`Renewed`).
-/

namespace ScriptCore.Registry
open Beside Key Lineage

section
variable {lists : Bytes × Bool → List String} {seed : Seed} {r r' : Registry} {h : Heap}
  {stock : Bytes × Bool → Bytes × Bool → Option CellId} {out : List CellId} {i : CellId}
  {t u : Table CellId}

/-! ### Stashes -/

/-- A stash is a hash of code, beside the parents. -/
theorem Shelved.isStash (s : Shelved lists seed r h) {name : Spelling}
    (hi : r.stash? name = some i) :
    ∃ home t m, h.Holds i (.ofTable t) ∧
      IsStash home name.letters (lists name.letters) h t m := by
  obtain ⟨home, stashes, shows, shelf⟩ := s.shelf
  rw [s.stash?_eq shows] at hi
  obtain ⟨-, t, m, holds, is⟩ := shelf.stash _ i hi
  exact ⟨home, t, m, holds, is⟩

/-- What an operation leaves where only stashes have changed beside the heap. -/
def Restashed (stock : Bytes × Bool → Bytes × Bool → Option CellId) (out : List CellId)
    (r : Registry) (t : Beside Registry) : Prop :=
  (∃ stashes, t.own = { r with stashes }) ∧ Stocked stock out t

/-- An empty stash has no methods. -/
theorem stock_define (s : Shelved lists seed r h) (owned : h.Owned (out ++ r.handles))
    {name : Spelling} (absent : r.stash? name = none) {old : Option CellId} {ring : Keyring}
    (e : r.stashes.store h.ring name h.cells.size = .ok (old, u, ring)) :
    Registry.stock { r with stashes := u }
      ({ h with ring }.allocate (.ofTable (.inPool ring r.pool))).2 = r.stock h := by
  obtain ⟨home, stashes, shows, shelf⟩ := s.shelf
  obtain ⟨u, ring, stored, housed, shown, -⟩ :=
    s.housed.store_free shows s.unrestricted name h.cells.size
  cases e.symm.trans stored
  have empty (k : Spelling) : (Table.inPool ring r.pool : Table CellId).fetch? k = none := by
    have new := isStash_new (fun _ => default) default (h := { h with ring }) housed.ring r.pool
    rw [new.shows.fetch? new.housed.sound.toLinked, Finmap.lookup_empty]
  funext x y
  unfold Registry.stock
  split
  · rfl
  have stash : Registry.stash? { r with stashes := u } (.ofLetters x) =
      if x = name.letters then some h.cells.size else r.stash? (.ofLetters x) := by
    rw [s.stash?_eq shows]
    refine (shown.fetch? housed.sound.toLinked _).trans ?_
    rw [Spelling.letters_ofLetters]
    split
    · rename_i hx
      rw [hx, Finmap.lookup_insert]
    · exact Finmap.lookup_insert_of_ne _ (by assumption)
  rw [stash]
  split
  · -- the stash is new, and has nothing
    rename_i hx
    have letters : (Spelling.ofLetters x).letters = name.letters := hx
    rw [r.stash?_congr letters, absent, Option.bind_some,
      table?_of_stash (Heap.holds_allocate _ _), Option.bind_some, empty]
    rfl
  · cases hi : r.stash? (.ofLetters x) with
    | none => rfl
    | some i =>
      obtain ⟨c, hc⟩ := owned.alive (List.mem_append_right _ (mem_handles_of_stash? hi))
      have same : ({ h with ring }.allocate (.ofTable (.inPool ring r.pool))).2.table? i =
          h.table? i := by
        unfold Heap.table? Heap.cell
        rw [Heap.cell?_allocate, if_neg (Nat.ne_of_lt (Heap.lt_size hc))]
        rfl
      rw [Option.bind_some, Option.bind_some, same]

/-- **Defining** a package gives it an empty stash. -/
theorem Stocked.define (b : Stocked stock out ⟨h, r⟩) (s : Shelved lists seed r h)
    (name : String) :
    Ends (Registry.define name) ⟨h, r⟩ (fun _ => Restashed stock out r) fun _ => False := by
  obtain ⟨home, stashes, shows, shelf⟩ := s.shelf
  cases found : r.stash? (.ofText name) with
  | some i => exact Ends.of_ok (define_defined found) ⟨⟨r.stashes, rfl⟩, b⟩
  | none =>
    obtain ⟨u, ring, stored, housed, shown, -⟩ :=
      s.housed.store_free shows s.unrestricted (.ofText name) h.cells.size
    have owned : ({ h with ring }.allocate (.ofTable (.inPool ring r.pool))).2.Owned
        (h.cells.size :: (out ++ r.handles)) := (b.owned.of_cells rfl).allocate rfl
    refine Ends.of_ok (define_new found stored) ⟨⟨u, rfl⟩, ?_⟩
    refine ⟨⟨b.distinct.profiles, b.distinct.methods⟩, owned.imp fun i => ?_, ?_, ?_⟩
    · have stored := Table.count_store (x := i) stored
      unfold handles
      simp only [List.count_append, List.count_cons, List.count_nil] at stored ⊢
      omega
    · have formed : { h with ring }.IsFormed := b.formed
      exact formed.allocate fun _ => Payload.noConfusion
    · rw [← b.stock]
      exact stock_define s b.owned found stored

/-- A new array of parents is held by the stash alone in the end. -/
theorem Stocked.newParentArray (b : Stocked stock out ⟨h, r⟩) {home : CellId → Bytes × Bool}
    {x : Bytes × Bool} {list : List String} {m : Table.Contents CellId}
    (holds : h.Holds i (.ofTable t)) (is : IsStash home x list h t m)
    (unbound : m.lookup parentLetters = none) :
    Ends (parentArray i) h (fun _ h' => Stocked stock out ⟨h', r⟩) fun _ => False := by
  have made := Heap.steady_allocate h (c := .ofItems []) rfl
  have holds' : (h.allocate (.ofItems [])).2.Holds i (.ofTable t) := made.held i _ id holds
  have housed' : t.Housed (h.allocate (.ofItems [])).2.ring :=
    is.housed.of_sound is.housed.sound (made.turns is.housed.ring) rfl rfl
  obtain ⟨u, ring, e, housed, shown, -⟩ :=
    housed'.store_free is.shows is.unrestricted (.ofText parentEntry) h.cells.size
  refine Ends.of_ok (is.parentArray_new holds unbound holds' e) (Stocked.letGo ?_)
  have b' : Stocked stock (h.cells.size :: out) ⟨(h.allocate (.ofItems [])).2, r⟩ :=
    b.allocate rfl fun _ => Payload.noConfusion
  have same (k : Spelling) (hk : k.letters ≠ parentLetters) : u.fetch? k = t.fetch? k := by
    rw [shown.fetch? housed.sound.toLinked, is.shows.fetch? is.housed.sound.toLinked]
    exact Finmap.lookup_insert_of_ne _ hk
  have stored := b'.withTable holds' ring [h.cells.size] (m.lookup parentLetters).toList
    (fun j hj => b'.owned.alive (by rw [List.mem_singleton.mp hj]; simp))
    fun j => Table.count_store e
  rw [stock_retainAll, stock_withTable r holds' ring same, b'.stock, unbound] at stored
  exact stored

theorem Stocked.parentArray (b : Stocked stock out ⟨h, r⟩) {home : CellId → Bytes × Bool}
    {stashes : Table.Contents CellId} (shelf : Shelf home stashes lists h) {x : Bytes × Bool}
    (hx : stashes.lookup x = some i) :
    Ends (Registry.parentArray i) h (fun _ h' => Stocked stock out ⟨h', r⟩) fun _ => False := by
  obtain ⟨-, t, m, holds, is⟩ := shelf.stash x i hx
  rcases is.parents with ⟨unbound, -⟩ | ⟨isa, items, bound, -⟩
  · exact b.newParentArray holds is unbound
  · exact Ends.of_ok (is.parentArray_there holds bound) b

/-- The makers of new texts have handles on them. -/
theorem Stocked.mapM_new (b : Stocked stock out ⟨h, r⟩) (list : List String) :
    Ends (list.mapM fun s => Heap.new (.ofText s)) h
      (fun names h' => Stocked stock (names ++ out) ⟨h', r⟩) fun _ => False := by
  induction list generalizing h out with
  | nil => exact b
  | cons s list ih =>
    rw [List.mapM_cons]
    have made : Stocked stock (h.cells.size :: out) ⟨(h.allocate (.ofText s)).2, r⟩ :=
      b.allocate rfl fun _ => Payload.noConfusion
    refine Ends.step (a := h.cells.size) (t := (h.allocate (.ofText s)).2) rfl ?_
    refine (ih made).bind fun names h' b' => ?_
    exact b'.imp fun i => Nat.le_of_eq (List.perm_middle.count_eq i).symm

/-- An array takes hold of names, and lets go of those it had. -/
theorem Stocked.assignItems {isa : CellId} {items names : List CellId}
    (b : Stocked stock (names ++ out) ⟨h, r⟩) (array : h.Holds isa (.ofItems items)) :
    ∃ h', Heap.assignItems isa names h = .ok () h' ∧ Stocked stock (names ++ out) ⟨h', r⟩ := by
  refine ⟨_, Heap.assignItems_eq array names, Stocked.letGo ?_⟩
  obtain ⟨n, hn⟩ := array
  have owned (l : List CellId) :
      ({ Cell.ofItems items with payload := .array l, owners := n } : Cell).owned = l := rfl
  have changed := b.exchange hn
    (d := { Cell.ofItems items with payload := .array names, owners := n }) rfl
    (fun _ => Payload.noConfusion) names items
    (fun j hj => b.owned.alive (by simp [hj])) fun j => by
      rw [owned names]
      exact Nat.le_of_eq (Nat.add_comm ..)
  rw [stock_retainAll, stock_setCell r hn rfl rfl, b.stock] at changed
  rw [Heap.cell_eq hn]
  exact changed

/-- **Writing parents** leaves all methods alone. -/
theorem Stocked.writeParents (b : Stocked stock out ⟨h, r⟩) (s : Shelved lists seed r h)
    (name : String) (list : List String) :
    Ends (Registry.writeParents name list) ⟨h, r⟩ (fun _ => Restashed stock out r)
      fun _ => False := by
  have defined := ((s.define name).and (b.define s name)).imp (fun _ _ => id) fun _ => And.left
  refine defined.bind ?_
  rintro i ⟨h, _⟩ ⟨⟨s, -, stash, -⟩, ⟨stashes', rfl⟩, b⟩
  dsimp only at s stash
  obtain ⟨home, stashes, shows, shelf⟩ := s.shelf
  rw [s.stash?_eq shows] at stash
  obtain ⟨isa, h₁, home₁, t, m, made, steady₁, shelf₁, holds, is, bound⟩ := shelf.parentArray stash
  obtain ⟨items, -, array, texts⟩ := is.hasList bound
  have b₁ : Stocked stock out ⟨h₁, { r with stashes := stashes' }⟩ :=
    (b.parentArray shelf stash).result made
  refine Ends.step (liftM_ok made) ?_
  rw [mapM_liftM]
  obtain ⟨names, h₂, new, steady₂, size, nodup, fresh, -, -⟩ := Heap.mapM_new list h₁
  have b₂ : Stocked stock (names ++ out) ⟨h₂, { r with stashes := stashes' }⟩ :=
    (b₁.mapM_new list).result new
  refine Ends.step (liftM_ok new) ?_
  obtain ⟨h₃, written, b₃⟩ := b₂.assignItems (steady₂.held isa _ id array)
  refine Ends.step (a := .ok ()) (t := ⟨h₃, { r with stashes := stashes' }⟩) ?_ ?_
  · unfold attempt
    rw [liftM_ok (s := ⟨h₂, _⟩) written]
  · exact ⟨⟨stashes', rfl⟩, b₃.letGo⟩

/-! ### Methods -/

/-- Changing a routine leaves what it is held by. -/
theorem Stocked.updateRoutine (b : Stocked stock out ⟨h, r⟩) (code : CellId)
    (f : Routine → Routine) :
    Ends (Heap.updateRoutine code f) h
      (fun _ h' => Stocked stock out ⟨h', r⟩ ∧ ∃ c, h'.cell? code = some c)
      fun h' => Stocked stock out ⟨h', r⟩ := by
  unfold Heap.updateRoutine
  refine ((ends_routine h code).imp (fun _ _ => id) fun h' e => e ▸ b).bind ?_
  rintro q h ⟨rfl, c, hc, hq⟩
  have owned (p : Payload) (none : p.cells = []) :
      ({ c with payload := p } : Cell).owned = c.owned := by
    unfold Cell.owned
    dsimp only
    rw [none, hq]
    rfl
  have changed := b.exchange hc (d := { c with payload := .code (f q) }) rfl
    (fun _ _ => b.formed code c hc q hq) [] [] nofun fun j => by
      rw [owned _ rfl]
  have plain : c.payload.table? = none := by
    rw [hq]
    rfl
  rw [stock_retainAll, stock_setCell r hc plain rfl, b.stock] at changed
  have e : h.updateCell code (fun c => { c with payload := .code (f q) }) =
      h.setCell code { c with payload := .code (f q) } := by
    unfold Heap.updateCell
    rw [Heap.cell_eq hc]
  show Stocked stock out ⟨h.updateCell code _, r⟩ ∧ ∃ c, (h.updateCell code _).cell? code = some c
  rw [e]
  refine ⟨changed, { c with payload := .code (f q) }, ?_⟩
  rw [Heap.cell?_setCell, Heap.isAlive, hc, if_pos ⟨rfl, rfl⟩]

/-- **Storing code** takes hold of it, and hands over what was there. -/
theorem Stocked.store (b : Stocked stock out ⟨h, r⟩) (s : Shelved lists seed r h)
    {name : Spelling} (hi : r.stash? name = some i) (k : Spelling) {code : CellId}
    (alive : ∃ c, h.cell? code = some c) :
    Ends (Heap.store i k code) h
      (fun old h' => Stocked (r.stock h') (old.toList ++ out) ⟨h', r⟩) fun _ => False := by
  obtain ⟨home, t, m, holds, is⟩ := s.isStash hi
  obtain ⟨u, ring, e, -⟩ := is.housed.store_free is.shows is.unrestricted k code
  refine Ends.of_ok (Heap.store_eq holds e) ?_
  exact b.withTable holds ring [code] _
    (fun j hj => by rw [List.mem_singleton.mp hj]; exact alive) fun j => Table.count_store e

/-- What is stored is in stock, unless it is stored as the parent list. -/
theorem Shelved.stock_store (s : Shelved lists seed r h) {name : Spelling}
    (hi : r.stash? name = some i) {k : Spelling} (other : k.letters ≠ parentLetters)
    (code : CellId) :
    Ends (Heap.store i k code) h (fun _ h' => r.stock h' name.letters k.letters = some code)
      fun _ => False := by
  obtain ⟨home, t, m, holds, is⟩ := s.isStash hi
  obtain ⟨u, ring, e, housed, shown, -⟩ := is.housed.store_free is.shows is.unrestricted k code
  refine Ends.of_ok (Heap.store_eq holds e) ?_
  have table : ((h.withTable i u ring).retainAll [code]).table? i = some u := by
    rw [table?_retainAll]
    exact table?_of_stash (Heap.holds_withTable holds ring)
  show r.stock ((h.withTable i u ring).retainAll [code]) name.letters k.letters = some code
  rw [stock_stash hi other, table, Option.bind_some, shown.fetch? housed.sound.toLinked,
    Finmap.lookup_insert]

/-- **Deleting** hands over what was there. -/
theorem Stocked.delete (b : Stocked stock out ⟨h, r⟩) (s : Shelved lists seed r h)
    {name k : Spelling} (hi : r.stash? name = some i) (other : k.letters ≠ parentLetters) :
    Ends (Heap.delete i k) h
      (fun old h' => old = stock name.letters k.letters ∧
        Stocked (r.stock h') (old.toList ++ out) ⟨h', r⟩) fun _ => False := by
  obtain ⟨home, t, m, holds, is⟩ := s.isStash hi
  have deleted := is.housed.delete is.shows h.isReadOnly k
  cases e : t.delete h.ring h.isReadOnly k with
  | error =>
    rw [e, is.unrestricted] at deleted
    cases deleted
  | ok result =>
    obtain ⟨old, u, ring⟩ := result
    rw [e] at deleted
    refine Ends.of_ok (Heap.delete_eq holds e) ⟨?_, ?_⟩
    · rw [← b.stock, stock_stash hi other, table?_of_stash holds, Option.bind_some, deleted.2.2.1,
        is.shows.fetch? is.housed.sound.toLinked]
    · exact b.withTable holds ring [] old.toList nofun fun j => by
        rw [List.count_nil]
        exact Table.count_delete e

/-- What a stash has for a method is code, and the stash keeps it alive. -/
theorem Stocked.isCode_of_fetch? (b : Stocked stock out ⟨h, r⟩) (holds : h.Holds i (.ofTable t))
    {home : CellId → Bytes × Bool} {x : Bytes × Bool} {list : List String}
    {m : Table.Contents CellId} (is : IsStash home x list h t m) {k : Spelling}
    (other : k.letters ≠ parentLetters) {j : CellId} (hj : t.fetch? k = some j) :
    ∃ c, h.cell? j = some c ∧ c.shape = .code := by
  obtain ⟨n, hn⟩ := holds
  obtain ⟨c, hc⟩ := b.owned.alive_held hn (Table.mem_values_of_fetch? hj)
  rw [is.shows.fetch? is.housed.sound.toLinked] at hj
  obtain ⟨q, hq⟩ := (is.methods _ j hj other).2 c hc
  exact ⟨c, hc, b.formed j c hc q hq⟩

/-- **What a package itself defines** for a method is in its stock, and alive. -/
theorem Stocked.ownMethod (b : Stocked stock out ⟨h, r⟩) (s : Shelved lists seed r h)
    (package : Key) (method : String) :
    r.ownMethod package method h =
        .ok (stock package.letters (Spelling.ofText method).letters) h ∧
      ∀ i ∈ stock package.letters (Spelling.ofText method).letters, ∃ c, h.cell? i = some c := by
  rw [← b.stock]
  unfold Registry.ownMethod
  cases hi : r.stash? (.ofKey package) with
  | none =>
    have absent : r.stock h package.letters (Spelling.ofText method).letters = none :=
      stock_absent hi _
    rw [absent]
    exact ⟨rfl, nofun⟩
  | some i =>
    dsimp only
    by_cases parent : method = parentEntry
    · have masked : r.stock h package.letters (Spelling.ofText method).letters = none :=
        if_pos (parent ▸ rfl)
      rw [if_pos parent, masked]
      exact ⟨rfl, nofun⟩
    have other := parentLetters_ne parent
    obtain ⟨home, t, m, holds, is⟩ := s.isStash hi
    have stocked : r.stock h package.letters (Spelling.ofText method).letters =
        t.fetch? (.ofText method) := by
      refine (stock_stash hi other).trans ?_
      rw [table?_of_stash holds, Option.bind_some]
    rw [if_neg parent, stocked, bind_ok (Heap.fetch_eq holds _)]
    refine ⟨?_, fun j hj => (b.isCode_of_fetch? holds is other hj).imp fun _ => And.left⟩
    cases found : t.fetch? (.ofText method) with
    | none => rfl
    | some j =>
      obtain ⟨c, hc, shape⟩ := b.isCode_of_fetch? holds is other found
      refine (Heap.bind_get _ h).trans ?_
      rw [Option.filter_some, Heap.cell_eq hc, shape]
      rfl

/-- What an operation leaves after which answers to methods are stale everywhere. -/
def Renewed (out : List CellId) (r : Registry) (t : Beside Registry) : Prop :=
  (∃ stashes, t.own = { r with stashes, methodGeneration := r.methodGeneration + 1 }) ∧
    Stocked (t.own.stock t.heap) out t

theorem Stocked.methodsChanged (b : Stocked stock out ⟨h, r'⟩) (stashes : Table CellId)
    (hr : r' = { r with stashes }) {E : Beside Registry → Prop} :
    Ends Registry.methodsChanged ⟨h, r'⟩
      (fun _ t => Renewed out r t ∧ t.own.stock t.heap = stock) E := by
  subst hr
  have same : Stocked stock out
      ⟨h, { r with stashes, methodGeneration := r.methodGeneration + 1 }⟩ := b.onSelf rfl rfl
  exact Ends.of_ok rfl ⟨⟨⟨stashes, rfl⟩, same.stock.symm ▸ same⟩, same.stock⟩

theorem Stocked.report (b : Stocked stock out ⟨h, r⟩) (sink : Option Nat) (a : Advisory) :
    Ends (Heap.report (.site sink) a) h (fun _ h' => Stocked stock out ⟨h', r⟩) fun _ => False :=
  Ends.of_ok rfl (b.of_cells rfl)

/-- **Defining a method** makes all answers stale and the method is in stock; where it fails no
method has changed. -/
theorem Stocked.defineMethod (b : Stocked stock out ⟨h, r⟩) (s : Shelved lists seed r h)
    (package : String) {method : String} (other : method ≠ parentEntry) (code : CellId) :
    Ends (Registry.defineMethod package method code) ⟨h, r⟩ (fun _ t => Renewed out r t ∧
      t.own.stock t.heap (Spelling.ofText package).letters (Spelling.ofText method).letters =
        some code) (Restashed stock out r) := by
  unfold Registry.defineMethod
  have defined := ((s.define package).and (b.define s package)).imp (fun _ _ => id)
    fun _ => And.left
  refine Ends.bind (Q := fun _ t => t.own.stash? (.ofText package) ≠ none ∧
    Shelved lists seed t.own t.heap ∧ Restashed stock out r t)
    (defined.sure.bind fun i t q => Ends.of_ok rfl ⟨?_, q.1.1, q.2⟩) ?_
  · rw [q.1.2.2.1]
    exact nofun
  rintro - ⟨h, r'⟩ ⟨there, s, ⟨stashes, hr⟩, b⟩
  obtain ⟨i, hi⟩ := Option.ne_none_iff_exists'.mp there
  dsimp only at s hi hr
  refine Ends.self ?_
  refine Ends.bind ((((s.updateRoutine code _).and (b.updateRoutine code _)).lift
    (s := ⟨h, r'⟩)).imp (fun _ _ => id) ?_) ?_
  · rintro ⟨h, _⟩ ⟨rfl, -, b⟩
    exact ⟨⟨stashes, hr⟩, b⟩
  rintro - ⟨h, r'⟩ ⟨rfl, ⟨s, -⟩, b, alive⟩
  refine Ends.step (define_defined hi) ?_
  have stored := ((b.store s hi (.ofText method) alive).and
    (s.stock_store hi (parentLetters_ne other) code)).imp (fun _ _ => id) fun _ => And.left
  refine Ends.bind (stored.liftSure (s := ⟨h, r'⟩)) ?_
  rintro old ⟨h, r'⟩ ⟨rfl, b, stocked⟩
  dsimp only at b stocked hr ⊢
  cases old with
  | none =>
    refine (b.methodsChanged stashes hr).imp ?_ fun _ => id
    rintro - t ⟨renewed, same⟩
    exact ⟨renewed, same.symm ▸ stocked⟩
  | some j =>
    -- the code that was replaced is let go of, with an advisory or without
    have finish {g : Heap} (b : Stocked (r'.stock h) ([j] ++ out) ⟨g, r'⟩) :
        Ends (changeHeap (·.release j) >>= fun _ => Registry.methodsChanged) ⟨g, r'⟩
          (fun _ t => Renewed out r t ∧ t.own.stock t.heap (Spelling.ofText package).letters
            (Spelling.ofText method).letters = some code) (Restashed stock out r) := by
      refine Ends.step (t := ⟨g.release j, r'⟩) rfl
        ((b.letGo.methodsChanged stashes hr).imp ?_ fun _ => id)
      rintro - t ⟨renewed, same⟩
      exact ⟨renewed, same.symm ▸ stocked⟩
    refine Ends.step (a := h) (t := ⟨h, r'⟩) rfl ?_
    split
    · refine ((b.report none _).liftSure (s := ⟨h, r'⟩)).bind ?_
      rintro - ⟨h, r'⟩ ⟨rfl, b⟩
      exact finish b
    · exact finish b

/-- **Removing a method** hands over its code and makes all answers stale, or changes nothing. -/
theorem Stocked.removeMethod (b : Stocked stock out ⟨h, r⟩) (s : Shelved lists seed r h)
    (package : String) {method : String} (other : method ≠ parentEntry) :
    Ends (Registry.removeMethod package method) ⟨h, r⟩ (fun removed t =>
      removed = none ∧ t = ⟨h, r⟩ ∨ Renewed (removed.toList ++ out) r t) fun _ => False := by
  unfold Registry.removeMethod
  refine Ends.self ?_
  refine Ends.step (liftM_ok (b.ownMethod s (r.keyOf package) method).1) ?_
  dsimp only
  split
  · rename_i code i own stash
    refine ((b.delete s stash (parentLetters_ne other)).liftSure (s := ⟨h, r⟩)).bind ?_
    rintro removed ⟨h, r⟩ ⟨rfl, there, b⟩
    obtain rfl : removed = some code := there.trans own
    rw [Option.isSome_some, if_pos rfl]
    exact (b.methodsChanged r.stashes rfl).bind fun _ t q => Ends.of_ok rfl (.inr q.1)
  · exact Ends.of_ok rfl (.inl ⟨rfl, rfl⟩)

end

end ScriptCore.Registry
