import ScriptCore.Proofs.Heap.Ownership
import ScriptCore.Proofs.Package.Reparenting
import ScriptCore.Proofs.Table.Values

/-!
# Package — what a registry holds

A registry has handles on its stashes and on the code of the answers it remembers.  `Stocked stock
out s` says that each of them has an owner on the heap, beside those of the handles `out` that are
held elsewhere, and that the stashes have the code `stock` for methods.  So what a stash has for
a method is code that is alive (`Stocked.ownMethod`), until an operation changes the stash.
-/

namespace ScriptCore

/-- The spelling of some letters. -/
def Spelling.ofLetters (x : Bytes × Bool) : Spelling := { bytes := x.1, wide := x.2 }

@[simp]
theorem Spelling.letters_ofLetters (x : Bytes × Bool) : (ofLetters x).letters = x := rfl

/-- The table of a hash cell. -/
def Heap.table? (h : Heap) (i : CellId) : Option (Table CellId) := (h.cell i).payload.table?

namespace Registry
open Beside Key Lineage

/-- The code that the answers hold that are remembered of packages. -/
def codesIn (profiles : KeyMap Profile) : List CellId :=
  (profiles.map fun e => e.2).flatMap Profile.codes

/-- The handles of a registry. -/
def handles (r : Registry) : List CellId := r.stashes.values ++ codesIn r.profiles

/-- What is remembered is remembered once. -/
structure Distinct (r : Registry) : Prop where
  profiles : KeyMap.Distinct r.profiles
  methods : ∀ k, KeyMap.Distinct (r.profile k).methods

/-- What the stash of a package has for a method. -/
def stock (r : Registry) (h : Heap) (package method : Bytes × Bool) : Option CellId :=
  if method = parentLetters then none
  else (r.stash? (.ofLetters package)).bind fun i =>
    (h.table? i).bind (·.fetch? (.ofLetters method))

/-- All that is held has its owners, and the stashes have the given code. -/
structure Stocked (stock : Bytes × Bool → Bytes × Bool → Option CellId) (out : List CellId)
    (s : Beside Registry) : Prop where
  distinct : s.own.Distinct
  owned : s.heap.Owned (out ++ s.own.handles)
  formed : s.heap.IsFormed
  stock : s.own.stock s.heap = stock

section
variable {lists : Bytes × Bool → List String} {seed : Seed} {r r' : Registry} {h h' : Heap}
  {stock : Bytes × Bool → Bytes × Bool → Option CellId} {out out' is : List CellId} {i : CellId}
  {c d : Cell} {t u : Table CellId} {f : Profile → Profile} {package : Key}

/-! ### Handles -/

theorem count_codesIn_update {m : KeyMap Profile} (distinct : KeyMap.Distinct m) (package : Key)
    (f : Profile → Profile) (i : CellId) :
    (codesIn (m.update package {} f)).count i + ((m.get? package).getD {}).codes.count i =
      (codesIn m).count i + (f ((m.get? package).getD {})).codes.count i := by
  unfold codesIn
  rcases distinct.update_cases package {} f with ⟨before, k, p, after, rfl, found, e⟩ | ⟨absent, e⟩
  · rw [e, found]
    simp only [List.map_append, List.map_cons, List.flatMap_append, List.flatMap_cons,
      List.count_append, Option.getD_some]
    omega
  · rw [e, absent]
    simp only [List.map_append, List.map_cons, List.map_nil, List.flatMap_append,
      List.flatMap_cons, List.flatMap_nil, List.count_append, Option.getD_none, List.append_nil]
    rfl

/-- **The handles on code** when something else is remembered of a package. -/
theorem Distinct.count_handles (distinct : r.Distinct) (package : Key) (f : Profile → Profile)
    (i : CellId) :
    (r.remembering package f).handles.count i + (r.profile package).codes.count i =
      r.handles.count i + (f (r.profile package)).codes.count i := by
  have codes := count_codesIn_update distinct.profiles package f i
  unfold handles
  rw [List.count_append, List.count_append, Nat.add_assoc, Nat.add_assoc]
  exact congrArg _ codes

theorem Distinct.remembering (distinct : r.Distinct)
    (methods : KeyMap.Distinct (f (r.profile package)).methods) :
    (r.remembering package f).Distinct where
  profiles := KeyMap.distinct_update distinct.profiles package {} f
  methods k := by
    rw [profile_remembering]
    split
    · rw [← profile_congr r (by assumption)]
      exact methods
    · exact distinct.methods k

/-- **The code of the answers** when one is remembered. -/
theorem count_codes_put {p : Profile} (distinct : KeyMap.Distinct p.methods) (method : Key)
    (a : Method.Answer) (i : CellId) :
    ({ p with methods := p.methods.put method a } : Profile).codes.count i +
        (((p.methods.get? method).bind (·.found)).map (·.code)).toList.count i =
      p.codes.count i + (a.found.map (·.code)).toList.count i := by
  have one (k : Key) (b : Method.Answer) :
      [(k, b)].filterMap (fun e : Key × Method.Answer => e.2.found.map (·.code)) =
        (b.found.map (·.code)).toList := by
    cases found : b.found <;> simp [found]
  unfold Profile.codes KeyMap.put
  dsimp only
  rcases distinct.update_cases method a fun _ => a with
    ⟨before, k, old, after, there, found, e⟩ | ⟨absent, e⟩
  · rw [e, found, there, ← List.singleton_append (l := after), ← List.singleton_append (l := after)]
    simp only [List.filterMap_append, one, List.count_append, Option.bind_some]
    omega
  · rw [e, absent, List.filterMap_append, one, List.count_append]
    rfl

/-! ### The stock -/

theorem stash?_congr (r : Registry) {s s' : Spelling} (letters : s.letters = s'.letters) :
    r.stash? s = r.stash? s' := r.stashes.fetch?_congr letters

/-- A stash is one of the cells that the registry has handles on. -/
theorem mem_handles_of_stash? {name : Spelling} (hi : r.stash? name = some i) : i ∈ r.handles :=
  List.mem_append_left _ (Table.mem_values_of_fetch? hi)

/-- The stock of a package that has a stash. -/
theorem stock_stash {name k : Spelling} (hi : r.stash? name = some i)
    (other : k.letters ≠ parentLetters) :
    r.stock h name.letters k.letters = (h.table? i).bind (·.fetch? k) := by
  unfold Registry.stock
  rw [if_neg other, r.stash?_congr (Spelling.letters_ofLetters name.letters), hi, Option.bind_some]
  cases h.table? i with
  | none => rfl
  | some t => exact t.fetch?_congr (Spelling.letters_ofLetters k.letters)

/-- A package without a stash has no stock. -/
theorem stock_absent {name : Spelling} (absent : r.stash? name = none) (method : Bytes × Bool) :
    r.stock h name.letters method = none := by
  unfold Registry.stock
  rw [r.stash?_congr (Spelling.letters_ofLetters name.letters), absent, Option.bind_none, ite_self]

/-- What stashes have is not changed where their tables are not. -/
theorem stock_congr (same : r'.stashes = r.stashes)
    (tables : ∀ i ∈ r.handles, h'.table? i = h.table? i) : r'.stock h' = r.stock h := by
  funext x y
  unfold Registry.stock Registry.stash?
  rw [same]
  split
  · rfl
  · cases hi : r.stashes.fetch? (.ofLetters x) with
    | none => rfl
    | some i => rw [Option.bind_some, Option.bind_some, tables i (mem_handles_of_stash? hi)]

theorem table?_of_holds (holds : h.Holds i c) : h.table? i = c.payload.table? := by
  obtain ⟨n, hn⟩ := holds
  unfold Heap.table?
  rw [Heap.cell_eq hn]

theorem table?_of_stash (holds : h.Holds i (.ofTable t)) : h.table? i = some t :=
  table?_of_holds holds

theorem table?_of_cells (same : h'.cells = h.cells) (i : CellId) : h'.table? i = h.table? i := by
  unfold Heap.table? Heap.cell
  rw [Heap.cell?_of_cells same]

theorem table?_retainAll (h : Heap) (is : List CellId) (i : CellId) :
    (h.retainAll is).table? i = h.table? i := by
  unfold Heap.table? Heap.cell
  rw [Heap.cell?_retainAll]
  cases h.cell? i <;> rfl

theorem table?_setCell (hc : h.cell? i = some c) (d : Cell) (j : CellId) :
    (h.setCell i d).table? j = if i = j then d.payload.table? else h.table? j := by
  unfold Heap.table? Heap.cell
  rw [Heap.cell?_setCell, Heap.isAlive, hc]
  by_cases hj : i = j
  · rw [if_pos ⟨hj, rfl⟩, if_pos hj]
    rfl
  · rw [if_neg fun e => hj e.1, if_neg hj]

/-! ### Steps on the heap -/

/-- Nothing but what is no cell has changed on the heap. -/
theorem Stocked.of_cells (b : Stocked stock out ⟨h, r⟩) (same : h'.cells = h.cells) :
    Stocked stock out ⟨h', r⟩ where
  distinct := b.distinct
  owned := b.owned.of_cells same
  formed := b.formed.of_cells same
  stock := (stock_congr rfl fun i _ => table?_of_cells same i).trans b.stock

theorem Stocked.imp (b : Stocked stock out ⟨h, r⟩) (le : ∀ i, out'.count i ≤ out.count i) :
    Stocked stock out' ⟨h, r⟩ where
  distinct := b.distinct
  owned := b.owned.imp fun i => by
    rw [List.count_append, List.count_append]
    exact Nat.add_le_add_right (le i) _
  formed := b.formed
  stock := b.stock

/-- **Letting go** of handles held elsewhere. -/
theorem Stocked.letGo (b : Stocked stock (is ++ out) ⟨h, r⟩) :
    Stocked stock out ⟨h.letGo is, r⟩ := by
  have owned : h.Owned (is ++ (out ++ r.handles)) := List.append_assoc .. ▸ b.owned
  refine ⟨b.distinct, owned.letGo, b.formed.letGo, ?_⟩
  rw [← b.stock]
  refine stock_congr rfl fun i hi => ?_
  have there : i ∈ out ++ r.handles := List.mem_append_right _ hi
  obtain ⟨c, hc⟩ := owned.alive (List.mem_append_right _ there)
  have holds : h.Holds i c := ⟨c.owners, hc⟩
  rw [table?_of_holds holds, table?_of_holds (owned.holds_letGo there holds)]

/-- Taking handles on live cells. -/
theorem Stocked.retainAll (b : Stocked stock out ⟨h, r⟩)
    (alive : ∀ i ∈ is, ∃ c, h.cell? i = some c) :
    Stocked stock (is ++ out) ⟨h.retainAll is, r⟩ where
  distinct := b.distinct
  owned := by
    have retained := b.owned.retainAll alive
    rwa [← List.append_assoc] at retained
  formed := b.formed.retainAll is
  stock := (stock_congr rfl fun i _ => table?_retainAll h is i).trans b.stock

/-- **A new cell** that holds nothing. -/
theorem Stocked.allocate (b : Stocked stock out ⟨h, r⟩) (empty : c.owned = [])
    (formed : ∀ q, c.payload = .code q → c.shape = .code) :
    Stocked stock (h.cells.size :: out) ⟨(h.allocate c).2, r⟩ where
  distinct := b.distinct
  owned := b.owned.allocate empty
  formed := b.formed.allocate formed
  stock := by
    rw [← b.stock]
    refine stock_congr rfl fun i hi => ?_
    -- stashes are there before
    obtain ⟨d, hd⟩ := b.owned.alive (List.mem_append_right _ hi)
    unfold Heap.table? Heap.cell
    rw [Heap.cell?_allocate, if_neg (Nat.ne_of_lt (Heap.lt_size hd))]

/-- **A cell changes** what it holds. -/
theorem Stocked.exchange (b : Stocked stock out ⟨h, r⟩) (hc : h.cell? i = some c)
    (owners : d.owners = c.owners) (formed : ∀ q, d.payload = .code q → d.shape = .code)
    (gains loses : List CellId) (alive : ∀ j ∈ gains, ∃ c, h.cell? j = some c)
    (held : ∀ j, d.owned.count j + loses.count j ≤ c.owned.count j + gains.count j) :
    Stocked (r.stock ((h.setCell i d).retainAll gains)) (loses ++ out)
      ⟨(h.setCell i d).retainAll gains, r⟩ where
  distinct := b.distinct
  owned := by
    have exchanged := b.owned.exchange hc owners alive held
    rwa [← List.append_assoc] at exchanged
  formed := (b.formed.setCell formed).retainAll gains
  stock := rfl

theorem stock_retainAll (r : Registry) (h : Heap) (is : List CellId) :
    r.stock (h.retainAll is) = r.stock h :=
  stock_congr rfl fun i _ => table?_retainAll h is i

/-- A cell that is no hash is changed to another. -/
theorem stock_setCell (r : Registry) (hc : h.cell? i = some c) (was : c.payload.table? = none)
    (is : d.payload.table? = none) : r.stock (h.setCell i d) = r.stock h := by
  refine stock_congr rfl fun j _ => ?_
  rw [table?_setCell hc]
  split
  · rename_i hj
    subst hj
    rw [is, table?_of_holds (c := c) ⟨c.owners, hc⟩, was]
  · rfl

/-- **Another table** in a stash, which has taken hold of what it gains. -/
theorem Stocked.withTable (b : Stocked stock out ⟨h, r⟩) (holds : h.Holds i (.ofTable t))
    (ring : Keyring) (gains loses : List CellId) (alive : ∀ j ∈ gains, ∃ c, h.cell? j = some c)
    (held : ∀ j, u.values.count j + loses.count j ≤ t.values.count j + gains.count j) :
    Stocked (r.stock ((h.withTable i u ring).retainAll gains)) (loses ++ out)
      ⟨(h.withTable i u ring).retainAll gains, r⟩ := by
  obtain ⟨n, hn⟩ := holds
  have hn' : { h with ring }.cell? i = some { Cell.ofTable t with owners := n } := hn
  have b' : Stocked stock out ⟨{ h with ring }, r⟩ := b.of_cells rfl
  have owned (v : Table CellId) : ({ Cell.ofTable v with owners := n } : Cell).owned = v.values :=
    rfl
  have changed : h.withTable i u ring =
      { h with ring }.setCell i { Cell.ofTable u with owners := n } := by
    unfold Heap.withTable Heap.updateCell
    rw [Heap.cell_eq hn']
    rfl
  rw [changed]
  refine b'.exchange hn' (d := { Cell.ofTable u with owners := n }) rfl
    (fun _ => Payload.noConfusion) gains loses alive fun j => ?_
  rw [owned, owned]
  exact held j

/-- A table that differs in the parent list has the same methods. -/
theorem stock_withTable (r : Registry) (holds : h.Holds i (.ofTable t)) (ring : Keyring)
    (same : ∀ k : Spelling, k.letters ≠ parentLetters → u.fetch? k = t.fetch? k) :
    r.stock (h.withTable i u ring) = r.stock h := by
  have other (j : CellId) (hj : j ≠ i) : (h.withTable i u ring).table? j = h.table? j := by
    unfold Heap.table? Heap.cell
    rw [Heap.cell?_withTable h i u ring hj]
  funext x y
  unfold Registry.stock
  split
  · rfl
  · rename_i hy
    cases r.stash? (.ofLetters x) with
    | none => rfl
    | some j =>
      rw [Option.bind_some, Option.bind_some]
      by_cases hj : j = i
      · subst hj
        rw [table?_of_stash (Heap.holds_withTable holds ring), table?_of_stash holds]
        exact same (.ofLetters y) (by rwa [Spelling.letters_ofLetters])
      · rw [other j hj]

/-! ### Steps beside the heap -/

/-- Something else is remembered of a package, which gives code up for other code. -/
theorem Stocked.remembering {gains loses : List CellId}
    (b : Stocked stock (gains ++ out) ⟨h, r⟩)
    (methods : KeyMap.Distinct (f (r.profile package)).methods)
    (codes : ∀ i, (f (r.profile package)).codes.count i + loses.count i ≤
      (r.profile package).codes.count i + gains.count i) :
    Stocked stock (loses ++ out) ⟨h, r.remembering package f⟩ where
  distinct := b.distinct.remembering methods
  owned := b.owned.imp fun i => by
    have changed := b.distinct.count_handles package f i
    have := codes i
    simp only [List.count_append] at changed ⊢
    omega
  formed := b.formed
  stock := (stock_congr rfl fun _ _ => rfl).trans b.stock

/-- Methods have changed. -/
theorem Stocked.onSelf (b : Stocked stock out ⟨h, r⟩) (stashes : r'.stashes = r.stashes)
    (profiles : r'.profiles = r.profiles) : Stocked stock out ⟨h, r'⟩ where
  distinct := by
    refine ⟨profiles ▸ b.distinct.profiles, fun k => ?_⟩
    unfold Registry.profile
    rw [profiles]
    exact b.distinct.methods k
  owned := by
    show h.Owned (out ++ r'.handles)
    unfold handles
    rw [stashes, profiles]
    exact b.owned
  formed := b.formed
  stock := (stock_congr stashes fun _ _ => rfl).trans b.stock

/-- **Forgetting** lets go of the code of the answers. -/
theorem Stocked.forget (package : Key) :
    Keeps (Stocked stock out) (Registry.forget package) := by
  refine Keeps.of_ends fun s b => ?_
  unfold Registry.forget
  refine Ends.self ?_
  refine Ends.step (remember_eq package Profile.forgotten s) ?_
  have b' : Stocked stock ([] ++ out) s := b
  have left : Stocked stock ((s.own.profile package).codes ++ out)
      ⟨s.heap, s.own.remembering package Profile.forgotten⟩ :=
    b'.remembering .nil fun i => Nat.le_of_eq (Nat.add_comm ..)
  exact Ends.of_ok rfl left.letGo

/-- **Remembering an answer** takes hold of its code, and lets go of that of an older one. -/
theorem Stocked.rememberAnswer (b : Stocked stock out ⟨h, r⟩) (package method : Key)
    {found : Option Method} (alive : ∀ f ∈ found, ∃ c, h.cell? f.code = some c) :
    Ends (Registry.rememberAnswer package method found) ⟨h, r⟩ (fun _ t => Stocked stock out t ∧
      ∃ generation, t.own = r.remembering package fun p =>
        { p with methods := p.methods.put method ⟨generation, r.methodGeneration, found⟩ })
      fun _ => False := by
  unfold Registry.rememberAnswer
  refine Ends.self ?_
  have retained : Stocked stock ((found.map (·.code)).toList ++ out)
      ⟨h.retainAll (found.map (·.code)).toList, r⟩ := b.retainAll fun i hi => by
    obtain ⟨f, hf, rfl⟩ := Option.map_eq_some_iff.mp (Option.mem_toList.mp hi)
    exact alive f hf
  refine Ends.step (t := ⟨h.retainAll (found.map (·.code)).toList, r⟩) rfl ?_
  refine Ends.step (remember_eq package _ ⟨_, r⟩) ?_
  have distinct : KeyMap.Distinct (r.profile package).methods := b.distinct.methods package
  refine Ends.of_ok rfl ⟨Stocked.letGo (retained.remembering ?_ fun i => ?_), _, rfl⟩
  · exact KeyMap.distinct_put distinct ..
  · exact Nat.le_of_eq (count_codes_put distinct method _ i)

end

end Registry

end ScriptCore
