import ScriptCore.Proofs.Package.Descendants
import ScriptCore.Proofs.Package.Lineage
import ScriptCore.Proofs.Package.Registry

/-!
# Package — what is remembered is right

`Coherent lists seed r` ties what a registry remembers to the parents of packages as they are:
every lineage that is remembered is the order from scratch, and, where children are recorded,
every parent of a package has it among its children.

* `yields_linearizeWithin`: what one level of computing a lineage does.  All that is said of the
  computation is said by induction on the levels, with this as the step.
* `Fit.linearizeWithin`: a lineage that is computed is the order from scratch, and so is every
  one that is remembered on the way, also when the computation fails.
-/

namespace ScriptCore

/-- The key is hashed by a seed. -/
def Key.IsHashed (seed : Seed) (k : Key) : Prop := k.hash = seed.hash k.bytes

/-- Keys with the same letters that are hashed by one seed are the same. -/
theorem Key.IsHashed.plain_eq {seed : Seed} {a b : Key} (ha : a.IsHashed seed)
    (hb : b.IsHashed seed) (letters : a.letters = b.letters) : a.plain = b.plain := by
  rw [← Key.same_iff]
  have bytes : a.bytes = b.bytes := congrArg Prod.fst letters
  have wide : a.wide = b.wide := congrArg Prod.snd letters
  have hash : a.hash = b.hash := ha.trans (bytes ▸ hb.symm)
  simp [Key.same, hash, bytes, wide]

theorem Key.letters_eq_of_same {a b : Key} (same : a.same b = true) : a.letters = b.letters := by
  simp only [Key.same, Bool.and_eq_true, beq_iff_eq] at same
  exact Prod.ext same.1.2 same.2

theorem Key.IsHashed.of_same {seed : Seed} {a b : Key} (ha : a.IsHashed seed)
    (same : a.same b = true) : b.IsHashed seed := by
  simp only [Key.same, Bool.and_eq_true, beq_iff_eq] at same
  obtain ⟨⟨hash, bytes⟩, -⟩ := same
  unfold IsHashed
  rw [← hash, ← bytes]
  exact ha

/-- A profile whose lineage is being computed. -/
def Profile.marked (p : Profile) : Profile := { p with progress := .computing }

namespace Registry
open Beside Key Lineage

/-- The key at the end of every lineage. -/
def lastKey (seed : Seed) : Key := .probe (.ofText universal) seed

/-- The order of a package by an algorithm, up to identities of keys. -/
def HasOrder (lists : Bytes × Bool → List String) (seed : Seed) (algorithm : Algorithm)
    (package : Key) (order : List Key) : Prop :=
  IsOrder (graph lists seed) (lastKey seed) algorithm package.plain (order.map plain)

/-- Where children are recorded, every parent of a package has it among its children. -/
def Indexed (lists : Bytes × Bool → List String) (seed : Seed) (r : Registry) : Prop :=
  r.settings.policy = .incremental → ∀ k, k.IsHashed seed →
    ∀ q ∈ graph lists seed k, k.isIn (r.profile q).children = true

/-- What is remembered of packages agrees with the lists of their parents. -/
structure Coherent (lists : Bytes × Bool → List String) (seed : Seed) (r : Registry) : Prop where
  lineage : ∀ k algorithm l, (r.profile k).lineage? algorithm = some l →
    k.IsHashed seed ∧ HasOrder lists seed algorithm k l.order
  children : Indexed lists seed r

/-- A registry with the given parent lists, and what it remembers of them. -/
def Fit (lists : Bytes × Bool → List String) (seed : Seed) (s : Beside Registry) : Prop :=
  Shelved lists seed s.own s.heap ∧ Coherent lists seed s.own

section
variable {lists : Bytes × Bool → List String} {seed : Seed} {r r' : Registry} {h : Heap}
  {k q package : Key} {f : Profile → Profile} {algorithm : Algorithm}

theorem isHashed_of_mem_graph (hq : q ∈ graph lists seed k) : q.IsHashed seed := by
  obtain ⟨s, -, rfl⟩ := List.mem_map.mp hq
  exact rfl

theorem map_plain_graph (k : Key) :
    (graph lists seed k).map plain = graph lists seed k.plain := by
  unfold graph
  rw [List.map_map]
  rfl

/-! ### Remembering -/

/-- A registry that remembers something else of a package. -/
def remembering (r : Registry) (package : Key) (f : Profile → Profile) : Registry :=
  { r with profiles := r.profiles.update package {} f }

theorem profile_congr (r : Registry) {a b : Key} (h : a.same b = true) :
    r.profile a = r.profile b := by
  unfold profile
  rw [KeyMap.get?_congr _ _ _ h]

theorem profile_remembering (r : Registry) (package : Key) (f : Profile → Profile) (k : Key) :
    (r.remembering package f).profile k =
      if package.same k then f (r.profile k) else r.profile k := by
  unfold profile remembering
  rw [KeyMap.get?_update]
  split
  · rename_i same
    rw [KeyMap.get?_congr _ _ _ same]
    rfl
  · rfl

theorem remember_eq (package : Key) (f : Profile → Profile) (s : Beside Registry) :
    remember package f s = .ok () ⟨s.heap, s.own.remembering package f⟩ := rfl

theorem Shelved.remembering (s : Shelved lists seed r h)
    (codes : ∀ i ∈ (f (r.profile package)).codes, h.IsCode i) :
    Shelved lists seed (r.remembering package f) h := by
  refine s.onSelf rfl fun k i hi => ?_
  rw [profile_remembering] at hi
  split at hi
  · rw [← profile_congr r (by assumption)] at hi
    exact codes i hi
  · exact s.codes k i hi

theorem Coherent.remembering (c : Coherent lists seed r)
    (lineage : ∀ algorithm l, (f (r.profile package)).lineage? algorithm = some l →
      (r.profile package).lineage? algorithm = some l ∨
        package.IsHashed seed ∧ HasOrder lists seed algorithm package l.order)
    (children : ∀ k : Key, k.isIn (r.profile package).children = true →
      k.isIn (f (r.profile package)).children = true) :
    Coherent lists seed (r.remembering package f) where
  lineage k algorithm l hl := by
    rw [profile_remembering] at hl
    split at hl
    · -- keys that are the same have one profile, and one order
      rename_i same
      rw [← profile_congr r same] at hl
      have plain : package.plain = k.plain := same_iff.mp same
      have known : package.IsHashed seed ∧ HasOrder lists seed algorithm package l.order :=
        (lineage algorithm l hl).elim (c.lineage package algorithm l) id
      unfold HasOrder at known ⊢
      rw [← plain]
      exact ⟨known.1.of_same same, known.2⟩
    · exact c.lineage k algorithm l hl
  children policy k hk q hq := by
    have known := c.children policy k hk q hq
    rw [profile_remembering]
    split
    · rename_i same
      rw [← profile_congr r same] at known ⊢
      exact children k known
    · exact known

/-- Nothing that matters to lineages is changed. -/
theorem Fit.remembering {s : Beside Registry} (fit : Fit lists seed s)
    (lineage : ∀ p algorithm l, (f p).lineage? algorithm = some l → p.lineage? algorithm = some l)
    (codes : ∀ p, (f p).codes = p.codes) (children : ∀ p, (f p).children = p.children) :
    Fit lists seed ⟨s.heap, s.own.remembering package f⟩ :=
  ⟨fit.1.remembering fun i hi => fit.1.codes package i (codes _ ▸ hi),
    fit.2.remembering (fun algorithm l hl => .inl (lineage _ algorithm l hl))
      fun _ hk => (children _).symm ▸ hk⟩

/-! ### Computing lineages -/

theorem lineage?_keep {p : Profile} {algorithm' : Algorithm} {l l' : Lineage}
    (hl : (p.keep algorithm l).lineage? algorithm' = some l') :
    p.lineage? algorithm' = some l' ∨ algorithm' = algorithm ∧ l' = l := by
  cases algorithm <;> cases algorithm'
  · exact .inr ⟨rfl, (Option.some.inj hl).symm⟩
  · exact .inl hl
  · exact .inl hl
  · exact .inr ⟨rfl, (Option.some.inj hl).symm⟩

theorem codes_keep (p : Profile) (algorithm : Algorithm) (l : Lineage) :
    (p.keep algorithm l).codes = p.codes := by
  cases algorithm <;> rfl

theorem children_keep (p : Profile) (algorithm : Algorithm) (l : Lineage) :
    (p.keep algorithm l).children = p.children := by
  cases algorithm <;> rfl

theorem Fit.keep (fit : Fit lists seed ⟨h, r⟩) {l : Lineage} (hashed : package.IsHashed seed)
    (order : HasOrder lists seed algorithm package l.order) :
    Fit lists seed ⟨h, r.remembering package (·.keep algorithm l)⟩ := by
  refine ⟨fit.1.remembering fun i hi => ?_, fit.2.remembering (fun algorithm' l' hl => ?_)
    fun k hk => ?_⟩
  · rw [codes_keep] at hi
    exact fit.1.codes package i hi
  · rcases lineage?_keep hl with hl | ⟨rfl, rfl⟩
    · exact .inl hl
    · exact .inr ⟨hashed, order⟩
  · rwa [children_keep]

/-- The universal package stands at the end. -/
theorem Shelved.plain_universal (s : Shelved lists seed r h) :
    (r.keyOf universal).plain = lastKey seed := by
  obtain ⟨hash, letters⟩ := s.keyOf universal
  exact IsHashed.plain_eq hash (b := lastKey seed) rfl letters

/-- What the lineages of the parents are merged to. -/
theorem hasOrder_of_merge {lineages : List Lineage} {order : List Key} {last : Key}
    (above : List.Forall₂ (fun q l => HasOrder lists seed algorithm q l.order)
      (graph lists seed package) lineages)
    (merged : merge algorithm package (graph lists seed package) (lineages.map (·.order)) =
      some order) (hl : last.plain = lastKey seed) :
    HasOrder lists seed algorithm package (closed last order) := by
  have plainly := merge_plain algorithm package (graph lists seed package)
    (lineages.map (·.order))
  rw [merged, map_plain_graph, List.map_map, Option.map_some] at plainly
  unfold HasOrder
  rw [map_plain_closed, hl]
  refine IsOrder.of_merge ?_ plainly.symm
  rw [← map_plain_graph, List.forall₂_map_left_iff, List.forall₂_map_right_iff]
  exact above

/-! ### One level -/

/-- The orders of the parents of a package, merged: what is done while the package is marked. -/
def mergeParents (algorithm : Algorithm) (levels : Nat) (package : Key) :
    OnRegistry (List Key) := do
  let parents ← (← self).parents package
  let lineages ← parents.mapM (Registry.linearizeWithin algorithm levels)
  match merge algorithm package parents (lineages.map (·.order)) with
  | some order => return order
  | none => throw (.inconsistent package.text)

/-- A package is marked as being computed. -/
def mark (package : Key) (s : Beside Registry) : Beside Registry :=
  ⟨s.heap, s.own.remembering package Profile.marked⟩

/-- The mark of a package is taken back. -/
def unmark (package : Key) (s : Beside Registry) : Beside Registry :=
  ⟨s.heap, s.own.remembering package Profile.settled⟩

/-- The lineage of an order has the next serial number. -/
def lineageOf (order : List Key) (s : Beside Registry) : Lineage :=
  ⟨s.heap.ring.supply.fresh.1, closed (s.own.keyOf universal) order⟩

/-- The serial number of a lineage is drawn from the supply. -/
def draw (s : Beside Registry) : Beside Registry :=
  ⟨{ s.heap with ring := { s.heap.ring with supply := s.heap.ring.supply.fresh.2 } }, s.own⟩

/-- The lineage of an order is remembered as that of a package. -/
def record (algorithm : Algorithm) (package : Key) (order : List Key) (s : Beside Registry) :
    Beside Registry :=
  ⟨(draw s).heap, s.own.remembering package (·.keep algorithm (lineageOf order s))⟩

section
variable {s : Beside Registry} {levels : Nat} {Q : Lineage → Beside Registry → Prop}
  {M : List Key → Beside Registry → Prop} {F : Fault → Beside Registry → Prop}

/-- **One level.**  A lineage that is remembered is given, and a package that is marked is taken
for one that is met again.  Of any other package the orders of the parents are merged while it is
marked; the lineage is remembered, or the mark taken back. -/
theorem yields_linearizeWithin
    (known : ∀ l, (s.own.profile package).lineage? algorithm = some l → Q l s)
    (again : (s.own.profile package).progress = .computing → F (.cycle package.text) s)
    (merges : (s.own.profile package).lineage? algorithm = none →
      (s.own.profile package).progress ≠ .computing →
        Yields (mergeParents algorithm levels package) (mark package s)
          (fun order t => Q (lineageOf order t) (record algorithm package order t))
          fun e t => F e (unmark package t)) :
    Yields (Registry.linearizeWithin algorithm (levels + 1) package) s Q F := by
  unfold Registry.linearizeWithin
  refine Yields.step (a := s.own) (t := s) rfl ?_
  dsimp only
  split
  · rename_i l here
    exact known l here
  rename_i new
  split
  · rename_i computing
    exact again computing
  rename_i free
  refine Yields.step (remember_eq package _ s) ?_
  refine Yields.bind (Yields.attempt (merges (Option.eq_none_iff_forall_ne_some.mpr new) free)) ?_
  rintro (e | order) t given <;> exact given

/-- What the lineages of the parents keep is kept while they are merged. -/
theorem keeps_mergeParents {P : Beside Registry → Prop}
    (parents : ∀ r : Registry, Keeps P (r.parents package : OnRegistry (List Key)))
    (above : ∀ q, Keeps P (Registry.linearizeWithin algorithm levels q)) :
    Keeps P (mergeParents algorithm levels package) := by
  refine Keeps.self.bind fun r => (parents r).bind fun parents => ?_
  refine (Keeps.mapM above parents).bind fun lineages => ?_
  split
  · exact Keeps.pure _
  · exact Keeps.throw _

/-- The parents that are asked for are those that the lists spell. -/
theorem Shelved.yields_mergeParents (shelved : Shelved lists seed s.own s.heap)
    (above : Yields ((graph lists seed package).mapM (Registry.linearizeWithin algorithm levels)) s
      (fun lineages t =>
        match merge algorithm package (graph lists seed package) (lineages.map (·.order)) with
        | some order => M order t
        | none => F (.inconsistent package.text) t) F) :
    Yields (mergeParents algorithm levels package) s M F := by
  refine Yields.step (a := s.own) (t := s) rfl ?_
  refine Yields.step (liftM_ok (shelved.parents package)) ?_
  refine Yields.bind above fun lineages t given => ?_
  split at given <;> exact given

/-! ### What is remembered on the way -/

theorem Fit.marked (fit : Fit lists seed s) : Fit lists seed (mark package s) :=
  fit.remembering (fun _ a _ hl => by cases a <;> exact hl) (fun _ => rfl) fun _ => rfl

theorem Fit.unmarked (fit : Fit lists seed s) : Fit lists seed (unmark package s) :=
  fit.remembering (fun _ a _ hl => by cases a <;> exact hl) (fun _ => rfl) fun _ => rfl

theorem Fit.drawn (fit : Fit lists seed s) : Fit lists seed (draw s) := by
  have steady : s.heap.Steady (draw s).heap fun _ => False :=
    Heap.steady_ring s.heap fun sound => (Keyring.Turns.refl sound).draw _
  exact ⟨fit.1.onHeap steady fun _ => False.elim, fit.2⟩

end

/-- **Computing a lineage.**  What it gives is the order from scratch, and so is all that is
remembered, also when it fails. -/
theorem Fit.linearizeWithin (algorithm : Algorithm) (levels : Nat)
    (hashed : package.IsHashed seed) :
    Leads (Fit lists seed) (Registry.linearizeWithin algorithm levels package)
      (fun l s => Fit lists seed s ∧ HasOrder lists seed algorithm package l.order)
      (Fit lists seed) := by
  -- where there are no levels left it fails, and nothing has changed
  induction levels generalizing package with
  | zero => exact fun _ fit => fit
  | succ levels ih =>
    intro s fit
    refine yields_linearizeWithin (F := fun _ => Fit lists seed) (fun l known => ?_)
      (fun _ => fit) fun _ _ => ?_
    · -- what is remembered is right
      exact ⟨fit, (fit.2.lineage package algorithm l known).2⟩
    -- the package is marked as being computed while its parents are
    refine fit.marked.1.yields_mergeParents ?_
    refine (Yields.mapM (fun q hq => ih (isHashed_of_mem_graph hq)) fit.marked).imp ?_
      fun _ _ fit => fit.unmarked
    rintro lineages t ⟨fit, above⟩
    split
    · rename_i order merged
      have right := hasOrder_of_merge above merged fit.1.plain_universal
      exact ⟨fit.drawn.keep hashed right, right⟩
    · exact fit.unmarked

end

end Registry

end ScriptCore
