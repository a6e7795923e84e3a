import ScriptCore.Proofs.Package.Ancestry

/-!
# Package — a changed parent list

When the parent list of a package changes, the lineages that are remembered of it and of all that
inherit from it may be wrong.  `parentsChanged` finds these packages by an index of children and
makes them forget.  The index is *complete* when every parent of a package has it among its
children, whether children are recorded as parents change (`complete_recordedChildren`) or read
off every parent list (`complete_childrenNow`).

* `Shelved.parentsChanged`: whatever was right before the list of one package changed, all that
  is remembered is right afterwards.
-/

namespace ScriptCore.Registry
open Beside Key Lineage

/-- Every parent of a package has it among its children. -/
def Complete (lists : Bytes × Bool → List String) (seed : Seed) (index : KeyMap (List Key)) :
    Prop :=
  ∀ k, k.IsHashed seed → ∀ q ∈ graph lists seed k, k.isIn (childrenIn index q) = true

/-- A later registry that remembers the same lineages and answers, and has the children that are
in `stay`. -/
structure Records (stay : Key → Prop) (r r' : Registry) : Prop where
  stashes : r'.stashes = r.stashes
  settings : r'.settings = r.settings
  lineage : ∀ k algorithm, (r'.profile k).lineage? algorithm = (r.profile k).lineage? algorithm
  codes : ∀ k, (r'.profile k).codes = (r.profile k).codes
  children : ∀ k c : Key, stay c → c.isIn (r.profile k).children = true →
    c.isIn (r'.profile k).children = true

section
variable {lists lists' : Bytes × Bool → List String} {seed : Seed} {r r' r'' : Registry} {h : Heap}
  {k q package : Key} {stay : Key → Prop}

/-! ### Recording children -/

theorem Records.refl (r : Registry) : Records stay r r :=
  ⟨rfl, rfl, fun _ _ => rfl, fun _ => rfl, fun _ _ _ => id⟩

theorem Records.trans (a : Records stay r r') (b : Records stay r' r'') : Records stay r r'' where
  stashes := b.stashes.trans a.stashes
  settings := b.settings.trans a.settings
  lineage k algorithm := (b.lineage k algorithm).trans (a.lineage k algorithm)
  codes k := (b.codes k).trans (a.codes k)
  children k c hc there := b.children k c hc (a.children k c hc there)

/-- What is remembered after some packages have changed alike, where a second change does
nothing. -/
theorem profile_foldl {step : KeyMap Profile → Key → KeyMap Profile} {f : Profile → Profile}
    (one : ∀ (r : Registry) (q k : Key), profile { r with profiles := step r.profiles q } k =
      if q.same k then f (r.profile k) else r.profile k) (twice : ∀ p, f (f p) = f p)
    (packages : List Key) (k : Key) :
    profile { r with profiles := packages.foldl step r.profiles } k =
      if k.isIn packages then f (r.profile k) else r.profile k := by
  induction packages generalizing r with
  | nil => rfl
  | cons q packages ih =>
    rw [List.foldl_cons, ih (r := { r with profiles := step r.profiles q }), one]
    by_cases same : q.same k = true
    · rw [if_pos same, twice, ite_self, if_pos (isIn_cons.mpr (.inl (same_symm same)))]
    · have skip : k.isIn (q :: packages) = k.isIn packages := by
        rw [Bool.eq_iff_iff, isIn_cons]
        exact or_iff_right fun h => same (same_symm h)
      rw [if_neg same, skip]

/-- The package is taken from the children of some. -/
def withoutChild (package : Key) (p : Profile) : Profile :=
  { p with children := p.children.filter fun c => !package.same c }

/-- The package comes to the children of some. -/
def withChild (package : Key) (p : Profile) : Profile :=
  { p with children := if package.isIn p.children then p.children
                       else p.children ++ [package] }

theorem isIn_withChild (package : Key) (p : Profile) :
    package.isIn (withChild package p).children = true := by
  unfold withChild
  dsimp only
  split
  · assumption
  · exact isIn_append.mpr (.inr (isIn_of_mem (by simp)))

/-- The parents that a package has had and is not given again. -/
def lostParents (r : Registry) (package : Key) (parents : List Key) : List Key :=
  (r.profile package).parents.filter fun k => !k.isIn parents

/-- The registry after the parents that a package has lost have lost it. -/
def losing (r : Registry) (package : Key) (parents : List Key) : Registry :=
  { r with profiles := (r.lostParents package parents).foldl
            (fun m k => KeyMap.adjust m k (withoutChild package)) r.profiles }

/-- The registry after a package has been recorded with its old and its new parents. -/
def recording (r : Registry) (package : Key) (parents : List Key) : Registry :=
  { r.losing package parents with
    profiles := parents.foldl (fun m k => KeyMap.update m k {} (withChild package))
      (r.losing package parents).profiles }

theorem forM_remember (f : Profile → Profile) (packages : List Key) :
    (packages.forM fun k => remember k f) ⟨h, r⟩ = .ok () ⟨h, { r with
      profiles := packages.foldl (fun m k => KeyMap.update m k {} f) r.profiles }⟩ := by
  induction packages generalizing r with
  | nil => rfl
  | cons k packages ih => exact (bind_ok (remember_eq k f ⟨h, r⟩)).trans ih

/-- **Recording parents** where children are recorded. -/
theorem recordParents_eq (package : Key) (parents : List Key) :
    recordParents package parents ⟨h, r⟩ = .ok () ⟨h, r.recording package parents⟩ :=
  forM_remember (r := r.losing package parents) _ parents

/-- What is remembered after a package has been recorded. -/
theorem profile_recording (r : Registry) (package : Key) (parents : List Key) (k : Key) :
    (r.recording package parents).profile k =
      let left := if k.isIn (r.lostParents package parents) then withoutChild package (r.profile k)
        else r.profile k
      if k.isIn parents then withChild package left else left := by
  have gained (p : Profile) : withChild package (withChild package p) = withChild package p := by
    have there := isIn_withChild package p
    generalize withChild package p = p at there
    unfold withChild
    rw [if_pos there]
  have lost (p : Profile) : withoutChild package (withoutChild package p) =
      withoutChild package p := by
    unfold withoutChild
    dsimp only
    rw [List.filter_filter]
    simp only [Bool.and_self]
  have taken (r : Registry) (q k : Key) : profile { r with
      profiles := KeyMap.adjust r.profiles q (withoutChild package) } k =
        if q.same k then withoutChild package (r.profile k) else r.profile k := by
    unfold Registry.profile
    dsimp only
    rw [KeyMap.get?_adjust]
    cases KeyMap.get? r.profiles k <;> split <;> rfl
  have given (r : Registry) (q k : Key) : profile { r with
      profiles := KeyMap.update r.profiles q {} (withChild package) } k =
        if q.same k then withChild package (r.profile k) else r.profile k :=
    profile_remembering r q _ k
  have first : (r.losing package parents).profile k =
      if k.isIn (r.lostParents package parents) then withoutChild package (r.profile k)
      else r.profile k := profile_foldl taken lost _ k
  refine (profile_foldl (r := r.losing package parents) given gained parents k).trans ?_
  rw [first]

theorem records_recording (r : Registry) (package : Key) (parents : List Key) :
    Records (fun c => package.same c = false) r (r.recording package parents) := by
  refine ⟨rfl, rfl, fun k algorithm => ?_, fun k => ?_, fun k c hc there => ?_⟩ <;>
    rw [profile_recording] <;> dsimp only
  · split <;> split <;> cases algorithm <;> rfl
  · split <;> split <;> rfl
  · -- a child that is not the package is not taken
    have left : c.isIn (if k.isIn (r.lostParents package parents) then
        withoutChild package (r.profile k) else r.profile k).children = true := by
      split
      · obtain ⟨d, hd, same⟩ := List.any_eq_true.mp there
        refine List.any_eq_true.mpr ⟨d, List.mem_filter.mpr ⟨hd, ?_⟩, same⟩
        rw [Bool.not_eq_true', ← Bool.not_eq_true]
        intro h
        rw [same_trans h (same_symm same)] at hc
        cases hc
      · exact there
    generalize (if k.isIn (r.lostParents package parents) then
      withoutChild package (r.profile k) else r.profile k) = p at left
    split
    · unfold withChild
      dsimp only
      split
      · exact left
      · exact isIn_append.mpr (.inl left)
    · exact left

/-- A package that is recorded is a child of each of its new parents. -/
theorem isIn_children_recording (r : Registry) (package : Key) {parents : List Key} (q : Key)
    (hq : q ∈ parents) :
    package.isIn ((r.recording package parents).profile q).children = true := by
  rw [profile_recording, if_pos (isIn_of_mem hq)]
  exact isIn_withChild package _

/-- The registry after the parents of a package have been noted, and recorded where children
are. -/
def noting (r : Registry) (package : Key) (parents : List Key) : Registry :=
  (if r.settings.policy = .incremental then r.recording package parents else r).remembering package
    fun p => { p with parents }

theorem records_noting (r : Registry) (package : Key) (parents : List Key) :
    Records (fun c => package.same c = false) r (r.noting package parents) := by
  unfold noting
  have before : Records (fun c => package.same c = false) r
      (if r.settings.policy = .incremental then r.recording package parents else r) := by
    split
    · exact records_recording r package parents
    · exact .refl r
  refine before.trans ⟨rfl, rfl, fun k algorithm => ?_, fun k => ?_, fun k c _ there => ?_⟩ <;>
    rw [profile_remembering] <;> split
  · cases algorithm <;> rfl
  · rfl
  · rfl
  · rfl
  · exact there
  · exact there

/-! ### Indexes of children -/

theorem childrenIn_recordedChildren (r : Registry) (q : Key) :
    childrenIn r.recordedChildren q = (r.profile q).children := by
  unfold childrenIn recordedChildren profile
  refine (congrArg (·.getD []) (KeyMap.get?_map r.profiles q fun p => p.children)).trans ?_
  cases KeyMap.get? r.profiles q <;> rfl

theorem complete_recordedChildren (indexed : Indexed lists seed r)
    (policy : r.settings.policy = .incremental) : Complete lists seed r.recordedChildren := by
  intro k hk q hq
  rw [childrenIn_recordedChildren]
  exact indexed policy k hk q hq

/-- An index after a package has come to the children of another. -/
theorem childrenIn_update (index : KeyMap (List Key)) (q package p : Key) :
    childrenIn (KeyMap.update index q [] (· ++ [package])) p =
      if q.same p then childrenIn index p ++ [package] else childrenIn index p := by
  unfold childrenIn
  rw [KeyMap.get?_update]
  split
  · rename_i same
    rw [← KeyMap.get?_congr index q p same]
    rfl
  · rfl

/-- An index after a package has come to the children of all its parents. -/
theorem isIn_childrenIn_foldl (index : KeyMap (List Key)) (package : Key) (parents : List Key) :
    let index' := parents.foldl (fun index k => KeyMap.update index k [] (· ++ [package])) index
    (∀ p c : Key, c.isIn (childrenIn index p) = true → c.isIn (childrenIn index' p) = true) ∧
      ∀ q ∈ parents, package.isIn (childrenIn index' q) = true := by
  induction parents generalizing index with
  | nil => exact ⟨fun _ _ => id, nofun⟩
  | cons q parents ih =>
    obtain ⟨kept, all⟩ := ih (KeyMap.update index q [] (· ++ [package]))
    refine ⟨fun p c hc => kept p c ?_, List.forall_mem_cons.mpr ⟨kept q package ?_, all⟩⟩
    · rw [childrenIn_update]
      split
      · exact isIn_append.mpr (.inl hc)
      · exact hc
    · rw [childrenIn_update, if_pos (same_refl q)]
      exact isIn_append.mpr (.inr (isIn_of_mem (by simp)))

/-- The index that is read off every parent list. -/
def indexOf (lists : Bytes × Bool → List String) (seed : Seed) (names : List Key)
    (index : KeyMap (List Key)) : KeyMap (List Key) :=
  names.foldl (fun index package => (graph lists seed package).foldl
    (fun index k => KeyMap.update index k [] (· ++ [package])) index) index

theorem isIn_childrenIn_indexOf (names : List Key) (index : KeyMap (List Key)) :
    (∀ p c : Key, c.isIn (childrenIn index p) = true →
        c.isIn (childrenIn (indexOf lists seed names index) p) = true) ∧
      ∀ k ∈ names, ∀ q ∈ graph lists seed k,
        k.isIn (childrenIn (indexOf lists seed names index) q) = true := by
  induction names generalizing index with
  | nil => exact ⟨fun _ _ => id, nofun⟩
  | cons k names ih =>
    obtain ⟨kept, all⟩ := ih ((graph lists seed k).foldl
      (fun index p => KeyMap.update index p [] (· ++ [k])) index)
    obtain ⟨kept', all'⟩ := isIn_childrenIn_foldl index k (graph lists seed k)
    exact ⟨fun p c hc => kept p c (kept' p c hc),
      List.forall_mem_cons.mpr ⟨fun q hq => kept q k (all' q hq), all⟩⟩

theorem Shelved.childrenNow (s : Shelved lists seed r h) :
    r.childrenNow h = .ok (indexOf lists seed r.names []) h := by
  unfold Registry.childrenNow
  generalize r.names = names
  generalize ([] : KeyMap (List Key)) = index
  induction names generalizing index with
  | nil => rfl
  | cons k names ih =>
    rw [List.foldlM_cons, bind_assoc, bind_ok (s.parents k), pure_bind]
    exact ih _

/-- A package with parents is among the names of packages. -/
theorem Shelved.mem_names (s : Shelved lists seed r h) (hk : k.IsHashed seed)
    (hq : q ∈ graph lists seed k) : ∃ k' ∈ r.names, k'.same k = true := by
  obtain ⟨home, stashes, shows, shelf⟩ := s.shelf
  cases found : stashes.lookup k.letters with
  | none =>
    unfold graph at hq
    rw [shelf.absent k.letters found] at hq
    cases hq
  | some i =>
    -- the key that the table of stashes has for it
    obtain ⟨j, hj, c⟩ := (shows k.letters i).mp found
    obtain ⟨e, he, letters, value⟩ := Table.contentAt_eq_some_iff.mp c
    have hashed : e.key.IsHashed seed :=
      (s.housed.sound.hashed j e he).trans (congrArg (Seed.hash · _) s.seed)
    refine ⟨e.key, List.mem_map.mpr ⟨(e.key, i), List.mem_filterMap.mpr ⟨j, hj, ?_⟩, rfl⟩,
      same_iff.mpr (hashed.plain_eq hk letters)⟩
    obtain ⟨key, value⟩ := e
    dsimp only at value
    subst value
    rw [he]

theorem Shelved.complete_childrenNow (s : Shelved lists seed r h) :
    Complete lists seed (indexOf lists seed r.names []) := by
  intro k hk q hq
  obtain ⟨k', hk', same⟩ := s.mem_names hk hq
  have hq' : q ∈ graph lists seed k' := by
    unfold graph
    rwa [letters_eq_of_same same]
  rw [← isIn_congr same]
  exact (isIn_childrenIn_indexOf r.names []).2 k' hk' q hq'

/-! ### Forgetting -/

/-- A later registry that remembers no lineage of some packages and no other than before. -/
structure Forgets (packages : List Key) (r r' : Registry) : Prop where
  settings : r'.settings = r.settings
  lineage : ∀ k algorithm l, (r'.profile k).lineage? algorithm = some l →
    (r.profile k).lineage? algorithm = some l ∧ k.isIn packages = false
  children : ∀ k, (r'.profile k).children = (r.profile k).children

/-- **Forgetting** a package. -/
theorem Shelved.forget (s : Shelved lists seed r h) (package : Key) :
    Ends (Registry.forget package) ⟨h, r⟩
      (fun _ t => Shelved lists seed t.own t.heap ∧ Forgets [package] r t.own) fun _ => False := by
  unfold Registry.forget
  refine Ends.self ?_
  refine Ends.step (remember_eq package Profile.forgotten ⟨h, r⟩) ?_
  refine Ends.of_ok (a := ()) rfl ⟨?_, rfl, fun k algorithm l hl => ?_, fun k => ?_⟩
  · exact (s.remembering (f := Profile.forgotten) nofun).letGo (s.codes package)
  · rw [profile_remembering] at hl
    split at hl
    · -- a package that has forgotten has no lineage
      cases algorithm <;> cases hl
    · rename_i other
      refine ⟨hl, ?_⟩
      rw [← Bool.not_eq_true, isIn_cons, isIn_nil]
      exact fun h => other (same_symm (h.resolve_right Bool.false_ne_true))
  · rw [profile_remembering]
    split <;> rfl

theorem Shelved.forM_forget (s : Shelved lists seed r h) (packages : List Key) :
    Ends (packages.forM Registry.forget) ⟨h, r⟩
      (fun _ t => Shelved lists seed t.own t.heap ∧ Forgets packages r t.own) fun _ => False := by
  induction packages generalizing r h with
  | nil => exact ⟨s, rfl, fun _ _ _ hl => ⟨hl, rfl⟩, fun _ => rfl⟩
  | cons package packages ih =>
    refine Ends.bind (s.forget package) ?_
    rintro - ⟨h, r'⟩ ⟨s, one⟩
    refine (ih s).imp ?_ fun _ => id
    rintro - t ⟨s, rest⟩
    refine ⟨s, rest.settings.trans one.settings, fun k algorithm l hl => ?_,
      fun k => (rest.children k).trans (one.children k)⟩
    obtain ⟨hl, out⟩ := rest.lineage k algorithm l hl
    obtain ⟨hl, other⟩ := one.lineage k algorithm l hl
    refine ⟨hl, ?_⟩
    rw [← Bool.not_eq_true, isIn_cons]
    rw [← Bool.not_eq_true, isIn_cons, isIn_nil] at other
    rintro (same | inside)
    · exact other (.inl same)
    · rw [out] at inside
      cases inside

/-! ### Changed parents -/

/-- **What stays right.**  A package that is neither the changed one nor inherits from it has the
order it had. -/
theorem HasOrder.of_unaffected {index : KeyMap (List Key)} (complete : Complete lists' seed index)
    (hp : package.IsHashed seed) (off : ∀ y, y ≠ package.letters → lists' y = lists y)
    (hk : k.IsHashed seed) (out : k.isIn (descendants index package) = false)
    {algorithm : Algorithm} {order : List Key} (is : HasOrder lists seed algorithm k order) :
    HasOrder lists' seed algorithm k order := by
  obtain ⟨found, closed⟩ := closed_descendants index package
  refine IsOrder.congr (S := fun p => p.IsHashed seed ∧
    p.isIn (descendants index package) = false) ?_ ⟨hk, ?_⟩ is
  -- the packages that do not inherit keep their lists, and so do their parents
  · rintro p ⟨hashed, out⟩
    have other : p.letters ≠ package.letters := fun letters => by
      rw [isIn_congr (same_iff.mpr (hashed.plain_eq hp letters)), found] at out
      cases out
    have same : graph lists' seed p = graph lists seed p := by
      unfold graph
      rw [off _ other]
    refine ⟨same.symm, fun q hq => ⟨isHashed_of_mem_graph hq, ?_⟩⟩
    rw [← Bool.not_eq_true]
    intro inside
    -- a parent that inherits would have `p` among the descendants
    obtain ⟨c, hc, child⟩ := List.any_eq_true.mp (complete p hashed q (same ▸ hq))
    rw [isIn_congr child, closed q inside c hc] at out
    cases out
  · rwa [isIn_congr (same_iff.mpr (plain_plain k))]

/-- What is right after the packages that a change affects have forgotten. -/
theorem Coherent.of_forgets (c : Coherent lists seed r) (indexed : Indexed lists' seed r')
    (lineage : ∀ k algorithm, (r'.profile k).lineage? algorithm = (r.profile k).lineage? algorithm)
    {index : KeyMap (List Key)} (complete : Complete lists' seed index)
    (hp : package.IsHashed seed) (off : ∀ y, y ≠ package.letters → lists' y = lists y)
    (forgets : Forgets (descendants index package) r' r'') : Coherent lists' seed r'' where
  lineage k algorithm l hl := by
    obtain ⟨hl, out⟩ := forgets.lineage k algorithm l hl
    rw [lineage] at hl
    obtain ⟨hk, is⟩ := c.lineage k algorithm l hl
    exact ⟨hk, is.of_unaffected complete hp off hk out⟩
  children policy k hk q hq := by
    rw [forgets.children]
    exact indexed (forgets.settings ▸ policy) k hk q hq

/-- The children that are recorded after a change. -/
theorem Coherent.indexed (c : Coherent lists seed r) (hp : package.IsHashed seed)
    (off : ∀ y, y ≠ package.letters → lists' y = lists y) :
    Indexed lists' seed (r.noting package (graph lists' seed package)) := by
  intro policy k hk q hq
  have records := records_noting r package (graph lists' seed package)
  by_cases letters : k.letters = package.letters
  · -- the changed package has just been recorded
    have hq : q ∈ graph lists' seed package := by
      unfold graph at hq ⊢
      rwa [← letters]
    rw [isIn_congr (same_iff.mpr (hk.plain_eq hp letters))]
    unfold noting
    rw [if_pos (records.settings ▸ policy), profile_remembering]
    split <;> exact isIn_children_recording r package q hq
  · refine records.children q k ?_ (c.children (records.settings ▸ policy) k hk q ?_)
    · rw [← Bool.not_eq_true]
      exact fun same => letters (letters_eq_of_same same).symm
    · unfold graph at hq ⊢
      rwa [← off _ letters]

/-- The index of children that a changed parent list is followed by. -/
def indexNow (lists : Bytes × Bool → List String) (seed : Seed) (r : Registry) :
    KeyMap (List Key) :=
  match r.settings.policy with
  | .incremental => r.recordedChildren
  | .onDemand => indexOf lists seed r.names []

theorem Shelved.complete_indexNow (s : Shelved lists seed r h) (indexed : Indexed lists seed r) :
    Complete lists seed (r.indexNow lists seed) := by
  unfold indexNow
  split
  · exact complete_recordedChildren indexed (by assumption)
  · exact s.complete_childrenNow

/-- The packages that a change to the parents of one is found to affect. -/
def affected (lists : Bytes × Bool → List String) (seed : Seed) (r : Registry) (package : Key) :
    List Key :=
  descendants (indexNow lists seed r) package

theorem Shelved.noting (s : Shelved lists seed r h) (package : Key) (parents : List Key) :
    Shelved lists seed (r.noting package parents) h := by
  have records := records_noting r package parents
  exact s.onSelf records.stashes fun k i hi => s.codes k i (records.codes k ▸ hi)

/-- What `parentsChanged` does: the parents are noted, and the packages that are affected
forget. -/
theorem Shelved.parentsChanged_eq (s : Shelved lists seed r h) (name : String) :
    let r' := r.noting (r.keyOf name) (graph lists seed (r.keyOf name))
    Registry.parentsChanged name ⟨h, r⟩ = (do
      (affected lists seed r' (r.keyOf name)).forM Registry.forget
      return (affected lists seed r' (r.keyOf name)).length) ⟨h, r'⟩ := by
  intro r'
  have noted : Shelved lists seed r' h := s.noting ..
  unfold Registry.parentsChanged
  have settings : r'.settings = r.settings := (records_noting ..).settings
  rw [self_bind, bind_ok (liftM_ok (s.parents _))]
  unfold affected indexNow
  rw [settings]
  cases policy : r.settings.policy with
  | incremental =>
    have now : r' = (r.recording (r.keyOf name) (graph lists seed (r.keyOf name))).remembering
        (r.keyOf name) fun p => { p with parents := graph lists seed (r.keyOf name) } := by
      unfold r' Registry.noting
      rw [if_pos policy]
    rw [if_pos rfl]
    refine (bind_ok (recordParents_eq ..)).trans ((bind_ok (remember_eq ..)).trans ?_)
    rw [← now, self_bind, settings, policy]
    rfl
  | onDemand =>
    have now : r' = r.remembering
        (r.keyOf name) fun p => { p with parents := graph lists seed (r.keyOf name) } := by
      unfold r' Registry.noting
      rw [if_neg (by rw [policy]; exact nofun)]
    rw [if_neg nofun]
    refine (bind_ok (remember_eq ..)).trans ?_
    rw [← now, self_bind, settings, policy]
    exact bind_ok (liftM_ok noted.childrenNow)

/-- **A changed parent list.**  Whatever was right before the list of the package changed, all that
is remembered is right afterwards. -/
theorem Shelved.parentsChanged (s : Shelved lists' seed r h) (c : Coherent lists seed r)
    (name : String) (off : ∀ y, y ≠ (Spelling.ofText name).letters → lists' y = lists y) :
    Ends (Registry.parentsChanged name) ⟨h, r⟩ (fun _ t => Fit lists' seed t)
      fun _ => False := by
  obtain ⟨hp, letters⟩ := s.keyOf name
  rw [← letters] at off
  have records := records_noting r (r.keyOf name) (graph lists' seed (r.keyOf name))
  have indexed := c.indexed hp off
  have noted := s.noting (r.keyOf name) (graph lists' seed (r.keyOf name))
  refine Ends.of_eq (s.parentsChanged_eq name) ((noted.forM_forget _).bind ?_)
  rintro - t ⟨s, forgets⟩
  exact ⟨s, c.of_forgets indexed records.lineage (noted.complete_indexNow indexed) hp off forgets⟩

end

end ScriptCore.Registry
