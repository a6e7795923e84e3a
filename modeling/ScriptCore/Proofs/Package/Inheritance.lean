import ScriptCore.Proofs.Package.Reparenting

/-!
# Package — who inherits

A package *inherits* from another when it reaches it through parents (`Inherits`).  An index of
children leads to all that inherit when it is complete, and to no other when it is *faithful*: when
a package is among the children of its parents alone.  Where children are recorded, this is so
because the parents of every package are recorded as well (`Recorded`), so that a package is taken
from the children of those it loses.

* `Shelved.isIn_affected_iff`: the packages that are found to be affected by a change are those
  that inherit, by the parents after the change.
* `Recorded.noting`: what is recorded follows the parent lists.
-/

namespace ScriptCore.Registry
open Beside Key Lineage

/-- The package is the given one, or inherits from it through its parents. -/
inductive Inherits (parents : Key → List Key) (package : Key) : Key → Prop
  | self {k : Key} (same : k.same package = true) : Inherits parents package k
  | parent {k q : Key} (h : q ∈ parents k) (up : Inherits parents package q) :
      Inherits parents package k

/-- Every child that an index has for a package has it as a parent. -/
def Faithful (lists : Bytes × Bool → List String) (seed : Seed) (index : KeyMap (List Key)) :
    Prop :=
  ∀ q, ∀ c ∈ childrenIn index q, c.IsHashed seed ∧ q.isIn (graph lists seed c) = true

/-- The parents that are recorded are those of the lists, and so are the children, where they are
recorded. -/
structure Recorded (lists : Bytes × Bool → List String) (seed : Seed) (r : Registry) : Prop where
  parents : ∀ k, k.IsHashed seed → (r.profile k).parents = graph lists seed k
  children : r.settings.policy = .incremental → ∀ q, ∀ c ∈ (r.profile q).children,
    c.IsHashed seed ∧ q.isIn (graph lists seed c) = true

section
variable {lists lists' : Bytes × Bool → List String} {seed : Seed} {r r' : Registry} {h : Heap}
  {k q package : Key} {index : KeyMap (List Key)}

/-! ### Finding who inherits -/

/-- Packages that are the same inherit alike. -/
theorem Inherits.congr (same : k.same q = true) (i : Inherits (graph lists seed) package k) :
    Inherits (graph lists seed) package q := by
  cases i with
  | self same' => exact .self (same_trans (same_symm same) same')
  | parent hp up =>
    refine .parent ?_ up
    unfold graph at hp ⊢
    rwa [← letters_eq_of_same same]

/-- Packages that are the same are inherited from alike. -/
theorem Inherits.of_same {p p' : Key} (same : p.same p' = true)
    (i : Inherits (graph lists seed) p k) : Inherits (graph lists seed) p' k := by
  induction i with
  | self hk => exact .self (same_trans hk same)
  | parent hq _ ih => exact .parent hq ih

/-- **Who is found.**  An index that names the children of every package and nothing else leads to
the packages that inherit and to no other. -/
theorem isIn_descendants_iff (complete : Complete lists seed index)
    (faithful : Faithful lists seed index) (hk : k.IsHashed seed) :
    k.isIn (descendants index package) = true ↔ Inherits (graph lists seed) package k := by
  obtain ⟨found, closed⟩ := closed_descendants index package
  constructor
  · intro inside
    obtain ⟨d, hd, same⟩ := List.any_eq_true.mp inside
    have inherits : ∀ q ∈ descendants index package, Inherits (graph lists seed) package q := by
      refine forall_mem_descendants (fun q hq c hc => ?_) (.self (same_refl package))
      obtain ⟨p, hp, same⟩ := List.any_eq_true.mp (faithful q c hc).2
      exact .parent hp (hq.congr same)
    exact (inherits d hd).congr (same_symm same)
  · intro i
    induction i with
    | self same => rwa [isIn_congr same]
    | parent hq up ih =>
      obtain ⟨c, hc, same⟩ := List.any_eq_true.mp (complete _ hk _ hq)
      rw [isIn_congr same]
      exact closed _ (ih (isHashed_of_mem_graph hq)) c hc

theorem isHashed_of_mem_descendants (faithful : Faithful lists seed index)
    (hp : package.IsHashed seed) : ∀ k ∈ descendants index package, k.IsHashed seed :=
  forall_mem_descendants (fun q _ c hc => (faithful q c hc).1) hp

/-! ### Indexes that are faithful -/

theorem Recorded.faithful (rec : Recorded lists seed r)
    (policy : r.settings.policy = .incremental) : Faithful lists seed r.recordedChildren := by
  intro q c hc
  rw [childrenIn_recordedChildren] at hc
  exact rec.children policy q c hc

/-- Reading off the parents of a package adds it to the children of its parents alone. -/
theorem mem_childrenIn_foldl {parents : List Key} {p c : Key}
    (hc : c ∈ childrenIn (parents.foldl
      (fun index k => KeyMap.update index k [] (· ++ [package])) index) p) :
    c ∈ childrenIn index p ∨ c = package ∧ p.isIn parents = true := by
  induction parents generalizing index with
  | nil => exact .inl hc
  | cons q parents ih =>
    rcases ih hc with hc | ⟨rfl, inside⟩
    · rw [childrenIn_update] at hc
      split at hc
      · rename_i same
        rcases List.mem_append.mp hc with hc | hc
        · exact .inl hc
        · exact .inr ⟨List.mem_singleton.mp hc, isIn_cons.mpr (.inl (same_symm same))⟩
      · exact .inl hc
    · exact .inr ⟨rfl, isIn_cons.mpr (.inr inside)⟩

theorem faithful_indexOf {names : List Key} (hashed : ∀ k ∈ names, k.IsHashed seed)
    (faithful : Faithful lists seed index) :
    Faithful lists seed (indexOf lists seed names index) := by
  induction names generalizing index with
  | nil => exact faithful
  | cons k names ih =>
    obtain ⟨hk, hashed⟩ := List.forall_mem_cons.mp hashed
    refine ih hashed fun q c hc => ?_
    rcases mem_childrenIn_foldl hc with hc | ⟨rfl, inside⟩
    · exact faithful q c hc
    · exact ⟨hk, inside⟩

theorem Shelved.isHashed_of_mem_names (s : Shelved lists seed r h) (hk : k ∈ r.names) :
    k.IsHashed seed := by
  obtain ⟨⟨key, i⟩, shown, rfl⟩ := List.mem_map.mp hk
  obtain ⟨j, -, hj⟩ := List.mem_filterMap.mp shown
  split at hj
  · rename_i he
    cases hj
    exact (s.housed.sound.hashed j _ he).trans (congrArg (Seed.hash · _) s.seed)
  · cases hj

theorem Shelved.faithful_indexNow (s : Shelved lists seed r h) (rec : Recorded lists seed r) :
    Faithful lists seed (r.indexNow lists seed) := by
  unfold indexNow
  split
  · exact rec.faithful (by assumption)
  · exact faithful_indexOf (fun k => s.isHashed_of_mem_names) fun q c hc => nomatch hc

/-- **Who is affected.**  The packages that are found are those that inherit. -/
theorem Shelved.isIn_affected_iff (s : Shelved lists seed r h) (indexed : Indexed lists seed r)
    (rec : Recorded lists seed r) (hk : k.IsHashed seed) :
    k.isIn (affected lists seed r package) = true ↔ Inherits (graph lists seed) package k :=
  isIn_descendants_iff (s.complete_indexNow indexed) (s.faithful_indexNow rec) hk

/-! ### Recording -/

theorem parents_recording (r : Registry) (package : Key) (parents : List Key) (k : Key) :
    ((r.recording package parents).profile k).parents = (r.profile k).parents := by
  rw [profile_recording]
  dsimp only
  split <;> split <;> rfl

/-- The children after a package has been recorded: those there were, but not the package where
it has lost a parent, and the package where it has gained one. -/
theorem mem_children_recording {parents : List Key} {c : Key}
    (hc : c ∈ ((r.recording package parents).profile q).children) :
    c ∈ (r.profile q).children ∧
        (package.same c = true → q.isIn (r.lostParents package parents) = false) ∨
      c = package ∧ q.isIn parents = true := by
  rw [profile_recording] at hc
  dsimp only at hc
  have left : c ∈ (if q.isIn (r.lostParents package parents) then
      withoutChild package (r.profile q) else r.profile q).children →
        c ∈ (r.profile q).children ∧
          (package.same c = true → q.isIn (r.lostParents package parents) = false) := by
    split
    · intro hc
      obtain ⟨hc, other⟩ := List.mem_filter.mp hc
      exact ⟨hc, fun same => by simp [same] at other⟩
    · rename_i out
      exact fun hc => ⟨hc, fun _ => by simpa using out⟩
  generalize (if q.isIn (r.lostParents package parents) then
      withoutChild package (r.profile q) else r.profile q) = p at hc left
  split at hc
  · unfold withChild at hc
    dsimp only at hc
    split at hc
    · exact .inl (left hc)
    · rcases List.mem_append.mp hc with hc | hc
      · exact .inl (left hc)
      · exact .inr ⟨List.mem_singleton.mp hc, by assumption⟩
  · exact .inl (left hc)

/-- **Noting the parents of a package.**  What was right before its list changed is right of the
list it has now. -/
theorem Recorded.noting (rec : Recorded lists seed r) (hp : package.IsHashed seed)
    (off : ∀ y, y ≠ package.letters → lists' y = lists y) :
    Recorded lists' seed (r.noting package (graph lists' seed package)) := by
  have elsewhere {k : Key} (hk : k.IsHashed seed) (other : ¬ package.same k = true) :
      graph lists' seed k = graph lists seed k := by
    unfold graph
    rw [off]
    exact fun letters => other (same_iff.mpr (hk.plain_eq hp letters).symm)
  have here {k : Key} (same : package.same k = true) :
      graph lists' seed package = graph lists' seed k := by
    unfold graph
    rw [letters_eq_of_same same]
  refine ⟨fun k hk => ?_, fun policy q c hc => ?_⟩
  · unfold Registry.noting
    rw [profile_remembering]
    split
    · exact here (by assumption)
    · rename_i other
      rw [elsewhere hk other]
      refine Eq.trans ?_ (rec.parents k hk)
      split
      · exact parents_recording ..
      · rfl
  · have policy : r.settings.policy = .incremental := by
      rw [← (records_noting r package (graph lists' seed package)).settings, policy]
    have hc : c ∈ ((r.recording package (graph lists' seed package)).profile q).children := by
      unfold Registry.noting at hc
      rw [if_pos policy, profile_remembering] at hc
      split at hc <;> exact hc
    rcases mem_children_recording hc with ⟨hc, stays⟩ | ⟨rfl, inside⟩
    · obtain ⟨hashed, inside⟩ := rec.children policy q c hc
      refine ⟨hashed, ?_⟩
      by_cases same : package.same c = true
      · -- the package is still a child where it has lost no parent
        obtain ⟨p, hp', same'⟩ := List.any_eq_true.mp inside
        rw [← here same, ← Bool.not_eq_false]
        intro out
        have lost : p ∈ r.lostParents package (graph lists' seed package) := by
          refine List.mem_filter.mpr ⟨?_, ?_⟩
          · rw [rec.parents package hp]
            unfold graph at hp' ⊢
            rwa [letters_eq_of_same same]
          · rw [← isIn_congr same', out]
            rfl
        have : q.isIn (r.lostParents package (graph lists' seed package)) = true := by
          rw [isIn_congr same']
          exact isIn_of_mem lost
        rw [stays same] at this
        cases this
      · rwa [elsewhere hashed same]
    · exact ⟨hp, inside⟩

end

end ScriptCore.Registry
