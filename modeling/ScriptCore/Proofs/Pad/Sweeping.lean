import ScriptCore.Proofs.Heap.Survival
import ScriptCore.Proofs.Pad.Handles

/-!
# Pad — what a sweep removes

An activation that goes lets go of its cells; code cells may go with them, and so the activations
that were made for those may be swept too.  Whether one may, with the activations of `gone` out, is
`Orphaned`.  A sweep that takes one such activation after the other (`InTurn`) never takes one that
has to stay, as fewer cells are alive the more activations are out (`Balanced.alive_without_mono`);
so in whatever order it goes it stays within every set that leaves none to sweep (`InTurn.subset`),
and when none is left it has removed the least such set.

* `run_sweep`: at any time of any run a sweep comes to an end, with any number of rounds that is at
  least that of live activations.  It removes the least set that leaves none to sweep, counts it and
  leaves everything else as it is (`Sweeps`), and another sweep finds nothing.
-/

namespace ScriptCore.Pads
open Beside

/-- The cells of the activation of a handle; a stale handle has none. -/
def cellsAt (p : Pads) (id : ActivationId) : List CellId := cellsOf (p.activation? id)

/-- The heap after activations have let go of their cells, one after the other. -/
def without (s : Beside Pads) (gone : List ActivationId) : Heap :=
  s.heap.letGo (gone.flatMap s.own.cellsAt)

/-- With the activations of `gone` out, the activation is still there, serves no call, and the code
cell it was made for has gone. -/
def Orphaned (s : Beside Pads) (gone : List ActivationId) (id : ActivationId) : Prop :=
  id ∉ gone ∧ ∃ a o, s.own.activation? id = some a ∧ a.depth = 0 ∧ a.owner = some o ∧
    (without s gone).isAlive o = false

/-- Live activations, each once, that leave none to sweep when they are out. -/
structure Closed (s : Beside Pads) (gone : List ActivationId) : Prop where
  distinct : gone.Nodup
  live : gone ⊆ s.own.handles
  none_left : ∀ id, ¬ Orphaned s gone id

/-- Each activation may be swept when its turn comes. -/
inductive InTurn (s : Beside Pads) : List ActivationId → Prop
  | nil : InTurn s []
  | snoc {gone : List ActivationId} {id : ActivationId} (before : InTurn s gone)
      (orphaned : Orphaned s gone id) : InTurn s (gone ++ [id])

/-- The activations of `gone` went one after the other when they could be swept, and nothing else
happened. -/
structure Removed (s t : Beside Pads) (gone : List ActivationId) : Prop where
  heap : t.heap = without s gone
  units : t.own.units = s.own.units
  activations : ∀ id, t.own.activation? id = if id ∈ gone then none else s.own.activation? id
  inTurn : InTurn s gone

/-- The activations of `gone` were swept: they are the least set that leaves none to sweep, and the
one that is swept in any other order; what serves a call, was made for no code cell or for one that
is alive is still there. -/
structure Sweeps (s t : Beside Pads) (gone : List ActivationId) : Prop extends
    Removed s t gone where
  closed : Closed s gone
  least : ∀ other, Closed s other → gone ⊆ other
  unique : ∀ other, InTurn s other → (∀ id, ¬ Orphaned s other id) → other.Perm gone
  spares : ∀ id a, s.own.activation? id = some a →
    (a.depth ≠ 0 ∨ a.owner = none ∨ ∃ o, a.owner = some o ∧ t.heap.isAlive o = true) →
      t.own.activation? id = some a

section
variable {h₀ : Heap} {held : List CellId} {s t : Beside Pads} {p : Pads} {id : ActivationId}
  {gone more ids : List ActivationId} {i : CellId}

/-! ### Fewer cells are alive the more activations are out -/

theorem held_eq (p : Pads) : p.held = p.handles.flatMap p.cellsAt := by
  have places : p.places.toList = p.places.toList.zipIdx.map Prod.fst :=
    (List.zipIdx_map_fst ..).symm
  unfold held handles
  rw [List.filterMap_eq_flatMap_toList, List.flatMap_assoc]
  conv_lhs => rw [places, List.flatMap_map]
  refine List.flatMap_congr fun x hx => ?_
  obtain ⟨place, index⟩ := x
  have hp : p.places[index]? = some place := by
    rwa [List.mem_zipIdx_iff_getElem?, Array.getElem?_toList] at hx
  cases ha : place.activation with
  | none => simp [ha, cellsOf]
  | some a => simp [ha, cellsOf, cellsAt, activation?, hp]

/-- Live activations, and the others. -/
theorem perm_handles (distinct : gone.Nodup) (live : gone ⊆ p.handles) :
    (gone ++ p.handles.filter (· ∉ gone)).Perm p.handles := by
  have parts := List.filter_append_perm (· ∈ gone) p.handles
  simp only [← decide_not] at parts
  refine (List.Perm.append_right _ ?_).trans parts
  refine (List.perm_ext_iff_of_nodup distinct ((nodup_handles p).filter _)).mpr fun x => ?_
  rw [List.mem_filter, decide_eq_true_iff]
  exact ⟨fun hx => ⟨live hx, hx⟩, And.right⟩

/-- What activations hold, and what is held by others. -/
theorem Balanced.parted (b : Balanced h₀ held s) (distinct : gone.Nodup)
    (live : gone ⊆ s.own.handles) : Heap.Kept h₀ (gone.flatMap s.own.cellsAt ++
      (held ++ (s.own.handles.filter (· ∉ gone)).flatMap s.own.cellsAt)) s.heap := by
  refine b.kept.perm ?_
  rw [held_eq, ← List.append_assoc]
  refine List.Perm.trans ?_ (List.perm_append_comm.append_right _)
  rw [List.append_assoc, ← List.flatMap_append]
  exact ((perm_handles distinct live).symm.flatMap_right _).append_left _

/-- **Fewer cells are alive** the more activations are out. -/
theorem Balanced.alive_without_mono (b : Balanced h₀ held s) (distinct : more.Nodup)
    (live : more ⊆ s.own.handles) (fewer : gone.Nodup) (sub : gone ⊆ more)
    (alive : (without s more).isAlive i = true) : (without s gone).isAlive i = true := by
  refine (b.parted distinct live).alive_letGo_mono (b.parted fewer (List.Subset.trans sub live))
    ?_ alive
  refine List.append_subset.mpr ⟨List.subset_append_left _ _, fun j hj => ?_⟩
  obtain ⟨x, hx, hj⟩ := List.mem_flatMap.mp hj
  obtain ⟨there, out⟩ := List.mem_filter.mp hx
  refine List.mem_append_right _ (List.mem_flatMap.mpr ⟨x, List.mem_filter.mpr ⟨there, ?_⟩, hj⟩)
  rw [decide_eq_true_iff] at out ⊢
  exact fun hx => out (sub hx)

theorem Orphaned.live (o : Orphaned s gone id) : id ∈ s.own.handles := by
  obtain ⟨-, a, _, ha, -⟩ := o
  exact mem_handles.mpr ⟨a, ha⟩

/-- An activation that may be swept may be swept later. -/
theorem Balanced.orphaned_mono (b : Balanced h₀ held s) (distinct : more.Nodup)
    (live : more ⊆ s.own.handles) (fewer : gone.Nodup) (sub : gone ⊆ more)
    (o : Orphaned s gone id) (not : id ∉ more) : Orphaned s more id := by
  obtain ⟨-, a, owner, ha, depth, made, dead⟩ := o
  refine ⟨not, a, owner, ha, depth, made, ?_⟩
  rw [← Bool.not_eq_true] at dead ⊢
  exact fun alive => dead (b.alive_without_mono distinct live fewer sub alive)

/-! ### One after the other -/

theorem InTurn.nodup (turn : InTurn s gone) : gone.Nodup := by
  induction turn with
  | nil => exact .nil
  | snoc before o ih =>
    refine List.nodup_append.mpr ⟨ih, List.nodup_singleton _, fun x hx y hy e => o.1 ?_⟩
    rwa [← List.mem_singleton.mp hy, ← e]

theorem InTurn.live (turn : InTurn s gone) : gone ⊆ s.own.handles := by
  induction turn with
  | nil => exact List.nil_subset _
  | snoc before o ih =>
    exact List.append_subset.mpr ⟨ih, List.cons_subset.mpr ⟨o.live, List.nil_subset _⟩⟩

/-- **Whatever is swept in turn** is in every set that leaves none to sweep. -/
theorem InTurn.subset (turn : InTurn s gone) (b : Balanced h₀ held s) (closed : Closed s more) :
    gone ⊆ more := by
  induction turn with
  | nil => exact List.nil_subset _
  | @snoc gone id before o ih =>
    refine List.append_subset.mpr ⟨ih, List.cons_subset.mpr ⟨?_, List.nil_subset _⟩⟩
    by_contra not
    exact closed.none_left id
      (b.orphaned_mono closed.distinct closed.live before.nodup ih o not)

/-- What is swept in turn until none is left. -/
theorem InTurn.closed (turn : InTurn s gone) (none : ∀ id, ¬ Orphaned s gone id) :
    Closed s gone := ⟨turn.nodup, turn.live, none⟩

/-- What was swept served no call, and the code cell it was made for is not alive any more. -/
theorem InTurn.dead (turn : InTurn s gone) (b : Balanced h₀ held s) (mem : id ∈ gone) :
    ∃ a o, s.own.activation? id = some a ∧ a.depth = 0 ∧ a.owner = some o ∧
      (without s gone).isAlive o = false := by
  -- it could be swept when some of the others had gone, and then all went
  suffices early : ∀ some, InTurn s some → some ⊆ gone → id ∈ some →
      ∃ first, first.Nodup ∧ first ⊆ gone ∧ Orphaned s first id by
    obtain ⟨first, fewer, sub, -, a, owner, ha, depth, made, dead⟩ :=
      early gone turn (List.Subset.refl _) mem
    refine ⟨a, owner, ha, depth, made, ?_⟩
    rw [← Bool.not_eq_true] at dead ⊢
    exact fun alive => dead (b.alive_without_mono turn.nodup turn.live fewer sub alive)
  intro some turn sub mem
  induction turn with
  | nil => cases mem
  | snoc before o ih =>
    rw [List.append_subset] at sub
    rcases List.mem_append.mp mem with there | here
    · exact ih sub.1 there
    · exact ⟨_, before.nodup, sub.1, List.mem_singleton.mp here ▸ o⟩

theorem Removed.refl (s : Beside Pads) : Removed s s [] where
  heap := (Heap.letGo_nil _).symm
  units := rfl
  activations _ := (if_neg List.not_mem_nil).symm
  inTurn := .nil

theorem Removed.mem_handles_iff (r : Removed s t gone) :
    id ∈ t.own.handles ↔ id ∈ s.own.handles ∧ id ∉ gone := by
  rw [mem_handles, mem_handles, r.activations]
  by_cases out : id ∈ gone <;> simp [out]

theorem Removed.orphaned_iff (r : Removed s t gone) :
    t.own.isOrphan t.heap id = true ↔ Orphaned s gone id := by
  unfold isOrphan Orphaned
  rw [r.activations, r.heap]
  by_cases out : id ∈ gone
  · simp [out]
  · cases ha : s.own.activation? id with
    | none => simp [out]
    | some a =>
      cases made : a.owner with
      | none => simp [out, made]
      | some o => simp [out, made]

/-- Activations that are left and those that went. -/
theorem Removed.length (r : Removed s t gone) :
    t.own.handles.length + gone.length = s.own.handles.length := by
  have left : t.own.handles.Perm (s.own.handles.filter (· ∉ gone)) := by
    refine (List.perm_ext_iff_of_nodup (nodup_handles _) ((nodup_handles _).filter _)).mpr ?_
    intro x
    rw [r.mem_handles_iff, List.mem_filter, decide_eq_true_iff]
  have parts := (perm_handles r.inTurn.nodup r.inTurn.live).length_eq
  rw [List.length_append, ← left.length_eq] at parts
  rw [Nat.add_comm, parts]

/-- **One activation** is released. -/
theorem Removed.release (r : Removed s t gone) (o : Orphaned s gone id) :
    Ends (release id) t (fun _ u => Removed s u (gone ++ [id])) fun _ => False := by
  have still : t.own.activation? id = s.own.activation? id := by rw [r.activations, if_neg o.1]
  refine Ends.bind ((ends_remove id t).imp (fun _ _ q => q) ?_) ?_
  · rintro _ ⟨-, none⟩
    obtain ⟨-, a, _, ha, -⟩ := o
    cases none.symm.trans (still.trans ha)
  · rintro _ u ⟨heap, a, rfl, w⟩
    have cells : s.own.cellsAt id = a.cells := by rw [cellsAt, ← still, w.before]; rfl
    refine ⟨?_, w.units.trans r.units, fun x => ?_, r.inTurn.snoc o⟩
    · show u.heap.letGo a.cells = _
      rw [heap, r.heap, without, without, List.flatMap_append, Heap.letGo_append,
        List.flatMap_singleton, cells]
    · show u.own.activation? x = _
      by_cases here : x = id
      · rw [here, w.after, if_pos (by simp)]
      · rw [w.others x here, r.activations]
        simp [here]

/-- Those that may be swept are released, one after the other. -/
theorem Removed.releases (r : Removed s t gone) (b : Balanced h₀ held s) (distinct : ids.Nodup)
    (orphaned : ∀ id ∈ ids, Orphaned s gone id) :
    Ends (ids.forM Pads.release) t (fun _ u => Removed s u (gone ++ ids)) fun _ => False := by
  induction ids generalizing t gone with
  | nil =>
    rw [List.append_nil]
    exact r
  | cons id ids ih =>
    obtain ⟨apart, distinct⟩ := List.nodup_cons.mp distinct
    have first := orphaned id List.mem_cons_self
    refine Ends.bind (r.release first) fun _ u r' => ?_
    have rest := ih r' distinct fun x hx => ?_
    · rwa [List.append_assoc] at rest
    · have o := orphaned x (List.mem_cons_of_mem _ hx)
      refine b.orphaned_mono r'.inTurn.nodup r'.inTurn.live r.inTurn.nodup
        (List.subset_append_left _ _) o fun mem => ?_
      rcases List.mem_append.mp mem with out | here
      · exact o.1 out
      · exact apart (List.mem_singleton.mp here ▸ hx)

/-! ### Rounds -/

/-- Activations that may be swept now. -/
theorem Removed.orphans (r : Removed s t gone) :
    ∀ id ∈ t.own.handles.filter (t.own.isOrphan t.heap), Orphaned s gone id :=
  fun _ hid => r.orphaned_iff.mp (List.mem_filter.mp hid).2

/-- **Rounds.**  As many as there are live activations are enough to sweep until none is left to
sweep, and more make no difference. -/
theorem Removed.rounds (r : Removed s t gone) (b : Balanced h₀ held s) :
    ∃ more u, Removed s u (gone ++ more) ∧ (∀ id, ¬ Orphaned s (gone ++ more) id) ∧
      ∀ rounds, t.own.handles.length ≤ rounds → sweepWithin rounds t = .ok more.length u := by
  induction left : t.own.handles.length using Nat.strong_induction_on generalizing t gone with
  | _ n ih =>
    by_cases idle : t.own.handles.filter (t.own.isOrphan t.heap) = []
    · refine ⟨[], t, by rwa [List.append_nil], fun id o => ?_, fun rounds _ => ?_⟩
      · rw [List.append_nil] at o
        have live : id ∈ t.own.handles := r.mem_handles_iff.mpr ⟨o.live, o.1⟩
        have mem := List.mem_filter.mpr ⟨live, r.orphaned_iff.mpr o⟩
        rw [idle] at mem
        cases mem
      · cases rounds with
        | zero => rfl
        | succ rounds =>
          unfold sweepWithin
          rw [self_bind]
          exact (bind_ok rfl).trans (by rw [if_pos idle]; rfl)
    · -- one is released at least, so the other rounds have fewer to deal with
      obtain ⟨_, u, released, r'⟩ :=
        (r.releases b ((nodup_handles _).filter _) r.orphans).succeeds
      have fewer := r'.length
      have before := r.length
      rw [List.length_append] at fewer
      have some := List.length_pos_of_ne_nil idle
      obtain ⟨more, v, swept, none, enough⟩ := ih u.own.handles.length (by omega) r' rfl
      rw [List.append_assoc] at swept none
      refine ⟨_, v, swept, none, fun rounds le => ?_⟩
      obtain ⟨rounds, rfl⟩ : ∃ k, rounds = k + 1 := ⟨rounds - 1, by omega⟩
      unfold sweepWithin
      rw [self_bind]
      refine (bind_ok rfl).trans ?_
      rw [if_neg idle, bind_ok released, bind_ok (enough rounds (by omega)), List.length_append]
      rfl

theorem Removed.sweeps (r : Removed s t gone) (b : Balanced h₀ held s)
    (none : ∀ id, ¬ Orphaned s gone id) : Sweeps s t gone where
  toRemoved := r
  closed := r.inTurn.closed none
  least _ := r.inTurn.subset b
  unique other turn all := (List.perm_ext_iff_of_nodup turn.nodup r.inTurn.nodup).mpr fun _ =>
    ⟨fun hid => turn.subset b (r.inTurn.closed none) hid,
      fun hid => r.inTurn.subset b (turn.closed all) hid⟩
  spares id a ha busy := by
    rw [r.activations]
    by_cases out : id ∈ gone
    · obtain ⟨a', o, ha', depth, made, dead⟩ := r.inTurn.dead b out
      cases ha.symm.trans ha'
      rcases busy with serves | unmade | ⟨o', made', alive⟩
      · exact absurd depth serves
      · cases made.symm.trans unmade
      · cases made.symm.trans made'
        rw [r.heap, dead] at alive
        cases alive
    · rw [if_neg out, ha]

/-- **A sweep** comes to an end, and another one finds nothing. -/
theorem Balanced.sweeps (b : Balanced h₀ held s) (tallies : s.own.Tallies) :
    ∃ gone t, sweep s = .ok gone.length t ∧ Sweeps s t gone ∧ sweep t = .ok 0 t ∧
      ∀ rounds, s.own.live ≤ rounds → sweepWithin rounds s = .ok gone.length t := by
  obtain ⟨gone, t, r, none, enough⟩ := (Removed.refl s).rounds b
  rw [List.nil_append] at r none
  rw [← tallies.live] at enough
  refine ⟨gone, t, enough _ (Nat.le_refl _), r.sweeps b none, ?_, enough⟩
  have idle : t.own.handles.filter (t.own.isOrphan t.heap) = [] := by
    refine List.filter_eq_nil_iff.mpr fun id _ orphan => none id (r.orphaned_iff.mp orphan)
  unfold sweep
  rw [self_bind]
  cases t.own.live with
  | zero => rfl
  | succ rounds =>
    unfold sweepWithin
    rw [self_bind]
    exact (bind_ok rfl).trans (by rw [if_pos idle]; rfl)

end

/-- **Sweeping, at any time of any run.**  A sweep comes to an end, however many more rounds it may
take than there are live activations; it removes the least set of activations that leaves none to
sweep, and counts it; and another sweep right after it removes nothing. -/
theorem run_sweep (seeds : Array Seed) (supply : Supply) (pool : Nat) (ops : List Op) :
    let s := reached seeds supply pool ops
    ∃ gone t, sweep s = .ok gone.length t ∧ Sweeps s t gone ∧ sweep t = .ok 0 t ∧
      ∀ rounds, s.own.live ≤ rounds → sweepWithin rounds s = .ok gone.length t := by
  intro s
  have b := balanced_start seeds supply pool
  exact (b.run ops).sweeps (b.tallies_run (tallies_start seeds supply pool) ops)

end ScriptCore.Pads
