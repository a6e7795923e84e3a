import ScriptCore.Proofs.Package.Orderly
import ScriptCore.Proofs.Package.Transparency

/-!
# Package — under which names parents are found

A parent list holds texts, and its packages are named by their UTF-8 bytes, which are read one by
one.  So the parent that is found is not the package of the name that was written but the one of
the text with those bytes (`Text.bytewise`), and these are one exactly when the name is ASCII.

* `Fit.ends_isA`: asking whether a package is another tells whether it inherits from it.
* `setParents_finds`: whatever a host did with a new registry, a parent list reads back as the
  packages that its names spell by their bytes, and as parents these are found by everything that
  looks for parents.
* `accented_parent`: a package whose name is not ASCII is no parent where it was written as one.
-/

namespace ScriptCore.Registry
open Beside Key Lineage

/-- The package is found as a parent of another: it is in its lineages, the other is one, has a
method if the parent has, and forgets when the parents of the parent change. -/
structure FindsParent (name parent : String) (s : Beside Registry) : Prop where
  lineage : ∀ algorithm, Ends (linearizeBy algorithm name) s
    (fun l _ => (s.own.keyOf parent).isIn l.order = true) fun _ => True
  isA : Ends (isA name parent) s (fun b _ => b = true) fun t => ∃ e, linearize name s = .error e t
  method : ∀ method code, s.own.code? s.heap (.ofText parent) (.ofText method) = some code →
    Ends (resolve name method) s (fun found _ => ∃ m, found = some m ∧
      s.own.code? s.heap (.ofKey m.package) (.ofText method) = some m.code)
      fun t => ∃ e, linearize name s = .error e t
  child : ∀ list, Ends (setParents parent list) s
    (fun _ t => (s.own.profile (t.own.keyOf name)).Dropped (t.own.profile (t.own.keyOf name)))
    fun _ => False

section
variable {lists : Bytes × Bool → List String} {seed : Seed} {r : Registry} {h : Heap}
  {s t : Beside Registry} {stock : Bytes × Bool → Bytes × Bool → Option CellId}
  {held : List CellId} {k package : Key} {algorithm : Algorithm} {name parent : String}

/-! ### Names of packages -/

/-- A key stands for a package of its letters. -/
theorem Shelved.same_keyOf_iff (s : Shelved lists seed r h) (hashed : k.IsHashed seed)
    (name : String) :
    k.same (r.keyOf name) = true ↔ k.letters = (Spelling.ofText name).letters := by
  obtain ⟨hash, letters⟩ := s.keyOf name
  rw [← letters]
  exact ⟨letters_eq_of_same, fun e => same_iff.mpr (hashed.plain_eq hash e)⟩

/-- **Reading back.**  A name in a parent list stands for the package of its bytes. -/
theorem Shelved.same_probe_iff (s : Shelved lists seed r h) (name : String) :
    let read : Key := .probe (.ofBytes (Text.encode name)) seed
    read.same (r.keyOf (Text.bytewise name)) = true ∧
      (read.same (r.keyOf name) = true ↔ Text.isAscii name = true) := by
  intro read
  have hashed : read.IsHashed seed := rfl
  constructor
  · rw [s.same_keyOf_iff hashed, Spelling.letters_bytewise]
    rfl
  · rw [s.same_keyOf_iff hashed, ← Spelling.letters_eq_encode_iff]
    exact eq_comm

theorem Shelved.graph_keyOf (s : Shelved lists seed r h) (name : String) :
    graph lists seed (r.keyOf name) = (lists (Spelling.ofText name).letters).map
      fun n => .probe (.ofBytes (Text.encode n)) seed := by
  unfold graph
  rw [(s.keyOf name).2]

/-- A package inherits from those that its list spells. -/
theorem Shelved.inherits (s : Shelved lists seed r h)
    (listed : parent ∈ lists (Spelling.ofText name).letters) :
    Inherits (graph lists seed) (r.keyOf (Text.bytewise parent)) (r.keyOf name) := by
  refine .parent (q := .probe (.ofBytes (Text.encode parent)) seed) ?_ ?_
  · rw [s.graph_keyOf]
    exact List.mem_map_of_mem listed
  · exact .self (s.same_probe_iff parent).1

/-! ### Asking -/

/-- A lineage that was given is remembered. -/
theorem ends_linearizeWithin (algorithm : Algorithm) (levels : Nat) (package : Key)
    (s : Beside Registry) : Ends (Registry.linearizeWithin algorithm levels package) s
      (fun l t => (t.own.profile package).lineage? algorithm = some l) fun _ => True := by
  cases levels with
  | zero => exact trivial
  | succ levels =>
    refine yields_linearizeWithin (F := fun _ _ => True) (fun _ => id) (fun _ => trivial)
      fun _ _ => (Ends.error.yields).imp (fun order t _ => ?_) fun _ _ _ => trivial
    rw [record, profile_remembering, if_pos (same_refl package), Profile.lineage?_keep_eq,
      if_pos rfl]

/-- **Asking whether a package is another** tells whether it inherits from it. -/
theorem Fit.ends_isA (fit : Fit lists seed s) (o : s.own.Orderly) (name ancestor : String) :
    Ends (Registry.isA name ancestor) s (fun b _ => b = true ↔
      (s.own.keyOf ancestor).same (lastKey seed) = true ∨
        Inherits (graph lists seed) (s.own.keyOf ancestor) (s.own.keyOf name))
      fun t => ∃ e, linearize name s = .error e t := by
  have regular := fit.1.isRegular_keyOf name
  unfold Registry.isA
  refine Ends.self ?_
  dsimp only
  split
  · rename_i same
    exact iff_of_true rfl (.inr (.self same))
  split
  · -- the lineage is computed, and remembered with its packages
    have computed : Ends (discard (Registry.linearizeKey s.own.settings.algorithm
        (s.own.keyOf name))) s (fun _ t => Fit lists seed t ∧
          (t.own.profile (s.own.keyOf name)).Sane ∧
            (t.own.profile (s.own.keyOf name)).hasLineage = true)
        fun t => ∃ e, linearize name s = .error e t := by
      have advances := (keeps_linearizeKey s.own.settings.algorithm (s.own.keyOf name)).ends
        (.refl fun k => (o k).toSane)
      have remembered := ends_linearizeWithin s.own.settings.algorithm
        (s.own.settings.limit + 1) (s.own.keyOf name) s
      have right := (Fit.linearizeKey s.own.settings.algorithm (fit.1.keyOf name).1).ends fit
      refine Ends.bind (((right.and advances).and (remembered.and Ends.error)).imp
        (fun _ _ => id) fun t q => linearize_eq name s ▸ q.2.2) ?_
      rintro l t ⟨⟨⟨fit, -⟩, a⟩, hl, -⟩
      exact ⟨fit, a.sane _, Profile.hasLineage_iff.mpr ⟨_, l, hl⟩⟩
    refine computed.bind ?_
    rintro - t ⟨fit, sane, has⟩
    refine Ends.self ?_
    rw [← sane.isSome] at has
    obtain ⟨as, has⟩ := Option.isSome_iff_exists.mp has
    rw [has]
    exact fit.isIn_ancestors sane regular has
  · rename_i known
    obtain ⟨as, has⟩ := Option.ne_none_iff_exists'.mp known
    refine Ends.self ?_
    rw [has]
    exact fit.isIn_ancestors (o _).toSane regular has

/-! ### Finding a parent -/

/-- Code that a package of the lineage has is found, or other code before it. -/
theorem IsAnswer.of_inherits {method : Bytes × Bool} {found : Option Method} {code : CellId}
    (is : IsAnswer lists seed stock algorithm package method found)
    (regular : IsRegular seed package) (inherits : Inherits (graph lists seed) k package)
    (has : stock k.letters method = some code) :
    ∃ m, found = some m ∧ stock m.package.letters method = some m.code := by
  obtain ⟨order, is, first⟩ := is
  obtain ⟨q, hq, same⟩ := List.any_eq_true.mp ((is.isIn_iff regular).mpr (.inr inherits))
  rw [letters_eq_of_same same] at has
  cases seen : order.findSome? fun q => (stock q.letters method).map (·, q.letters) with
  | none =>
    have absent := List.findSome?_eq_none_iff.mp seen q hq
    rw [has] at absent
    cases absent
  | some pair =>
    rw [seen] at first
    obtain ⟨m, rfl, hm⟩ := Option.map_eq_some_iff.mp first
    obtain ⟨p, -, hp⟩ := List.exists_of_findSome?_eq_some seen
    obtain ⟨c, hc, rfl⟩ := Option.map_eq_some_iff.mp hp
    obtain ⟨code, letters⟩ := Prod.mk.inj hm
    exact ⟨m, rfl, by rw [letters, code, hc]⟩

/-- **A parent is found** by everything that looks for parents. -/
theorem Hosted.findsParent (hosted : Hosted lists seed held s) (o : s.own.Orderly)
    (listed : parent ∈ lists (Spelling.ofText name).letters) :
    FindsParent name (Text.bytewise parent) s := by
  obtain ⟨tracked, stock, a⟩ := hosted
  have fit := tracked.1
  have inherits := fit.1.inherits listed
  have regular := fit.1.isRegular_keyOf name
  refine ⟨fun algorithm => ?_, ?_, fun method code has => ?_, fun list => ?_⟩
  · refine (Fit.linearizeBy algorithm name fit).imp ?_ fun _ _ => trivial
    rintro l t ⟨-, is⟩
    exact (is.isIn_iff regular).mpr (.inr inherits)
  · exact (fit.ends_isA o name _).imp (fun _ _ iff => iff.mpr (.inr inherits)) fun _ => id
  · rw [a.1.code? fit.1] at has
    refine (a.resolve fit name method).imp ?_ fun t q => linearize_eq name s ▸ q.2
    rintro found t ⟨-, -, is⟩
    rw [← (fit.1.keyOf _).2] at has
    obtain ⟨m, rfl, hm⟩ := is.of_inherits regular inherits has
    exact ⟨m, rfl, by rw [a.1.code? fit.1]; exact hm⟩
  · -- the lists are others, but the package still inherits or is the parent itself
    refine (tracked.setParents (Text.bytewise parent) list).imp ?_ fun _ => id
    rintro n t ⟨tracked', affected, -, i⟩
    have shelved := tracked'.1.1
    refine i.dropped _ ((i.heirs _ (shelved.keyOf name).1).mpr ?_)
    by_cases own : (Spelling.ofText name).letters = (Spelling.ofText (Text.bytewise parent)).letters
    · rw [Spelling.ofText_letters_inj own]
      exact .self (same_refl _)
    · refine shelved.inherits ?_
      rw [Function.update_of_ne own]
      exact listed

/-! ### Runs -/

/-- What is remembered stays in order, whatever a host does. -/
theorem orderly_act (o : s.own.Orderly) (held : List CellId) (op : Op) :
    Ends (op.act held) s (fun _ t => t.own.Orderly) fun t => t.own.Orderly := by
  have performed : Ends op.perform s (fun _ t => t.own.Orderly) fun t => t.own.Orderly :=
    (Move.ends_perform o (.op op)).imp (fun _ _ => id) fun _ a => a.orderly o
  cases op with
  | newCode | removeMethod | resolve | resolveSuper =>
    exact performed.of_discard.bind fun _ _ o => o
  | letGo code =>
    show Ends (if code ∈ held then _ else _) s _ _
    split
    · exact performed.bind fun _ _ o => o
    · exact o
  | _ => exact performed.bind fun _ _ o => o

theorem Host.orderly_run {host : Host} (o : host.state.own.Orderly) (ops : List Op) :
    (host.run ops).state.own.Orderly := by
  induction ops generalizing host with
  | nil => exact o
  | cons op ops ih =>
    exact ih (Host.ends_step (P := fun _ t => t.own.Orderly) (orderly_act o host.held op))

end

/-- **Parents are found under the names their bytes spell.**  Whatever a host did with a new
registry, a parent list can be written.  It reads back as the packages that the bytes of its names
spell one by one, which are the named packages exactly where the names are ASCII.  As soon as the
registry is told, these are found as parents by everything that looks for parents. -/
theorem setParents_finds (seeds : Array Seed) (supply : Supply) (pool : Nat) (settings : Settings)
    (ops : List Op) (name : String) (list : List String) :
    let s := ((Host.start seeds supply pool settings).run ops).state
    Ends (writeParents name list) s (fun _ t =>
      ∃ read, t.own.parents (t.own.keyOf name) t.heap = .ok read t.heap ∧
        List.Forall₂ (fun n k => k.same (t.own.keyOf (Text.bytewise n)) = true ∧
          (k.same (t.own.keyOf n) = true ↔ Text.isAscii n = true)) list read) (fun _ => False) ∧
    Ends (setParents name list) s (fun _ t => ∀ n ∈ list, FindsParent name (Text.bytewise n) t ∧
      (Text.bytewise n = n ↔ Text.isAscii n = true)) fun _ => False := by
  intro s
  obtain ⟨lists, tracked, stock, a⟩ := (hosted_start seeds supply pool settings).run ops
  have o : s.own.Orderly := Host.orderly_run (orderly_start seeds supply pool settings) ops
  have listed (lists : Bytes × Bool → List String) : Function.update lists
      (Spelling.ofText name).letters list (Spelling.ofText name).letters = list :=
    Function.update_self ..
  constructor
  · refine (tracked.1.1.writeParents name list).imp ?_ fun _ => id
    rintro - t ⟨shelved, -⟩
    refine ⟨_, shelved.parents _, ?_⟩
    rw [shelved.graph_keyOf, listed, List.forall₂_map_right_iff, List.forall₂_same]
    exact fun n _ => shelved.same_probe_iff n
  · have told := (tracked.setParents name list).and (Answered.setParents name list tracked a)
    have ordered := (Move.ends_perform o (.op (.setParents name list))).of_discard
    refine (told.and ordered).imp ?_ fun _ q => q.1.1
    rintro - t ⟨⟨⟨tracked, -⟩, a⟩, o⟩
    intro n hn
    have hosted : Hosted _ _ _ t := ⟨tracked, stock, a⟩
    refine ⟨hosted.findsParent o ?_, Spelling.bytewise_eq_iff⟩
    rw [listed]
    exact hn

/-- Which packages of a parent list are the given one. -/
def parentsAre? (name parent : String) (s : Beside Registry) : Option (List Bool) :=
  match s.own.parents (s.own.keyOf name) s.heap with
  | .ok list _ => some (list.map (·.same (s.own.keyOf parent)))
  | .error .. => none

/-- What an operation gives, if it does not fail. -/
def given? {α : Type} (x : OnRegistry α) (s : Beside Registry) : Option α :=
  match x s with
  | .ok a _ => some a
  | .error .. => none

/-- **A name that is not ASCII.**  The package `é` is defined and written as a parent.  What reads
back is another package, and `é` is no parent. -/
theorem accented_parent :
    let s := ((Host.start #[] {} 0 {}).run [.define "é"]).state
    let written := after (writeParents "B" ["é"]) s
    let told := after (setParents "B" ["é"]) s
    s.own.isDefined (.ofText "é") = true ∧ given? (writeParents "B" ["é"]) s = some () ∧
      parentsAre? "B" "é" written = some [false] ∧ given? (isA "B" "é") told = some false :=
  ⟨by decide +kernel, by decide +kernel, by decide +kernel, by decide +kernel⟩

end ScriptCore.Registry
