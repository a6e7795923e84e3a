import ScriptCore.Proofs.Pad.Outlines
import ScriptCore.Proofs.Pad.Refusals

/-!
# Pad — duplicate declarations

Who compiles units sees how each operation ends, and can keep a book with an outline of every unit.
As long as every scope that is left is one that the book has as open, the units stay as the book has
them, whatever else is compiled and run in between.

* `Drawn.perform`: a directive changes the units as the book is changed.
* `run_reports`: so a declaration is reported exactly if the book has one in the innermost scope of
  the unit that clashes with it.
-/

namespace ScriptCore.Pads
open Beside Key

/-- What is written down of a directive, by how it ends. -/
def Directive.noted (book : Nat → Outline) (s : Beside Pads) : Directive → Nat → Outline
  | declare u name sigil declarator =>
    match Pads.declare u name sigil declarator s with
    | .ok _ _ => Function.update book u ((book u).declare ⟨name, sigil, declarator⟩)
    | .error _ _ => book
  | enterScope u =>
    match Pads.enterScope u s with
    | .ok mark _ => Function.update book u ((book u).enter mark)
    | .error _ _ => book
  | leaveScope mark =>
    match Pads.leaveScope mark s with
    | .ok _ _ => Function.update book mark.unit ((book mark.unit).leave mark)
    | .error _ _ => book
  | _ => book

/-- Every unit is as the book has it, and the book has nothing of units that are not there. -/
structure Drawn (seed : Seed) (book : Nat → Outline) (p : Pads) : Prop where
  unit : ∀ (u : Nat) (x : CodeUnit), p.units[u]? = some x → x.Draws seed u (book u)
  blank : ∀ u : Nat, p.units[u]? = none → book u = {}

section
variable {seed : Seed} {book : Nat → Outline} {p q : Pads} {s : Beside Pads} {u o slot : Nat}
  {x y : CodeUnit} {name : Key} {sigil : Sigil} {found : Nat × Pads}

/-! ### Units -/

theorem Drawn.of_units (h : Drawn seed book p) (units : q.units = p.units) : Drawn seed book q :=
  ⟨fun u x hx => h.unit u x (units ▸ hx), fun u hu => h.blank u (units ▸ hu)⟩

/-- One unit changes, and its outline with it. -/
theorem Drawn.update (h : Drawn seed book p) (hx : p.units[u]? = some x) {outline : Outline}
    (draws : y.Draws seed u outline) (units : q.units = p.units.setIfInBounds u y) :
    Drawn seed (Function.update book u outline) q where
  unit v z hz := by
    rw [units, Array.getElem?_setIfInBounds] at hz
    by_cases here : u = v
    · subst here
      rw [if_pos rfl, if_pos (Array.getElem?_eq_some_iff.mp hx).1] at hz
      cases hz
      rwa [Function.update_self]
    · rw [if_neg here] at hz
      rw [Function.update_of_ne (Ne.symm here)]
      exact h.unit v z hz
  blank v hv := by
    rw [units, Array.getElem?_eq_none_iff, Array.size_setIfInBounds,
      ← Array.getElem?_eq_none_iff] at hv
    rw [Function.update_of_ne (by rintro rfl; cases hx.symm.trans hv)]
    exact h.blank v hv

theorem Drawn.modify (h : Drawn seed book p) (hx : p.units[u]? = some x) {outline : Outline}
    {f : CodeUnit → CodeUnit} (units : q.units = p.units.modify u f)
    (draws : (f x).Draws seed u outline) : Drawn seed (Function.update book u outline) q :=
  h.update hx draws (units.trans (units_modify hx f))

/-- One unit changes, but for its outline. -/
theorem Drawn.set (h : Drawn seed book p) (hx : p.units[u]? = some x)
    (draws : y.Draws seed u (book u)) (units : q.units = p.units.setIfInBounds u y) :
    Drawn seed book q := by
  have set := h.update hx draws units
  rwa [Function.update_eq_self] at set

/-- A unit is opened. -/
theorem Drawn.push (h : Drawn seed book p) (slots : x.slots = []) (scopes : x.scopes = [])
    (units : q.units = p.units.push x) : Drawn seed book q where
  unit v z hz := by
    rcases units_push_cases (units ▸ hz) with ⟨rfl, rfl⟩ | hz
    · rw [h.blank _ (Array.getElem?_eq_none (Nat.le_refl _))]
      exact .empty slots scopes
    · exact h.unit v z hz
  blank v hv := by
    rw [units, Array.getElem?_eq_none_iff, Array.size_push] at hv
    exact h.blank v (Array.getElem?_eq_none (Nat.le_of_succ_le hv))

theorem Drawn.standIn (h : Drawn seed book p) (e : p.standIn u o name sigil slot = some found) :
    Drawn seed book found.2 := by
  rcases pads_of_standIn e with same | ⟨x, m, hx, added⟩
  · exact same ▸ h
  · have draws := (h.unit u x hx).aside (y := x.standingFor m slot) rfl rfl (.aside (.inl rfl))
    exact h.set hx draws (congrArg Pads.units added)

/-! ### Directives that declare nothing -/

theorem Drawn.keeps_changeUnit (u : Nat) {f : CodeUnit → CodeUnit}
    (draws : ∀ x, x.Draws seed u (book u) → (f x).Draws seed u (book u)) :
    Keeps (fun s : Beside Pads => Drawn seed book s.own) (changeUnit u f) := by
  refine Keeps.changeSelf (P := Drawn seed book) fun p h => ?_
  cases hx : p.units[u]? with
  | none => exact h.of_units (units_modify_of_none hx f)
  | some x => exact h.set hx (draws x (h.unit u x hx)) (units_modify hx f)

theorem Drawn.keeps_advance : Keeps (fun s : Beside Pads => Drawn seed book s.own) advance := by
  refine Keeps.bind (Keeps.changeSelf (P := Drawn seed book) fun p h => ?_) fun _ =>
    Keeps.self.bind fun _ => Keeps.pure _
  exact h.of_units rfl

theorem Drawn.keeps_intern (name : String) :
    Keeps (fun s : Beside Pads => Drawn seed book s.own) (intern name) :=
  fun _ h => h.of_units rfl

theorem Drawn.keeps_addSlot (u : Nat) {n : Option PadName} (depicts : Depicts seed n none) :
    Keeps (fun s : Beside Pads => Drawn seed book s.own) (addSlot u n) :=
  (keeps_unit u).bind fun _ => (keeps_changeUnit u (f := (·.addSlot n)) fun x h =>
    h.aside (y := x.addSlot n) rfl rfl depicts).bind fun _ => Keeps.pure _

theorem Drawn.keeps_openUnit (name : Option String) (outer : Option Nat) :
    Keeps (fun s : Beside Pads => Drawn seed book s.own) (openUnit name outer) :=
  keeps_openUnit_of name outer keeps_intern fun _ =>
    Keeps.changeSelf (P := Drawn seed book) fun _ h => h.push rfl rfl rfl

/-- A prototype has a name that is not depicted. -/
theorem Drawn.ends_addPrototype (h : Drawn seed book s.own) (sound : s.heap.ring.Sound)
    (u nested : Nat) : Ends (addPrototype u nested) s (fun _ t => Drawn seed book t.own)
      fun t => Drawn seed book t.own := by
  refine ((ends_unit nested s).imp (fun _ _ q => q.1) fun t e => e.1 ▸ h).bind ?_
  rintro x t rfl
  dsimp only
  split
  · exact h
  · refine (ends_intern sound (.refl _) _).bind fun key t ⟨r, letters⟩ => Ends.self ?_
    refine (keeps_addSlot u ?_).ends (h.of_units r.units)
    exact .aside (.inr (.inr letters))

/-! ### Declarations and scopes -/

/-- What declaring does.  It is reported if the name hides another. -/
theorem declare_eq (hx : s.own.units[u]? = some x) (text : String) (sigil : Sigil)
    (declarator : Declarator) :
    let key := (s.heap.ring.intern s.own.pool (.ofText text)).1
    let entry : PadName := { name := key, sigil, declarator }
    let t := interning text s
    let reports := if x.hides entry = true then t.heap.reports.push
      (.atSite (.duplicateDeclaration declarator.keyword entry.label) none) else t.heap.reports
    declare u text sigil declarator s = .ok x.slots.length
      ⟨{ t.heap with reports },
        { t.own with units := t.own.units.modify u (·.addSlot (some entry)) }⟩ := by
  intro key entry t reports
  have found : unit u t = .ok x t := unit_eq hx
  refine (bind_ok (intern_eq text s)).trans ((bind_ok found).trans ?_)
  have added (t' : Beside Pads) (same : t'.own = t.own) : addSlot u (some entry) t' =
      .ok x.slots.length ⟨t'.heap,
        { t.own with units := t.own.units.modify u (·.addSlot (some entry)) }⟩ := by
    have found : unit u t' = .ok x t' := unit_eq (by rw [same]; exact hx)
    refine (bind_ok found).trans ?_
    rw [← same]
    rfl
  by_cases hides : x.hides entry = true
  · have told : reports = _ := if_pos hides
    rw [told, if_pos hides]
    exact (bind_ok rfl).trans (added ⟨_, t.own⟩ rfl)
  · have silent : reports = _ := if_neg hides
    rw [silent, if_neg hides]
    exact added t rfl

/-- The name that is interned is the one that was declared. -/
theorem Pooled.stems {since : Keyring} {pool : Nat} (pooled : Pooled since pool s)
    (d : Declaration) :
    let key := (s.heap.ring.intern s.own.pool (.ofText d.name)).1
    PadName.Stems (since.pool pool).seed
      { name := key, sigil := d.sigil, declarator := d.declarator } d where
  own := rfl
  unclosed := rfl
  sigil := rfl
  declarator := rfl
  letters := (pooled.intern d.name).1
  hash := (pooled.intern d.name).2

theorem Drawn.declare {since : Keyring} {pool : Nat} (h : Drawn (since.pool pool).seed book s.own)
    (pooled : Pooled since pool s) (d : Declaration) :
    let directive : Directive := .declare u d.name d.sigil d.declarator
    Drawn (since.pool pool).seed (directive.noted book s) (after directive.perform s).own := by
  intro directive
  rw [Directive.perform, after_discard, after, Directive.noted]
  cases hx : s.own.units[u]? with
  | none =>
    rw [declare_missing hx]
    exact h.of_units rfl
  | some x =>
    rw [declare_eq hx]
    let entry : PadName :=
      { name := (s.heap.ring.intern s.own.pool (.ofText d.name)).1
        sigil := d.sigil, declarator := d.declarator }
    exact h.modify hx (f := (·.addSlot (some entry))) rfl
      ((h.unit u x hx).declare (pooled.stems d))

theorem Drawn.enterScope (h : Drawn seed book s.own) :
    Drawn seed ((Directive.enterScope u).noted book s)
      (after (Directive.enterScope u).perform s).own := by
  rw [Directive.perform, after_discard, after, Directive.noted]
  cases hx : s.own.units[u]? with
  | none =>
    have fails : Pads.enterScope u s = .error _ s := bind_error (unit_missing hx)
    rw [fails]
    exact h
  | some x =>
    rw [enterScope_eq hx]
    exact h.modify hx (f := fun x => { x with scopes := x.scopes ++ [x.slots.length] }) rfl
      (h.unit u x hx).enter

theorem Drawn.leaveScope {mark : ScopeMark} (h : Drawn seed book s.own)
    (there : mark.unit < s.own.units.size → mark ∈ (book mark.unit).marks) :
    Drawn seed ((Directive.leaveScope mark).noted book s)
      (after (Directive.leaveScope mark).perform s).own := by
  rw [Directive.perform, after, Directive.noted]
  cases hx : s.own.units[mark.unit]? with
  | none =>
    have fails : Pads.leaveScope mark s = .error _ s := bind_error (bind_error (unit_missing hx))
    rw [fails]
    exact h
  | some x =>
    rw [leaveScope_eq hx]
    let shut (x : CodeUnit) : CodeUnit :=
      { x with scopes := x.scopes.take (mark.depth - 1) }.close mark.start s.own.clock
    have there := there (Array.getElem?_eq_some_iff.mp hx).1
    exact h.modify hx (f := shut) rfl ((h.unit mark.unit x hx).leave there s.own.clock)

/-- The scope that the directive leaves is open, if its unit is there. -/
def Directive.Orderly (book : Nat → Outline) (p : Pads) : Directive → Prop
  | leaveScope mark => mark.unit < p.units.size → mark ∈ (book mark.unit).marks
  | _ => True

/-- **A directive** changes the units as the book is changed. -/
theorem Drawn.perform {since : Keyring} {pool : Nat} (h : Drawn (since.pool pool).seed book s.own)
    (pooled : Pooled since pool s) (d : Directive) (orderly : d.Orderly book s.own) :
    Drawn (since.pool pool).seed (d.noted book s) (after d.perform s).own := by
  cases d with
  | declare u name sigil declarator => exact h.declare pooled ⟨name, sigil, declarator⟩
  | enterScope u => exact h.enterScope
  | leaveScope mark => exact h.leaveScope orderly
  | openUnit name outer => exact (keeps_openUnit name outer).discard.after h
  | annotate u slot typeName =>
    refine Keeps.after ((keeps_intern typeName).bind fun key =>
      (keeps_unit u).discard.bind fun _ => ?_) h
    exact keeps_changeUnit u fun x draws => draws.annotate slot key
  | addTemporary u => exact (keeps_addSlot u .temporary).discard.after h
  | addPrototype u nested =>
    exact (h.ends_addPrototype pooled.exact.sound u nested).discard.after
  | introduce u =>
    refine Keeps.after (P := fun s : Beside Pads => Drawn _ book s.own)
      (Keeps.discard ((keeps_unit u).discard.bind fun _ => Keeps.self.bind fun p => ?_)) h
    refine (keeps_changeUnit u fun x draws => draws.introduce p.clock).bind fun _ => ?_
    exact keeps_advance.discard.bind fun _ => Keeps.pure _
  | advance => exact keeps_advance.discard.after h
  | capture u name sigil =>
    refine Keeps.after (keeps_search (f := (·.capture u name sigil)) fun p i q h e => ?_) h
    exact captureWithin_keeps (P := Drawn _ book) (fun h e => h.standIn e) h e
  | lookup u name sigil =>
    refine Keeps.after (keeps_search (f := (·.lookup u name sigil)) fun p i q h e => ?_) h
    exact lookup_keeps (P := Drawn _ book) (fun h e => h.standIn e) h e

/-- **A declaration is reported** exactly if the book has one in the innermost scope that clashes
with it. -/
theorem Drawn.ends_declare {since : Keyring} {pool : Nat}
    (h : Drawn (since.pool pool).seed book s.own) (pooled : Pooled since pool s) (d : Declaration)
    (spelt : d.name ≠ "__ANON__") :
    let report := Advisory.atSite
      (.duplicateDeclaration d.declarator.keyword (d.sigil.char.toString ++ d.name)) none
    Ends (Pads.declare u d.name d.sigil d.declarator) s
      (fun _ t => t.heap.reports = if ∃ old ∈ (book u).made, old.Clashes d
        then s.heap.reports.push report else s.heap.reports)
      fun t => s.own.units.size ≤ u ∧ t.heap.reports = s.heap.reports := by
  intro report
  cases hx : s.own.units[u]? with
  | none =>
    refine (ends_declare_unit d.name d.sigil d.declarator).imp (fun _ _ there => ?_) ?_
    · cases (Array.getElem?_eq_getElem there).symm.trans hx
    · rintro t ⟨missing, rfl⟩
      exact ⟨Nat.not_lt.mp missing, rfl⟩
  | some x =>
    have stems := pooled.stems d
    have hides := (h.unit u x hx).hides_iff stems spelt
    refine Ends.of_ok (declare_eq hx d.name d.sigil d.declarator) ?_
    dsimp only
    rw [stems.label]
    exact if_congr hides rfl rfl

/-! ### Runs -/

/-- A host, and the book of who compiles for it. -/
structure Booked where
  host : Host
  book : Nat → Outline := fun _ => {}

namespace Booked

/-- The host does something, and what compiles is written down. -/
def step (w : Booked) (op : Op) : Booked where
  host := w.host.step op
  book := match op with
    | .compile d => d.noted w.book w.host.pads
    | _ => w.book

/-- The host does this and that. -/
def run (w : Booked) (ops : List Op) : Booked := ops.foldl step w

/-- A host without units, and an empty book. -/
def start (seeds : Array Seed) (supply : Supply) (pool : Nat) : Booked :=
  { host := .start seeds supply pool }

/-- The scope that the operation leaves, if any, is open. -/
def Orderly (w : Booked) : Op → Prop
  | .compile d => d.Orderly w.book w.host.pads.own
  | _ => True

/-- Scopes are properly nested: each that is left is open then, and those inside are left with
it. -/
def Nests (w : Booked) : List Op → Prop
  | [] => True
  | op :: ops => w.Orderly op ∧ (w.step op).Nests ops

/-- The book changes nothing. -/
theorem host_run (w : Booked) (ops : List Op) : (w.run ops).host = w.host.run ops := by
  induction ops generalizing w with
  | nil => rfl
  | cons op ops ih => exact ih (w.step op)

end Booked

/-- **One operation** of a host changes the units as the book is changed. -/
theorem Drawn.step {since : Keyring} {pool : Nat} {h₀ : Heap} {w : Booked} {op : Op}
    (h : Drawn (since.pool pool).seed w.book w.host.pads.own)
    (balanced : Balanced h₀ w.host.held w.host.pads) (pooled : Pooled since pool w.host.pads)
    (orderly : w.Orderly op) :
    Drawn (since.pool pool).seed (w.step op).book (w.step op).host.pads.own := by
  have others (running : ∀ d, op ≠ .compile d) :
      Drawn (since.pool pool).seed w.book (w.step op).host.pads.own := by
    refine Host.of_step (P := fun _ t => Drawn _ w.book t.own) (fun _ => ?_) fun _ => h
    exact (rests_act balanced running).imp (fun _ _ r => h.of_units r.units) fun _ r =>
      h.of_units r.units
  cases op with
  | compile d =>
    refine Host.of_step (P := fun _ t => Drawn _ _ t.own) (fun _ => ?_) fun unnamed => ?_
    · exact ends_only (Ends.of_after (h.perform pooled d orderly))
    · exact absurd nofun unnamed
  | activate | makeClosure | push | pop | release | sweep | cell | onHeap => exact others nofun

/-- **Every run** does, as long as scopes are properly nested. -/
theorem Drawn.run {since : Keyring} {pool : Nat} {h₀ : Heap} {w : Booked} {ops : List Op}
    (h : Drawn (since.pool pool).seed w.book w.host.pads.own)
    (balanced : Balanced h₀ w.host.held w.host.pads) (pooled : Pooled since pool w.host.pads)
    (nests : w.Nests ops) :
    Drawn (since.pool pool).seed (w.run ops).book (w.run ops).host.pads.own := by
  induction ops generalizing w with
  | nil => exact h
  | cons op ops ih =>
    exact ih (h.step balanced pooled nests.1) (balanced.step op) (pooled.step op) nests.2

theorem drawn_start (seed : Seed) (seeds : Array Seed) (supply : Supply) (pool : Nat) :
    Drawn seed (Booked.start seeds supply pool).book
      (Booked.start seeds supply pool).host.pads.own where
  unit u x hx := by cases hx
  blank _ _ := rfl

end

/-- **Duplicate declarations are reported, and no others.**  At any time of any run whose scopes are
properly nested, let a name be declared that is not the one of prototypes.  It is reported once if
some declaration in the innermost open scope of the unit clashes with it, and else not at all,
whatever there is around the scope, was in scopes that were left, or was captured.  Declaring fails
only for a unit that is not there. -/
theorem run_reports (seeds : Array Seed) (supply : Supply) (pool : Nat) (ops : List Op)
    (nests : (Booked.start seeds supply pool).Nests ops) (u : Nat) (name : String) (sigil : Sigil)
    (declarator : Declarator) (spelt : name ≠ "__ANON__") :
    let s := reached seeds supply pool ops
    let made := (((Booked.start seeds supply pool).run ops).book u).made
    let report := Advisory.atSite
      (.duplicateDeclaration declarator.keyword (sigil.char.toString ++ name)) none
    match declare u name sigil declarator s with
    | .ok _ t => t.heap.reports = if ∃ old ∈ made, old.Clashes ⟨name, sigil, declarator⟩
        then s.heap.reports.push report else s.heap.reports
    | .error _ t => s.own.units.size ≤ u ∧ t.heap.reports = s.heap.reports := by
  intro s made report
  have same : ((Booked.start seeds supply pool).run ops).host.pads = s :=
    congrArg Host.pads (Booked.host_run _ ops)
  have pooled : Pooled _ pool s := pooled_reached seeds supply pool ops
  have drawn : Drawn _ _ ((Booked.start seeds supply pool).run ops).host.pads.own :=
    (drawn_start _ seeds supply pool).run (balanced_start seeds supply pool)
      (pooled_start seeds supply pool) nests
  rw [same] at drawn
  have ended : Ends (declare u name sigil declarator) s _ _ :=
    drawn.ends_declare pooled ⟨name, sigil, declarator⟩ spelt
  unfold Ends at ended
  split <;> rename_i e <;> rw [e] at ended <;> exact ended

/-- A unit declares a name, and a nested one captures it and declares it in a scope that it leaves.
Declared once more it is reported in the outer unit, and not in the nested one. -/
theorem run_reports_nested :
    let ops : List Op := [.compile (.openUnit none none), .compile (.declare 0 "x" .scalar .my),
      .compile (.introduce 0), .compile (.openUnit none (some 0)),
      .compile (.lookup 1 "x" .scalar), .compile (.enterScope 1),
      .compile (.declare 1 "x" .scalar .my), .compile (.leaveScope ⟨1, 1, 1⟩)]
    let s := reached #[default] {} 0 ops
    (Booked.start #[default] {} 0).Nests ops ∧
    (match declare 0 "x" .scalar .my s with
      | .ok _ t => t.heap.reports =
        s.heap.reports.push (.atSite (.duplicateDeclaration "my" "$x") none)
      | .error _ _ => False) ∧
    match declare 1 "x" .scalar .my s with
      | .ok _ t => t.heap.reports = s.heap.reports
      | .error _ _ => False := by
  intro ops
  have nests : (Booked.start #[default] {} 0).Nests ops :=
    ⟨trivial, trivial, trivial, trivial, trivial, trivial, trivial,
      fun _ => by decide +kernel, trivial⟩
  have there : (reached #[default] {} 0 ops).own.units.size = 2 := by decide +kernel
  have clash : ∃ old ∈ (((Booked.start #[default] {} 0).run ops).book 0).made,
      old.Clashes ⟨"x", .scalar, .my⟩ := by decide +kernel
  have free : ¬ ∃ old ∈ (((Booked.start #[default] {} 0).run ops).book 1).made,
      old.Clashes ⟨"x", .scalar, .my⟩ := by decide +kernel
  clear_value ops
  refine ⟨nests, ?_, ?_⟩
  · have told := run_reports #[default] {} 0 ops nests 0 "x" .scalar .my (by decide)
    dsimp only at told
    split <;> rename_i e <;> rw [e] at told
    · exact told.trans (if_pos clash)
    · omega
  · have told := run_reports #[default] {} 0 ops nests 1 "x" .scalar .my (by decide)
    dsimp only at told
    split <;> rename_i e <;> rw [e] at told
    · exact told.trans (if_neg free)
    · omega

end ScriptCore.Pads
