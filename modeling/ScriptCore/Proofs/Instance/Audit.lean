import ScriptCore.Proofs.Instance.Calls
import ScriptCore.Proofs.Package.Audit
import ScriptCore.Proofs.Pad.Audit

/-!
# Instance — the ledger beside an instance

An instance has the names that it was asked to hold, those of its packages and those of its pads,
all of one pool, and its stashes share that pool (`charge`).  To intern a name puts it on the first
of these accounts (`Audited.keeps_intern`); everything else a host may ask for is done by the
packages, the pads or the cells, which keep the ledger as if the rest were someone else's.

* `Audited.keeps_request`: whatever a host asks an instance for keeps the ledger, also when it
  fails.
* `Audited.dispose`: what an instance had is no longer on the account once it is given up.
-/

namespace ScriptCore.Instance
open Beside Key Heap

/-- Others have the names that an instance was asked to hold. -/
def named (a : Account) (i : Instance) : Account :=
  { a with own := fun p x => a.own p x + if some i.pool = some p then tally x i.interned else 0 }

/-- What an instance has, beside others with an account of theirs. -/
def charge (a : Account) (i : Instance) : Account :=
  Pads.charge (Registry.charge (named a i) i.registry) i.pads

/-- The parts of an instance have names of its one pool, and the stashes are its own. -/
structure Fits (a : Account) (pool : Nat) (i : Instance) : Prop where
  home : i.pool = pool
  registry : Registry.Apart a pool i.registry
  pads : i.pads.pool = pool

/-- The ledger beside an instance. -/
abbrev Audited (a : Account) (pool : Nat) : Beside Instance → Prop :=
  Charged (charge a) (Fits a pool)

/-- An operation of the pads that makes no hash behind the back of the account. -/
abbrev PadsOp := { op : Pads.Op // ∀ p, op ≠ .onHeap (.hash (.pool p)) }

/-- An operation on cells that makes no hash behind the back of the account. -/
abbrev CellsOp := { op : Heap.Op // ∀ p, op ≠ .hash (.pool p) }

/-- Whatever a host may ask an instance for: a call, an operation on its packages or its pads, or
an operation on cells whose outcome is handed to it. -/
inductive Request
  | call (c : Call)
  | packages (op : Registry.Op)
  | pads (held : List CellId) (op : PadsOp)
  | track (held : List CellId) (op : CellsOp)
  | sweep
  | advise (a : Advisory)
  | takeAdvisories

/-- Carries out a request. -/
def Request.perform : Request → OnInstance Unit
  | call c => c.perform
  | packages op => onPackages op.perform
  | pads held op => onPads (discard (op.val.act held))
  | track held op => Instance.track (discard (op.val.act held : OnHeap (List CellId)))
  | sweep => discard Instance.sweep
  | advise a => Instance.advise a
  | takeAdvisories => discard Instance.takeAdvisories

section
variable {a : Account} {pool : Nat} {α : Type}

/-! ### Parts -/

theorem charge_comm (a : Account) (r : Registry) (p : Pads) :
    Registry.charge (Pads.charge a p) r = Pads.charge (Registry.charge a r) p := by
  unfold Registry.charge Pads.charge
  simp only [Nat.add_right_comm]

theorem Audited.keeps_onPads {x : OnPads α} (hx : ∀ b, Keeps (Pads.Audited b pool) x) :
    Keeps (Audited a pool) (onPads x) := by
  rintro ⟨h, i⟩ ⟨ledger, fits⟩
  have kept := hx (Registry.charge (named a i) i.registry) ⟨h, i.pads⟩ ⟨ledger, fits.pads⟩
  unfold onPads inside
  dsimp only
  cases e : x ⟨h, i.pads⟩ with
  | ok v t =>
    rw [e] at kept
    exact ⟨kept.ledger, fits.home, fits.registry, kept.fine⟩
  | error f t =>
    rw [e] at kept
    exact ⟨kept.ledger, fits.home, fits.registry, kept.fine⟩

/-- The packages of an instance, beside its pads and everyone else. -/
theorem Audited.packages {s : Beside Instance} (c : Audited a pool s) :
    Registry.Audited (Pads.charge (named a s.own) s.own.pads) pool ⟨s.heap, s.own.registry⟩ := by
  obtain ⟨tidy, nodup, apart, home, names, plain⟩ := c.fine.registry
  exact ⟨(charge_comm _ _ _).symm ▸ c.ledger, tidy, nodup, apart, home, names, plain⟩

theorem Audited.keeps_onPackages {x : OnRegistry α}
    (hx : ∀ b, Keeps (Registry.Audited b pool) x) : Keeps (Audited a pool) (onPackages x) := by
  rintro ⟨h, i⟩ c
  have fits := c.fine
  have back {t : Beside Registry} (c : Registry.Audited (Pads.charge (named a i) i.pads) pool t) :
      Audited a pool ⟨t.heap, { i with registry := t.own }⟩ := by
    obtain ⟨ledger, tidy, nodup, apart, home, names, plain⟩ := c
    rw [charge_comm] at ledger
    exact ⟨ledger, fits.home, ⟨tidy, nodup, apart, home, names, plain⟩, fits.pads⟩
  have kept := hx _ ⟨h, i.registry⟩ c.packages
  unfold onPackages inside
  dsimp only
  cases e : x ⟨h, i.registry⟩ with
  | ok v t =>
    rw [e] at kept
    exact back kept
  | error f t =>
    rw [e] at kept
    exact back kept

/-- **Interning** puts a name on the account of the instance. -/
theorem Audited.keeps_intern (name : String) : Keeps (Audited a pool) (Instance.intern name) := by
  unfold Instance.intern
  rintro ⟨h, i⟩ ⟨ledger, fits⟩
  cases poison : i.poison with
  | some e =>
    rw [checkUsable_bind_error (s := ⟨h, i⟩) _ poison]
    exact ⟨ledger, fits⟩
  | none =>
    rw [checkUsable_bind_ok (s := ⟨h, i⟩) _ poison]
    have shares := ledger.places
    have apart : Ledger { charge a i with
        own := fun q x => (a.own q x + tally x (i.registry.stashes.keysIn q) +
          if some i.pads.pool = some q then tally x i.pads.interned else 0) +
          (if (some i.pool) = some q then tally x i.interned else 0) } h := by
      refine ledger.rebook rfl (fun _ _ there _ => there) shares fun q _ x => ?_
      simp only [charge, Pads.charge, Registry.charge, named]
      omega
    have l := apart.intern (.ofText name)
    show Audited a pool ⟨{ h with ring := (h.ring.intern i.pool (.ofText name)).2 },
      { i with interned := i.interned ++ [(h.ring.intern i.pool (.ofText name)).1] }⟩
    generalize h.ring.intern i.pool (.ofText name) = result at l ⊢
    refine ⟨?_, fits.home, fits.registry, fits.pads⟩
    refine l.rebook rfl (fun _ _ there _ => there) l.places fun q _ x => ?_
    simp only [charge, Pads.charge, Registry.charge, named]
    omega

/-! ### What concerns no key -/

theorem Audited.keeps_enqueue {f : Instance → Advisory.Queue} :
    Keeps (Audited a pool) (changeSelf fun i => { i with queue := f i }) :=
  fun _ c => ⟨c.ledger, c.fine.home, c.fine.registry, c.fine.pads⟩

theorem Audited.keeps_checkUsable : Keeps (Audited a pool) checkUsable := by
  intro s c
  cases poison : s.own.poison with
  | some e =>
    rw [checkUsable_error poison]
    exact c
  | none =>
    rw [checkUsable_ok poison]
    exact c

theorem Audited.keeps_track {x : OnInstance α} (hx : Keeps (Audited a pool) x) :
    Keeps (Audited a pool) (track x) := by
  intro s c
  have kept := hx (unreported s) ⟨c.ledger.of_cells rfl rfl, c.fine⟩
  rw [track_apply]
  cases e : x (unreported s) with
  | ok v t =>
    rw [e] at kept
    exact ⟨kept.ledger.of_cells rfl rfl, kept.fine.home, kept.fine.registry, kept.fine.pads⟩
  | error f t =>
    rw [e] at kept
    exact ⟨kept.ledger.of_cells rfl rfl, kept.fine.home, kept.fine.registry, kept.fine.pads⟩

theorem Audited.keeps_guarded {x : OnInstance α} (hx : Keeps (Audited a pool) x) :
    Keeps (Audited a pool) (guarded x) :=
  keeps_checkUsable.bind fun _ => keeps_track hx

theorem Audited.keeps_packages {x : OnRegistry α} (hx : ∀ b, Keeps (Registry.Audited b pool) x) :
    Keeps (Audited a pool) (guarded (onPackages x)) := keeps_guarded (keeps_onPackages hx)

theorem Audited.keeps_pads {x : OnPads α} (hx : ∀ b, Keeps (Pads.Audited b pool) x) :
    Keeps (Audited a pool) (guarded (onPads x)) := keeps_guarded (keeps_onPads hx)

theorem Audited.keeps_onHeap {x : OnHeap α} (hx : ∀ b, Keeps (Ledger b) x) :
    Keeps (Audited a pool) (liftM x : OnInstance α) := Charged.keeps_onHeap hx

theorem Audited.keeps_sweep : Keeps (Audited a pool) Instance.sweep :=
  keeps_onPads fun _ => Pads.Audited.keeps_sweep

/-! ### Requests -/

theorem Audited.keeps_definePackage (name : String) :
    Keeps (Audited a pool) (Instance.definePackage name) :=
  keeps_packages fun _ => (Registry.Audited.keeps_define name).discard.bind fun _ =>
    Keeps.self.bind fun _ => Keeps.pure _

theorem Audited.keeps_defineMethod (package method : String) (code : CellId) :
    Keeps (Audited a pool) (Instance.defineMethod package method code) :=
  keeps_packages fun _ => Registry.Audited.keeps_defineMethod package method code

theorem Audited.keeps_resolve (package method : String) :
    Keeps (Audited a pool) (Instance.resolve package method) :=
  keeps_packages fun _ => Registry.Audited.keeps_resolve package method

/-- **A call** keeps the ledger, also when it fails. -/
theorem Audited.keeps_call (c : Call) : Keeps (Audited a pool) c.perform := by
  cases c with
  | newMap =>
    refine Keeps.discard (keeps_checkUsable.bind fun _ => Keeps.self.bind fun i => ?_)
    exact Keeps.readHeap.bind fun h => keeps_onHeap fun _ => Ledger.keeps_newHash _
  | reserve map expected => exact keeps_guarded (keeps_onHeap fun _ => Ledger.keeps_reserve _ _)
  | intern name => exact (keeps_intern name).discard
  | definePackage name => exact (keeps_definePackage name).discard
  | bless reference package =>
    exact (keeps_definePackage package).bind fun _ => keeps_onHeap fun _ => Ledger.keeps_bless _ _
  | variableOf environment name anyCase =>
    refine Keeps.discard (keeps_checkUsable.bind fun _ => ?_)
    refine Keeps.bind (keeps_onHeap fun _ => Ledger.keeps_new rfl) fun i => ?_
    exact Keeps.bind (keeps_onHeap fun _ => Ledger.keeps_attach _ _) fun _ => Keeps.pure _
  | setParents name list =>
    exact (keeps_packages fun _ => Registry.Audited.keeps_setParents name list).discard
  | defineMethod package method code => exact keeps_defineMethod package method code
  | defineNative package method body =>
    refine (keeps_intern method).bind fun name => ?_
    refine Keeps.bind (keeps_onHeap fun _ => Ledger.keeps_new rfl) fun code => ?_
    refine (keeps_defineMethod package method code).attempt.bind fun defined => ?_
    refine Keeps.bind (Charged.keeps_changeHeap fun _ _ l => l.letGo [code]) fun _ => ?_
    exact Keeps.outcome defined
  | removeMethod package method =>
    exact (keeps_packages fun _ => Registry.Audited.keeps_removeMethod package method).discard
  | linearize name =>
    refine (keeps_packages fun _ => ?_).discard
    exact Keeps.self.bind fun _ => Registry.Audited.keeps_linearizeBy _ name
  | linearizeBy algorithm name =>
    exact (keeps_packages fun _ => Registry.Audited.keeps_linearizeBy algorithm name).discard
  | resolve package method => exact (keeps_resolve package method).discard
  | resolveSuper package method =>
    exact (keeps_packages fun _ => Registry.Audited.keeps_resolveSuper package method).discard
  | resolveFor reference method =>
    refine Keeps.discard (Keeps.readHeap.bind fun h => ?_)
    split
    · exact Keeps.throw _
    · exact keeps_resolve _ method
  | can package method => exact ((keeps_resolve package method).bind fun _ => Keeps.pure _).discard
  | isA package ancestor =>
    exact (keeps_packages fun _ => Registry.Audited.keeps_isA package ancestor).discard
  | openUnit name outer =>
    exact (keeps_pads fun _ _ c =>
      ((Pads.Audited.keeps_directive (.openUnit name outer)).ends c).of_discard).discard
  | declare u name sigil declarator =>
    exact (keeps_pads fun _ _ c =>
      ((Pads.Audited.keeps_directive (.declare u name sigil declarator)).ends c).of_discard).discard
  | makeClosure u outer =>
    exact (keeps_pads fun _ => Pads.Audited.keeps_makeClosure u outer).discard

/-- **A request** keeps the ledger, also when it fails. -/
theorem Audited.keeps_request (q : Request) : Keeps (Audited a pool) q.perform := by
  cases q with
  | call c => exact keeps_call c
  | packages op => exact keeps_onPackages fun _ => Registry.Audited.keeps_perform op
  | pads held op => exact keeps_onPads fun _ => (Pads.Audited.keeps_act held op.property).discard
  | track held op =>
    exact keeps_track (keeps_onHeap fun _ => Ledger.keeps_act held op.property).discard
  | sweep => exact keeps_sweep.discard
  | advise a => exact keeps_enqueue (f := fun i => (i.queue.add a).2)
  | takeAdvisories =>
    exact Keeps.discard (Keeps.self.bind fun _ => keeps_enqueue.bind fun _ => Keeps.pure _)

/-- **Giving up** an instance gives its names back. -/
theorem Audited.dispose {h : Heap} {i : Instance} (c : Audited a pool ⟨h, i⟩) :
    Ledger { charge a i with own := a.own } (after i.dispose h) := by
  obtain ⟨ledger, fits⟩ := c
  obtain ⟨tidy, nodup, apart, home, names, plain⟩ := fits.registry
  have l : Ledger { Pads.charge (Registry.charge a i.registry) i.pads with
      own := fun p x => (Pads.charge (Registry.charge a i.registry) i.pads).own p x +
        if some i.pool = some p then tally x i.interned else 0 } h := by
    refine ledger.rebook rfl (fun _ _ there _ => there) ledger.places fun q _ x => ?_
    simp only [charge, Pads.charge, Registry.charge, named]
    omega
  have given : Registry.Audited (Pads.charge a i.pads) pool
      ⟨{ h with ring := h.ring.releaseAll (some i.pool) i.interned }, i.registry⟩ :=
    ⟨(charge_comm _ _ _).symm ▸ l.giveBack, tidy, nodup, apart, home, names, plain⟩
  have packages := given.dispose
  exact Pads.Audited.dispose (a := { Registry.charge a i.registry with own := a.own })
    ⟨packages, fits.pads⟩

end

end ScriptCore.Instance
