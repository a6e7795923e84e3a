import ScriptCore.Proofs.Heap.Audit
import ScriptCore.Proofs.Package.Session
import ScriptCore.Proofs.Package.Upkeep

/-!
# Package — the ledger beside packages

A registry has keys of its own, the names of its packages, and its stashes may share the pool of
those.  Only to define a package interns a name and makes a hash, and both are on the account of the
registry from then on (`keeps_define`); all other operations are on cells, as far as keys go.

* `Audited`: the ledger beside a registry, whose stashes are hashes of its own.
* `Audited.dispose`: who gives up a registry gives its names back.
-/

namespace ScriptCore.Registry
open Beside Key Heap

/-- What a registry has, beside others with an account of theirs. -/
def charge (a : Account) (r : Registry) : Account :=
  { a with
    shares := fun i p => a.shares i p ∨ i ∈ r.stashes.values ∧ p = r.pool
    own := fun p x => a.own p x + tally x (r.stashes.keysIn p) }

/-- The stashes of a registry are its own, one for each package. -/
structure Apart (a : Account) (pool : Nat) (r : Registry) : Prop where
  tidy : r.stashes.Tidy a.since
  nodup : r.stashes.values.Nodup
  apart : ∀ i ∈ r.stashes.values, ∀ p, ¬ a.shares i p
  home : r.pool = pool
  names : r.stashes.pool = some pool
  plain : r.stashes.Plain

/-- The ledger beside a registry. -/
abbrev Audited (a : Account) (pool : Nat) : Beside Registry → Prop :=
  Charged (charge a) (Apart a pool)

section
variable {a : Account} {pool : Nat} {α : Type} {s : Beside Registry}

/-! ### Defining -/

/-- A registry has room for a package that is new, and its pool deals out the name alone. -/
theorem Audited.store_new {h : Heap} {r : Registry} (c : Audited a pool ⟨h, r⟩) {name : String}
    (new : r.stash? (.ofText name) = none) :
    ∃ stashes ring, r.stashes.store h.ring (.ofText name) h.cells.size =
        .ok (none, stashes, ring) ∧
      stashes.Plain ∧ stashes.pool = some pool ∧
      ring.pools = (h.ring.intern pool (.ofText name)).2.pools := by
  have fine : Apart a pool r := c.fine
  have tidy := fine.tidy.turns c.ledger.turns
  obtain ⟨u, supply, stored, plain, home⟩ :=
    fine.plain.store tidy.housed.sound new h.ring h.cells.size
  rw [fine.names] at stored home
  exact ⟨u, _, stored, plain, home, rfl⟩

/-- **Defining** a package puts its name and its stash on the account of the registry. -/
theorem Audited.keeps_define (name : String) :
    Keeps (Audited a pool) (Registry.define name) := by
  refine Keeps.of_ends fun ⟨h, r⟩ c => ?_
  cases found : r.stash? (.ofText name) with
  | some i => exact Ends.of_ok (define_defined found) c
  | none =>
    obtain ⟨u, ring, stored, plain, names, -⟩ := c.store_new found
    obtain ⟨l, fine⟩ := c
    dsimp only at l fine
    have tidy := fine.tidy.turns l.turns
    have held : Ledger
        { charge a r with own := fun p x => a.own p x + tally x (r.stashes.keysIn p) } h := l
    have named := held.dealBeside (tidy.housed.passes_store stored)
    have values := tidy.perm_store found stored
    obtain ⟨tidy', -, -⟩ := tidy.store stored
    have there : ∀ i ∈ r.stashes.values, i < h.cells.size := fun i hi =>
      l.places i r.pool (.inr ⟨hi, rfl⟩)
    have made := named.allot (.ofTable (.inPool ring r.pool))
      (charge a { r with stashes := u }).shares ?_ ?_ ?_
    · refine Ends.of_ok (define_new found stored) ⟨made, ?_, ?_, ?_, fine.home, names, plain⟩
      · exact tidy'.turns ⟨fine.tidy.housed.ring, fun p => (named.turns.seeds p).symm⟩
      · refine values.nodup_iff.mpr (List.nodup_cons.mpr ⟨fun mem => ?_, fine.nodup⟩)
        exact Nat.lt_irrefl _ (there _ mem)
      · intro i hi p shares
        rcases List.mem_cons.mp (values.subset hi) with rfl | hi
        · exact Nat.lt_irrefl _ (l.places _ p (.inl shares))
        · exact fine.apart i hi p shares
    · rintro i p (shares | ⟨hi, rfl⟩)
      · exact .inl shares
      · exact .inr ⟨values.symm.subset (List.mem_cons_of_mem _ hi), rfl⟩
    · rintro i p (shares | ⟨hi, -⟩)
      · exact Nat.le_of_lt (l.places i p (.inl shares))
      · rcases List.mem_cons.mp (values.subset hi) with rfl | hi
        · exact Nat.le_refl _
        · exact Nat.le_of_lt (there i hi)
    · intro t ht
      cases ht
      refine ⟨rfl, ⟨?_, fun p hp => ?_⟩, rfl⟩
      · exact (Table.tidy_empty named.exact.sound fun p hp => by cases hp; rfl).housed
      · cases hp
        exact .inr ⟨values.symm.subset List.mem_cons_self, rfl⟩

/-! ### What concerns no key -/

/-- What is remembered is nobody's key. -/
theorem Audited.keeps_changeSelf {f : Registry → Registry}
    (stashes : ∀ r, (f r).stashes = r.stashes) (same : ∀ r, (f r).pool = r.pool) :
    Keeps (Audited a pool) (changeSelf f) :=
  Charged.keeps_changeSelf (fun r => by simp only [charge, stashes, same]) fun r fine => by
    obtain ⟨tidy, nodup, apart, home, names, plain⟩ := fine
    rw [← stashes r] at tidy nodup apart names plain
    exact ⟨tidy, nodup, apart, (same r).trans home, names, plain⟩

theorem Audited.keeps_remember (package : Key) (f : Profile → Profile) :
    Keeps (Audited a pool) (Registry.remember package f) :=
  keeps_changeSelf (fun _ => rfl) fun _ => rfl

theorem Audited.keeps_letGo (is : List CellId) :
    Keeps (Audited a pool) (changeHeap (·.letGo is)) :=
  Charged.keeps_changeHeap fun _ _ l => l.letGo is

theorem Audited.keeps_methodsChanged : Keeps (Audited a pool) Registry.methodsChanged :=
  keeps_changeSelf (fun _ => rfl) fun _ => rfl

theorem Audited.keeps_forget (package : Key) : Keeps (Audited a pool) (Registry.forget package) :=
  Keeps.self.bind fun _ => (keeps_remember package _).bind fun _ => keeps_letGo _

theorem Audited.keeps_forgetAll : Keeps (Audited a pool) Registry.forgetAll := by
  refine Keeps.of_ends fun s c => Ends.of_eq (forgetAll_eq s) ?_
  exact ((Keeps.forM keeps_forget _).bind fun _ => keeps_methodsChanged).ends c

/-! ### Parents -/

variable {b : Account}

theorem keeps_parentArray? (r : Registry) (package : Key) :
    Keeps (Ledger b) (r.parentArray? package) := by
  unfold Registry.parentArray?
  split
  · exact Keeps.pure _
  · exact (Ledger.keeps_fetch _ _).bind fun _ => Keeps.read fun _ l => l

theorem keeps_parents (r : Registry) (package : Key) : Keeps (Ledger b) (r.parents package) := by
  refine (keeps_parentArray? r package).bind fun isa => ?_
  cases isa with
  | none => exact Keeps.pure _
  | some isa =>
    refine (Ledger.keeps_items isa).bind fun items => Keeps.mapM (fun i => ?_) items
    exact (Ledger.keeps_get ((Ledger.converting _ _).readBytes .silent)).bind fun _ => Keeps.pure _

theorem keeps_childrenNow (r : Registry) : Keeps (Ledger b) r.childrenNow :=
  Keeps.foldlM (fun package _ _ => (keeps_parents r package).bind fun _ => Keeps.pure _) []

theorem keeps_parentArray (stash : CellId) : Keeps (Ledger b) (parentArray stash) := by
  refine (Ledger.keeps_fetch _ _).bind fun found => ?_
  cases found with
  | some isa =>
    refine Keeps.read fun h l => ?_
    split <;> exact l
  | none =>
    refine (Ledger.keeps_newArray []).bind fun isa => ?_
    refine (Ledger.keeps_store stash _ isa).attempt.bind fun stored => ?_
    refine (Keeps.modify fun _ l => l.letGo [isa]).bind fun _ => ?_
    exact (Keeps.outcome stored).discard.bind fun _ => Keeps.pure _

theorem Audited.keeps_writeParents (name : String) (list : List String) :
    Keeps (Audited a pool) (Registry.writeParents name list) := by
  refine (keeps_define name).bind fun stash => ?_
  refine (Charged.keeps_onHeap fun _ => keeps_parentArray stash).bind fun isa => ?_
  refine Keeps.bind (Keeps.mapM (fun s => ?_) list) fun names => ?_
  · exact Charged.keeps_onHeap fun _ => Ledger.keeps_new rfl
  refine (Charged.keeps_onHeap fun _ => Ledger.keeps_changeItems).attempt.bind fun written => ?_
  exact (keeps_letGo names).bind fun _ => Keeps.outcome written

theorem Audited.keeps_recordParents (package : Key) (parents : List Key) :
    Keeps (Audited a pool) (recordParents package parents) := by
  refine Keeps.self.bind fun r => Keeps.bind (keeps_changeSelf ?_ ?_) fun _ => ?_
  · exact fun _ => rfl
  · exact fun _ => rfl
  · exact Keeps.forM (fun k => keeps_remember k _) parents

theorem Audited.keeps_parentsChanged (name : String) :
    Keeps (Audited a pool) (Registry.parentsChanged name) := by
  have forgetting (package : Key) (index : KeyMap (List Key)) : Keeps (Audited a pool) (do
      let affected := descendants index package
      affected.forM Registry.forget
      return affected.length : OnRegistry Nat) :=
    (Keeps.forM keeps_forget _).bind fun _ => Keeps.pure _
  unfold Registry.parentsChanged
  refine Keeps.self.bind fun r => ?_
  refine (Charged.keeps_onHeap fun _ => keeps_parents r _).bind fun parents => ?_
  -- where children are recorded this comes first, and the rest is one
  extract_lets follow rest
  have finish (u : Unit) : Keeps (Audited a pool) (rest u) := by
    refine (keeps_remember _ _).bind fun _ => Keeps.self.bind fun r' => ?_
    split
    · exact (Keeps.pure _).bind fun index => forgetting _ index
    · refine (Charged.keeps_onHeap fun _ => keeps_childrenNow r').bind fun index => ?_
      exact forgetting _ index
  split
  · exact (keeps_recordParents _ _).bind finish
  · exact finish ()

theorem Audited.keeps_setParents (name : String) (list : List String) :
    Keeps (Audited a pool) (Registry.setParents name list) :=
  (keeps_writeParents name list).bind fun _ => keeps_parentsChanged name

/-! ### Lineages -/

theorem Audited.keeps_linearizeWithin (algorithm : Lineage.Algorithm) (levels : Nat)
    (package : Key) : Keeps (Audited a pool) (linearizeWithin algorithm levels package) := by
  refine keeps_lineages (fun s k => (keeps_remember k _).ends)
    (fun s k => (keeps_remember k _).ends)
    (fun s _ k _ audited => (keeps_remember k _).ends (s := draw s) ?_)
    (fun r k => Charged.keeps_onHeap fun _ => keeps_parents r k) algorithm levels package
  -- a serial number is drawn from the supply of the keyring
  have drawn : Keeps (Audited a pool) (changeHeap fun h =>
      { h with ring := { h.ring with supply := h.ring.supply.fresh.2 } }) :=
    Charged.keeps_changeHeap fun _ _ l =>
      l.turn l.exact rfl (.draw (.refl l.exact.sound) _) fun _ _ _ => rfl
  exact drawn.ends audited

theorem Audited.keeps_linearizeKey (algorithm : Lineage.Algorithm) (package : Key) :
    Keeps (Audited a pool) (linearizeKey algorithm package) :=
  Keeps.self.bind fun _ => keeps_linearizeWithin algorithm _ package

theorem Audited.keeps_linearizeBy (algorithm : Lineage.Algorithm) (name : String) :
    Keeps (Audited a pool) (linearizeBy algorithm name) :=
  Keeps.self.bind fun _ => keeps_linearizeKey algorithm _

theorem Audited.keeps_isA (name ancestor : String) :
    Keeps (Audited a pool) (Registry.isA name ancestor) := by
  unfold Registry.isA
  refine Keeps.self.bind fun r => ?_
  dsimp only
  split
  · exact Keeps.pure _
  · split
    · exact (keeps_linearizeKey _ _).discard.bind fun _ => Keeps.self.bind fun _ => Keeps.pure _
    · exact Keeps.self.bind fun _ => Keeps.pure _

/-! ### Methods -/

theorem keeps_ownMethod (r : Registry) (package : Key) (method : String) :
    Keeps (Ledger b) (r.ownMethod package method) := by
  unfold Registry.ownMethod
  split
  · exact Keeps.pure _
  · split
    · exact Keeps.pure _
    · exact (Ledger.keeps_fetch _ _).bind fun _ => Keeps.read fun _ l => l

theorem keeps_search (r : Registry) (origin : Key) (method : String)
    (places : List (Key × Nat)) : Keeps (Ledger b) (r.search origin method places) := by
  induction places with
  | nil => exact Keeps.pure _
  | cons entry rest ih =>
    obtain ⟨package, place⟩ := entry
    unfold Registry.search
    split
    · refine (keeps_ownMethod r package method).bind fun own => ?_
      cases own with
      | some code => exact Keeps.pure _
      | none => exact ih
    · split
      · exact (Ledger.keeps_report _ _).bind fun _ => ih
      · exact ih

theorem Audited.keeps_defineMethod (package method : String) (code : CellId) :
    Keeps (Audited a pool) (Registry.defineMethod package method code) := by
  unfold Registry.defineMethod
  refine (keeps_define package).discard.bind fun _ => Keeps.self.bind fun r => ?_
  refine (Charged.keeps_onHeap fun _ => Ledger.keeps_updateRoutine code _).bind fun _ => ?_
  refine (keeps_define package).bind fun stash => ?_
  refine (Charged.keeps_onHeap fun _ => Ledger.keeps_store stash _ code).bind fun old => ?_
  cases old with
  | none => exact keeps_methodsChanged
  | some i =>
    refine Keeps.readHeap.bind fun h => ?_
    dsimp only
    split
    · refine (Charged.keeps_onHeap fun _ => Ledger.keeps_report _ _).bind fun _ => ?_
      exact (keeps_letGo [i]).bind fun _ => keeps_methodsChanged
    · exact (keeps_letGo [i]).bind fun _ => keeps_methodsChanged

theorem Audited.keeps_removeMethod (package method : String) :
    Keeps (Audited a pool) (Registry.removeMethod package method) := by
  unfold Registry.removeMethod
  refine Keeps.self.bind fun r => ?_
  refine (Charged.keeps_onHeap fun _ => keeps_ownMethod r _ method).bind fun own => ?_
  dsimp only
  split
  · refine (Charged.keeps_onHeap fun _ => Ledger.keeps_delete _ _).bind fun removed => ?_
    split
    · exact keeps_methodsChanged.bind fun _ => Keeps.pure _
    · exact Keeps.pure _
  · exact Keeps.pure _

theorem Audited.keeps_rememberAnswer (package method : Key) (found : Option Method) :
    Keeps (Audited a pool) (rememberAnswer package method found) := by
  refine Keeps.self.bind fun r => Keeps.bind ?_ fun _ => ?_
  · exact Charged.keeps_changeHeap fun _ _ l => l.retainAll _
  · exact (keeps_remember _ _).bind fun _ => keeps_letGo _

theorem Audited.keeps_resolve (package method : String) :
    Keeps (Audited a pool) (Registry.resolve package method) := by
  unfold Registry.resolve
  refine Keeps.self.bind fun r => ?_
  dsimp only
  split
  · exact Keeps.pure _
  · refine (keeps_linearizeKey _ _).bind fun lineage => Keeps.self.bind fun r => ?_
    refine (Charged.keeps_onHeap fun _ => keeps_search r _ _ _).bind fun found => ?_
    exact (keeps_rememberAnswer _ _ found).bind fun _ => Keeps.pure _

theorem Audited.keeps_resolveSuper (package method : String) :
    Keeps (Audited a pool) (Registry.resolveSuper package method) := by
  refine Keeps.self.bind fun r => (keeps_linearizeKey _ _).bind fun lineage => ?_
  exact Keeps.self.bind fun r => Charged.keeps_onHeap fun _ => keeps_search r _ _ _

/-- **Whatever is done to packages** keeps the ledger, also when it fails. -/
theorem Audited.keeps_perform (op : Op) : Keeps (Audited a pool) op.perform := by
  cases op with
  | define package => exact (keeps_define package).discard
  | setParents package list => exact (keeps_setParents package list).discard
  | parentsChanged package => exact (keeps_parentsChanged package).discard
  | defineMethod package method code => exact keeps_defineMethod package method code
  | removeMethod package method => exact (keeps_removeMethod package method).discard
  | linearizeBy algorithm package => exact (keeps_linearizeBy algorithm package).discard
  | isA package ancestor => exact (keeps_isA package ancestor).discard
  | resolve package method => exact (keeps_resolve package method).discard
  | resolveSuper package method => exact (keeps_resolveSuper package method).discard
  | methodsChanged => exact keeps_methodsChanged
  | forgetAll => exact keeps_forgetAll
  | newCode routine => exact (Charged.keeps_onHeap fun _ => Ledger.keeps_new rfl).discard
  | letGo code =>
    refine (Charged.keeps_onHeap fun _ => Ledger.keeps_routine code).discard.bind fun _ => ?_
    exact keeps_letGo [code]

/-! ### The end -/

/-- **Giving up** a registry gives its names back. -/
theorem Audited.dispose {h : Heap} {r : Registry} (c : Audited a pool ⟨h, r⟩) :
    Ledger { charge a r with own := a.own } (after r.dispose h) := by
  have l := c.ledger
  simp only [charge, Table.tally_keysIn] at l
  exact l.giveBack.letGo _

end

end ScriptCore.Registry
