import ScriptCore.Proofs.Pad.Audit

/-!
# Pad — the pools of a run

Whatever a host does to pads and cells, the pools of names are the same in number and keep their
seeds, and the users of every key in them are counted exactly (`pooled_reached`).  So a name is
interned at any time under the hash it always had (`Pooled.intern`).
-/

namespace ScriptCore.Pads
open Beside Key Heap

/-- The pools are those there were since some time, and their keys are accounted for. -/
def Pooled (since : Keyring) (pool : Nat) (s : Beside Pads) : Prop :=
  ∃ a : Account, a.since = since ∧ Audited a pool s

section
variable {since : Keyring} {pool : Nat} {s : Beside Pads} {held : List CellId}

theorem Pooled.exact (h : Pooled since pool s) : s.heap.ring.Exact := by
  obtain ⟨a, rfl, audited⟩ := h
  exact audited.ledger.exact

theorem Pooled.turns (h : Pooled since pool s) : since.Turns s.heap.ring := by
  obtain ⟨a, rfl, audited⟩ := h
  exact audited.ledger.turns

theorem Pooled.size (h : Pooled since pool s) : s.heap.ring.pools.size = since.pools.size := by
  obtain ⟨a, rfl, audited⟩ := h
  exact audited.ledger.pools

theorem Pooled.home (h : Pooled since pool s) : s.own.pool = pool := by
  obtain ⟨a, rfl, audited⟩ := h
  exact audited.fine

/-- **A name is interned** under its letters and the hash that the seed of its pool gives it. -/
theorem Pooled.intern (h : Pooled since pool s) (name : String) :
    let key := (s.heap.ring.intern s.own.pool (.ofText name)).1
    key.letters = (Spelling.ofText name).letters ∧
      key.hash = (since.pool pool).seed.hash (Spelling.ofText name).bytes := by
  obtain ⟨letters, hash, -⟩ := h.exact.sound.intern s.own.pool (.ofText name)
  have seed : (s.heap.ring.pool s.own.pool).seed = (since.pool pool).seed := by
    rw [h.turns.seeds, h.home]
  exact ⟨letters, hash.trans (by rw [seed])⟩

/-- A new hash that shares a pool. -/
theorem Pooled.share (h : Pooled since pool s) (p : Nat) :
    Pooled since pool ⟨(s.heap.allocate (.ofTable (.inPool s.heap.ring p))).2, s.own⟩ := by
  obtain ⟨a, rfl, audited⟩ := h
  have ledger := audited.ledger
  let shares (i : CellId) (q : Nat) : Prop := a.shares i q ∨ i = s.heap.cells.size ∧ q = p
  refine ⟨{ a with shares }, rfl, ledger.allot _ shares (fun i q => .inl) ?_ ?_, audited.fine⟩
  · rintro i q (there | ⟨rfl, -⟩)
    · exact Nat.le_of_lt (ledger.places i q there)
    · exact Nat.le_refl _
  · intro t ht
    cases ht
    refine ⟨rfl, ⟨(Table.Home.pool p).housed ledger.exact.sound, fun q hq => ?_⟩, rfl⟩
    exact .inr ⟨rfl, (Option.some.inj hq).symm⟩

/-- **One operation** keeps the pools. -/
theorem Pooled.keeps_act (op : Op) : Keeps (Pooled since pool) (op.act held) := by
  by_cases shared : ∃ p, op = .onHeap (.hash (.pool p))
  · obtain ⟨p, rfl⟩ := shared
    exact fun _ h => h.share p
  · refine Keeps.of_ends fun s ⟨a, same, audited⟩ => ?_
    have kept := (Audited.keeps_act held fun p e => shared ⟨p, e⟩).ends audited
    exact kept.imp (fun _ _ h => ⟨a, same, h⟩) fun _ h => ⟨a, same, h⟩

theorem Pooled.step {s : Host} (h : Pooled since pool s.pads) (op : Op) :
    Pooled since pool (s.step op).pads :=
  Host.of_step (P := fun _ => Pooled since pool) (fun _ => (Pooled.keeps_act op).ends h) fun _ => h

/-- **Every run** keeps them. -/
theorem Pooled.run {s : Host} (h : Pooled since pool s.pads) (ops : List Op) :
    Pooled since pool (s.run ops).pads := by
  induction ops generalizing s with
  | nil => exact h
  | cons op ops ih => exact ih (h.step op)

theorem pooled_start (seeds : Array Seed) (supply : Supply) (pool : Nat) :
    Pooled (.ofSeeds seeds supply) pool (Host.start seeds supply pool).pads := by
  refine ⟨⟨.ofSeeds seeds supply, fun _ _ => False, fun _ _ => 0⟩, rfl, ?_, rfl⟩
  constructor
  case exact => exact Keyring.exact_ofSeeds seeds supply
  case turns => exact .refl (Keyring.sound_ofSeeds seeds supply)
  case pools => rfl
  case places => exact fun _ _ => False.elim
  case hashes => exact fun _ _ _ hc => nomatch hc
  case users =>
    intro p _ y
    have none : (if some pool = some p then tally y.letters [] else 0) = 0 := ite_self 0
    refine (Keyring.users_ofSeeds seeds supply p y).trans ?_
    show 0 = 0 + (0 + if some pool = some p then tally y.letters [] else 0)
    rw [none]

theorem pooled_reached (seeds : Array Seed) (supply : Supply) (pool : Nat) (ops : List Op) :
    Pooled (.ofSeeds seeds supply) pool (reached seeds supply pool ops) :=
  (pooled_start seeds supply pool).run ops

end

end ScriptCore.Pads
