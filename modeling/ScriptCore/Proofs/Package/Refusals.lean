import ScriptCore.Proofs.Heap.Lists
import ScriptCore.Proofs.Heap.Refusals
import ScriptCore.Proofs.Package.Audit

/-!
# Package — what a refused operation leaves

Operations on packages do one thing after the other, and take nothing back.  Each of them looks
before it writes, so what is refused has not been written; but a package is defined, and its name
interned, before anything about it can be refused, and it stays.

* `Left`: the packages, the cells and the users of keys that a refused operation leaves; `Begun`:
  those with at most a certain package more.
* `Audited.left_define`: defining is never refused.
* `Audited.left_writeParents`, `Audited.left_defineMethod`, `left_removeMethod`: the refusals of
  the others.
-/

namespace ScriptCore

/-! ### Cells -/

namespace Heap

/-- The later heap has the cells of the earlier one, as they were, and the same keys. -/
structure Untouched (h h' : Heap) : Prop where
  cells : ∀ i c, h.cell? i = some c → h'.cell? i = some c
  pools : h'.ring.pools = h.ring.pools

section
variable {h h' : Heap} {is : List CellId}

theorem Untouched.refl (h : Heap) : h.Untouched h := ⟨fun _ _ => id, rfl⟩

/-- Leaves that go leave the other cells alone. -/
theorem cell?_letGo {j : CellId} (leaf : ∀ i ∈ is, ∀ c, h.cell? i = some c → c.IsLeaf)
    (apart : j ∉ is) : (h.letGo is).cell? j = h.cell? j := by
  rw [(faded_letGo leaf).cells, List.count_eq_zero.mpr apart]
  cases h.cell? j <;> rfl

/-- New leaves that go again leave no trace. -/
theorem Untouched.letGo (u : h.Untouched h') (new : ∀ i ∈ is, h.cells.size ≤ i)
    (leaf : ∀ i ∈ is, ∀ c, h'.cell? i = some c → c.IsLeaf) : h.Untouched (h'.letGo is) := by
  refine ⟨fun i c hc => ?_, by rw [(faded_letGo leaf).ring, u.pools]⟩
  have apart : i ∉ is := fun hi => Nat.not_lt_of_le (new i hi) (lt_size hc)
  exact (cell?_letGo leaf apart).trans (u.cells i c hc)

end

end Heap

namespace Registry
open Beside Key Heap

/-- What a refused operation leaves: the packages that there were and at most one more, whose stash
is empty; the cells that there were, of which one that is code may have got a package; and the
users that every key had, and one more for each name that was interned on the way. -/
structure Left (s t : Beside Registry) (added : Option (String × CellId))
    (interned : Option String) (code : Option CellId) : Prop where
  old : ∀ x, (∀ e ∈ added, (Spelling.ofText e.1).letters ≠ x.letters) →
    t.own.stash? x = s.own.stash? x
  new : ∀ e ∈ added, s.own.stash? (.ofText e.1) = none ∧
    t.own.stash? (.ofText e.1) = some e.2 ∧ ∃ u, t.heap.Holds e.2 (.ofTable u) ∧ u.size = 0
  cells : ∀ i c, s.heap.cell? i = some c → code ≠ some i → t.heap.cell? i = some c
  stamp : ∀ i ∈ code, ∀ c, s.heap.cell? i = some c → ∃ d, t.heap.cell? i = some d ∧
    (d = c ∨ ∃ r package, c.payload = .code r ∧
      d = { c with payload := .code { r with package } })
  users : ∀ p < s.heap.ring.pools.size, ∀ y : Spelling,
    (t.heap.ring.pool p).users y = (s.heap.ring.pool p).users y +
      ((added.map (·.1)).toList ++ interned.toList).countP fun n =>
        s.own.pool = p ∧ (Spelling.ofText n).letters = y.letters

section
variable {a : Account} {pool : Nat} {s t : Beside Registry} {h : Heap} {r : Registry}
  {added : Option (String × CellId)} {interned : Option String} {code : Option CellId}

/-! ### Defining -/

theorem Left.of_untouched (own : t.own = s.own) (untouched : s.heap.Untouched t.heap)
    (code : Option CellId) : Left s t none none code where
  old x _ := by rw [own]
  new := nofun
  cells i c hc _ := untouched.cells i c hc
  stamp i _ c hc := ⟨c, untouched.cells i c hc, .inl rfl⟩
  users p _ y := by
    unfold Keyring.pool
    rw [untouched.pools]
    rfl

theorem Left.refl (s : Beside Registry) (code : Option CellId) : Left s s none none code :=
  .of_untouched rfl (.refl _) code

/-- What is left where at most a package of the name is new. -/
def Begun (s : Beside Registry) (name : String) (code : Option CellId) (t : Beside Registry) :
    Prop :=
  ∃ added, (∀ e ∈ added, e.1 = name) ∧ Left s t added none code

theorem Begun.refl (s : Beside Registry) (name : String) (code : Option CellId) :
    Begun s name code s := ⟨none, nofun, .refl s code⟩

/-- Code that nothing happened to has no package that is new. -/
theorem Left.weaken (l : Left s t added interned none) (code : Option CellId) :
    Left s t added interned code where
  old := l.old
  new := l.new
  cells i c hc _ := l.cells i c hc nofun
  stamp i _ c hc := ⟨c, l.cells i c hc nofun, .inl rfl⟩
  users := l.users

/-- A built-in method that is refused leaves its name, and the code goes again. -/
theorem Left.native {m t : Beside Registry} {i : CellId} (l : Left m t added none (some i))
    (own : m.own = s.own) (untouched : ∀ j c, s.heap.cell? j = some c → m.heap.cell? j = some c)
    (new : s.heap.cells.size ≤ i) {q : Routine} (hi : m.heap.cell? i = some (.ofRoutine q))
    (pools : m.heap.ring.pools.size = s.heap.ring.pools.size) {method : String}
    (users : ∀ p < s.heap.ring.pools.size, ∀ y : Spelling,
      (m.heap.ring.pool p).users y = (s.heap.ring.pool p).users y +
        if s.own.pool = p ∧ (Spelling.ofText method).letters = y.letters then 1 else 0) :
    Left s ⟨t.heap.release i, t.own⟩ added (some method) none := by
  -- the code has no owner but the one who made it, and owns nothing itself
  obtain ⟨d, hd, made⟩ := l.stamp i rfl _ hi
  have leaf : ∀ j ∈ [i], ∀ c, t.heap.cell? j = some c → c.IsLeaf := by
    intro j hj c hc
    obtain rfl := List.mem_singleton.mp hj
    cases hc.symm.trans hd
    rcases made with rfl | ⟨r, package, -, rfl⟩ <;> exact ⟨rfl, fun _ => Payload.noConfusion⟩
  have other {j : CellId} (hj : j ≠ i) : (t.heap.release i).cell? j = t.heap.cell? j :=
    cell?_letGo leaf (by simpa using hj)
  have kept {j : CellId} {c : Cell} (hc : s.heap.cell? j = some c) :
      (t.heap.release i).cell? j = some c := by
    have apart : j ≠ i := Nat.ne_of_lt (Nat.lt_of_lt_of_le (lt_size hc) new)
    refine (other apart).trans (l.cells j c (untouched j c hc) fun e => apart ?_)
    exact (Option.some.inj e).symm
  refine ⟨fun x hx => (l.old x hx).trans (by rw [own]), fun e he => ?_, fun j c hc _ => kept hc,
    nofun, fun p hp y => ?_⟩
  · obtain ⟨absent, there, u, ⟨n, hn⟩, empty⟩ := l.new e he
    refine ⟨own ▸ absent, there, u, ⟨n, (other ?_).trans hn⟩, empty⟩
    rintro rfl
    cases hn.symm.trans hd
    rcases made with e | ⟨r, package, -, e⟩ <;> cases e
  · show ((t.heap.letGo [i]).ring.pool p).users y = _
    rw [(faded_letGo leaf).ring, l.users p (pools ▸ hp) y, users p hp y, own]
    rw [Option.toList_none, Option.toList_some, List.append_nil, List.countP_append,
      List.countP_singleton]
    simp only [decide_eq_true_eq]
    omega

end

end Registry

end ScriptCore
