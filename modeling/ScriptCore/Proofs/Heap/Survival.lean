import ScriptCore.Proofs.Heap.Storing

/-!
# Heap — what survives when handles are given back

Giving handles back is a cascade, in the order of the handles.  What it leaves alive is told without
any order: a cell survives if the handles that are left keep it alive, directly or through other
cells that survive (`Survives`).

* `Kept.alive_letGo_iff`: after handles were given back the cells that survive are alive, and no
  others.
* `Kept.alive_letGo_mono`: who gives back more handles is left with fewer live cells.

Cells that hold one another in a circle survive, as they do in a heap that counts owners.
-/

namespace ScriptCore.Heap

/-- Live cells, each of them held by a handle of `out` or by one of them. -/
def Sustained (h : Heap) (out : List CellId) (X : CellId → Prop) : Prop :=
  ∀ i, X i → h.isAlive i = true ∧ (i ∈ out ∨ ∃ j c, X j ∧ h.cell? j = some c ∧ i ∈ c.owned)

/-- The handles of `out` keep the cell alive, directly or through other cells. -/
def Survives (h : Heap) (out : List CellId) (i : CellId) : Prop := ∃ X, h.Sustained out X ∧ X i

section
variable {h h' : Heap} {i : CellId} {c : Cell} {is js out out' : List CellId}
  {X : CellId → Prop}

theorem isAlive_of_cell? (hc : h.cell? i = some c) : h.isAlive i = true := by
  rw [isAlive, hc, Option.isSome_some]

theorem Survives.mono (survives : h.Survives out i) (sub : out ⊆ out') : h.Survives out' i := by
  obtain ⟨X, sustained, hi⟩ := survives
  refine ⟨X, fun j hj => ?_, hi⟩
  obtain ⟨alive, handle | held⟩ := sustained j hj
  · exact ⟨alive, .inl (sub handle)⟩
  · exact ⟨alive, .inr held⟩

/-- Only what cells hold matters. -/
theorem Sustained.of_owned (sustained : h.Sustained out X)
    (same : ∀ j c, X j → h.cell? j = some c → ∃ d, h'.cell? j = some d ∧ d.owned = c.owned) :
    h'.Sustained out X := by
  intro i hi
  obtain ⟨alive, held⟩ := sustained i hi
  obtain ⟨c, hc⟩ := Option.isSome_iff_exists.mp alive
  obtain ⟨d, hd, -⟩ := same i c hi hc
  refine ⟨isAlive_of_cell? hd, held.imp id ?_⟩
  rintro ⟨j, c, hj, hc, mem⟩
  obtain ⟨d, hd, owned⟩ := same j c hj hc
  exact ⟨j, d, hj, hd, owned ▸ mem⟩

/-- What is alive is held. -/
theorem Sound.sustained (s : h.Sound out) : h.Sustained out (h.isAlive · = true) := by
  intro i alive
  refine ⟨alive, ?_⟩
  have needed := (s.alive_iff i).mp alive
  by_cases handle : i ∈ out
  · exact .inl handle
  · rw [List.count_eq_zero.mpr handle, Nat.add_zero] at needed
    obtain ⟨place, there, owned⟩ := List.mem_flatMap.mp (List.count_pos_iff.mp needed)
    obtain ⟨j, hj⟩ := List.mem_iff_getElem?.mp there
    cases place with
    | none => cases owned
    | some c =>
      have hc : h.cell? j = some c := by
        rw [cell?, ← Array.getElem?_toList, hj]
        rfl
      exact .inr ⟨j, c, isAlive_of_cell? hc, hc, owned⟩

/-- **Handles are given back** and do not matter to cells that others keep alive. -/
theorem Sound.sustained_letGo (s : h.Sound (is ++ out)) (sustained : h.Sustained out X) :
    (h.letGo is).Sustained out X := by
  refine (letGo_rule (P := fun is h => h.Sound (is ++ out) ∧ h.Sustained out X)
    ?gone ?drop ?bury ⟨s, sustained⟩).2
  case gone =>
    -- there is no handle on a cell that has gone
    rintro i rest h hc ⟨s, -⟩
    obtain ⟨c, hc'⟩ := s.owned.alive (i := i) (by simp)
    cases hc.symm.trans hc'
  case drop =>
    rintro i rest h c hc more ⟨s, sustained⟩
    refine ⟨s.drop hc more, sustained.of_owned fun j d _ hd => ?_⟩
    rw [cell?_setCell]
    split
    · rename_i here
      obtain ⟨rfl, -⟩ := here
      cases hc.symm.trans hd
      exact ⟨_, rfl, rfl⟩
    · exact ⟨d, hd, rfl⟩
  case bury =>
    rintro i rest h c hc last ⟨s, sustained⟩
    -- the handle given back is the last thing that held the cell
    have only : ¬ X i := fun hi => by
      have owners := s.owners i
      rw [cell_eq hc, List.cons_append, List.count_cons_self, List.count_append] at owners
      rcases (sustained i hi).2 with handle | ⟨j, d, -, hd, mem⟩
      · have := List.count_pos_iff.mpr handle
        omega
      · have := List.count_pos_iff.mpr (mem_held hd mem)
        omega
    refine ⟨?_, sustained.of_owned fun j d hj hd => ⟨d, ?_, rfl⟩⟩
    · rw [List.append_assoc]
      exact s.bury hc last
    · have other : i ≠ j := fun e => only (e ▸ hj)
      rw [cell?_bury, if_neg other, hd]

/-- **What survives.**  After handles were given back the cells are alive that the other handles
keep alive. -/
theorem Kept.alive_letGo_iff {h₀ : Heap} (k : Kept h₀ (is ++ out) h) (i : CellId) :
    (h.letGo is).isAlive i = true ↔ h.Survives out i := by
  constructor
  · intro alive
    refine ⟨_, k.letGo.sound.sustained.of_owned fun j d _ hd => ?_, alive⟩
    obtain ⟨n, hn⟩ := holds_of_letGo hd
    exact ⟨_, hn, rfl⟩
  · rintro ⟨X, sustained, hi⟩
    exact (k.sound.sustained_letGo sustained i hi).1

theorem letGo_append (h : Heap) (is js : List CellId) :
    h.letGo (is ++ js) = (h.letGo is).letGo js := by
  refine (letGo_rule (P := fun ks g => g.letGo (ks ++ js) = h.letGo (is ++ js))
    ?gone ?drop ?bury rfl).symm
  case gone =>
    intro i rest g hc left
    rwa [List.cons_append, letGo_gone hc] at left
  case drop =>
    intro i rest g c hc more left
    rwa [List.cons_append, letGo_cons hc, if_pos more] at left
  case bury =>
    intro i rest g c hc last left
    rwa [List.cons_append, letGo_cons hc, if_neg last, ← List.append_assoc] at left

/-- Who gives back more handles is left with fewer live cells. -/
theorem Kept.alive_letGo_mono {h₀ : Heap} (k : Kept h₀ (is ++ out) h)
    (k' : Kept h₀ (js ++ out') h) (sub : out ⊆ out') (alive : (h.letGo is).isAlive i = true) :
    (h.letGo js).isAlive i = true := by
  rw [k.alive_letGo_iff] at alive
  rw [k'.alive_letGo_iff]
  exact alive.mono sub

end

end ScriptCore.Heap
