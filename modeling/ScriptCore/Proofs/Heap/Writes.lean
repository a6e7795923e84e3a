import ScriptCore.Proofs.Heap.Reads
import ScriptCore.Proofs.Heap.Storing

/-!
# Heap — writing a scalar that no hook watches

A write to such a cell succeeds unless the cell is read-only.  Afterwards the cell is what it was
filled with, and what has a handle outside is what it was, though cells that only the old value held
have gone.

* `assign_quiet`: one write, of anything that holds what is gained.
* `write_quiet`: the same, with the hooks that do not run afterwards.
-/

namespace ScriptCore.Heap

section
variable {h : Heap} {i : CellId} {c : Cell} {out : List CellId}

theorem checkWritable_unhooked (unhooked : c.hooks = []) (writable : c.flags.readOnly = false) :
    c.checkWritable = .ok () := by
  simp [Cell.checkWritable, writable, unhooked]

/-- The cell is filled, up to its owners; the outside keeps what it had, and nothing comes alive. -/
structure Filled (h : Heap) (out : List CellId) (i : CellId) (d : Cell) (h' : Heap) : Prop where
  filled : h'.Holds i d
  held : ∀ j e, j ∈ out → j ≠ i → h.Holds j e → h'.Holds j e
  alive : ∀ j, h'.isAlive j = true → h.isAlive j = true
  owned : h'.Owned out

/-- **A write.** -/
theorem assign_quiet (need : Room) (gains : Option CellId) (fill : Cell → Cell) (o : h.Owned out)
    (hi : i ∈ out) (hc : h.cell? i = some c) (q : c.Quiet)
    (writable : c.flags.readOnly = false) (alive : ∀ j ∈ gains.toList, ∃ d, h.cell? j = some d)
    (owners : ∀ d, (fill d).owners = d.owners) (payload : ∀ d, (fill d).payload = d.payload)
    (target : ∀ d, d.target = none → kept (fill d).target = gains.toList) :
    ∃ t h', t.isAggregate = false ∧ assign i need gains fill h = .ok () h' ∧
      Filled h out i (fill { c with shape := t }.clearValue) h' := by
  obtain ⟨t, ht, scalar⟩ := Cell.exists_room q.scalar need
  have room : c.makeRoom need = .ok { c with shape := t } := by rw [Cell.makeRoom, ht]
  have write : assign i need gains fill h =
      .ok () (((h.setCell i (fill { c with shape := t }.clearValue)).retainAll gains.toList).letGo
        (kept c.target)) := by
    rw [assign, bind_get, cell_eq hc, checkWritable_unhooked q.unhooked writable, room,
      ← release_target]
    rfl
  refine ⟨t, _, scalar, write, ?_⟩
  have owners : (fill { c with shape := t }.clearValue).owners = c.owners := owners _
  have payload : (fill { c with shape := t }.clearValue).payload = c.payload := payload _
  have target : kept (fill { c with shape := t }.clearValue).target = gains.toList := target _ rfl
  generalize fill { c with shape := t }.clearValue = d at owners payload target
  have owned : ((h.setCell i d).retainAll gains.toList).Owned (kept c.target ++ out) := by
    refine o.exchange hc owners alive fun j => ?_
    rw [owned_eq, owned_eq, target, payload]
    simp only [List.count_append]
    omega
  have set : ((h.setCell i d).retainAll gains.toList).Holds i d :=
    ⟨_, by
      rw [cell?_retainAll, cell?_setCell, if_pos ⟨rfl, by simp [isAlive, hc]⟩]
      rfl⟩
  refine ⟨owned.holds_letGo hi set, fun j e hj ne held => ?_, fun j hj => ?_, owned.letGo⟩
  · obtain ⟨n, hn⟩ := held
    refine owned.holds_letGo hj ⟨n + gains.toList.count j, ?_⟩
    rw [cell?_retainAll, cell?_setCell, if_neg fun e => ne e.1.symm, hn]
    rfl
  · obtain ⟨e, he⟩ := Option.isSome_iff_exists.mp hj
    obtain ⟨n, hn⟩ := holds_of_letGo he
    rw [cell?_retainAll] at hn
    obtain ⟨e', he', -⟩ := Option.map_eq_some_iff.mp hn
    rw [cell?_setCell] at he'
    split at he'
    · rename_i same
      rw [← same.1, isAlive, hc]
      rfl
    · rw [isAlive, he']
      rfl

/-- A write after which hooks run, of which there are none. -/
theorem write_quiet (need : Room) (gains : Option CellId) (fill : Cell → Cell) (o : h.Owned out)
    (hi : i ∈ out) (hc : h.cell? i = some c) (q : c.Quiet)
    (writable : c.flags.readOnly = false) (alive : ∀ j ∈ gains.toList, ∃ d, h.cell? j = some d)
    (owners : ∀ d, (fill d).owners = d.owners) (payload : ∀ d, (fill d).payload = d.payload)
    (target : ∀ d, d.target = none → kept (fill d).target = gains.toList)
    (shape : ∀ d, (fill d).shape = d.shape) (hooks : ∀ d, (fill d).hooks = d.hooks) :
    ∃ t h', (assign i need gains fill >>= fun _ => runHooks .set i) h = .ok () h' ∧
      (fill { c with shape := t }.clearValue).Quiet ∧
        Filled h out i (fill { c with shape := t }.clearValue) h' := by
  obtain ⟨t, h', scalar, write, filled⟩ :=
    assign_quiet need gains fill o hi hc q writable alive owners payload target
  have quiet : (fill { c with shape := t }.clearValue).Quiet :=
    ⟨by rw [shape]; exact scalar, by rw [hooks]; exact q.unhooked⟩
  obtain ⟨n, hn⟩ := filled.filled
  refine ⟨t, h', ?_, quiet, filled⟩
  rw [bind_ok write, runHooks_eq hn ⟨quiet.scalar, quiet.unhooked⟩]

end

end ScriptCore.Heap
