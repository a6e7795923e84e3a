import ScriptCore.Proofs.Advisory.Delivery

/-!
# Advisory — what a queue silences

A queue that de-duplicates marks a topic as seen before it looks whether there is room.  So a report
that only ever met a full queue is silenced like one that was delivered.

* `run_silences`: such a queue refuses an advisory exactly if it is full, or the same report was
  delivered or turned away.  No report is both, and what was turned away is never delivered until
  the queue is reset.
* `not_silenced_delivered`: a report can be refused by a queue with room that never delivered it.
-/

namespace ScriptCore.Advisory.Queue

namespace Watched
variable {policy : Policy} {w : Watched} {a b : Advisory}

/-- What was turned away stays so until the next reset. -/
theorem turnedAway_call {c : Call} (kept : c ≠ .reset) : w.turnedAway ⊆ (w.call c).turnedAway := by
  intro b away
  cases c with
  | add a =>
    rw [turnedAway, List.mem_append] at away ⊢
    refine away.imp_right fun dropped => ?_
    simp only [call, Journal.add]
    split
    · exact dropped
    · exact List.mem_append_left _ dropped
  | flush =>
    have all : (w.call .flush).turnedAway = w.turnedAway := List.append_nil _
    exact all ▸ away
  | reset => exact absurd rfl kept

theorem turnedAway_run {calls : List Call} (kept : .reset ∉ calls) :
    w.turnedAway ⊆ (w.run calls).turnedAway := by
  induction calls generalizing w with
  | nil => exact List.Subset.refl _
  | cons c calls ih =>
    rw [List.mem_cons, not_or] at kept
    exact List.Subset.trans (turnedAway_call (Ne.symm kept.1)) (ih kept.2)

/-- A queue that de-duplicates refuses what it settled before, and all else when it is full. -/
theorem Sound.refuses_iff (h : w.Sound policy) (on : policy.deduplicate = true) :
    (w.queue.add a).1 = false ↔ w.queue.isFull = true ∨ (∃ b ∈ w.delivered, b.SameReport a) ∨
      ∃ b ∈ w.turnedAway, b.SameReport a := by
  have known : w.queue.Repeated a ↔ (∃ b ∈ w.delivered, b.SameReport a) ∨
      ∃ b ∈ w.turnedAway, b.SameReport a := by
    rw [Repeated, h.governed, and_iff_right on, h.seen on, h.settled on, List.map_append,
      List.mem_append, exists_sameReport_iff, exists_sameReport_iff]
  rw [← known]
  by_cases again : w.queue.Repeated a
  · have refused : (w.queue.add a).1 = false := congrArg Prod.fst (if_pos again)
    exact iff_of_true refused (.inr again)
  · rw [add_new again, Bool.not_eq_false', or_iff_left again]

/-- No report is delivered and turned away. -/
theorem Sound.apart (h : w.Sound policy) (on : policy.deduplicate = true) (hb : b ∈ w.delivered)
    (ha : a ∈ w.turnedAway) : ¬ b.SameReport a := by
  have once := h.once on
  rw [List.map_append] at once
  intro same
  exact List.disjoint_of_nodup_append once (List.mem_map_of_mem hb)
    (sameReport_iff.mp same ▸ List.mem_map_of_mem ha)

/-- **What is silenced** by a queue that de-duplicates. -/
structure Silences (w : Watched) : Prop where
  /-- Refused is what meets a full queue, or was delivered or turned away before. -/
  refuses : ∀ a, (w.queue.add a).1 = false ↔ w.queue.isFull = true ∨
    (∃ b ∈ w.delivered, b.SameReport a) ∨ ∃ b ∈ w.turnedAway, b.SameReport a
  /-- Nothing is both delivered and turned away. -/
  apart : ∀ b ∈ w.delivered, ∀ c ∈ w.turnedAway, ¬ b.SameReport c
  /-- What was turned away is refused, and not delivered, as long as the queue is not reset. -/
  lost : ∀ b ∈ w.turnedAway, ∀ a, b.SameReport a → ∀ more, .reset ∉ more →
    ((w.run more).queue.add a).1 = false ∧ ∀ c ∈ (w.run more).delivered, ¬ c.SameReport a

end Watched

/-- **A queue that de-duplicates silences what it delivered and what it turned away.**  This is so
for every limit and after any calls. -/
theorem run_silences (limit : Nat) (calls : List Call) :
    (watched ⟨limit, true⟩ calls).Silences := by
  have h := sound_watched ⟨limit, true⟩ calls
  generalize watched ⟨limit, true⟩ calls = w at h ⊢
  refine {
    refuses a := h.refuses_iff rfl
    apart b hb c hc := h.apart rfl hb hc
    lost b away a same more kept := ?lost }
  have h' := h.run more
  have away' := Watched.turnedAway_run kept away
  refine ⟨(h'.refuses_iff rfl).mpr (.inr (.inr ⟨b, away', same⟩)), fun c delivered again => ?_⟩
  refine h'.apart rfl delivered away' (sameReport_iff.mpr ?_)
  exact (sameReport_iff.mp again).trans (sameReport_iff.mp same).symm

/-- A queue with room may refuse a report that it never delivered: here it was full when site 2
reported first, and is silent about it after the flush as well. -/
theorem not_silenced_delivered :
    ¬ ∀ (limit : Nat) (calls : List Call) (a : Advisory),
      let w := watched ⟨limit, true⟩ calls
      w.queue.isFull = false → (w.queue.add a).1 = false → ∃ b ∈ w.delivered, b.SameReport a := by
  let first : Advisory := { kind := .notNumeric, site := some 1, message := "a" }
  let second : Advisory := { kind := .notNumeric, site := some 2, message := "b" }
  intro h
  have delivered := h 1 [.add first, .add second, .flush] second (by decide) (by decide)
  exact absurd delivered (by decide)

end ScriptCore.Advisory.Queue
