import ScriptCore.Proofs.Instance.Process

/-!
# Instance — what an instance leaves behind

An instance that is given up gives back every name that it interned itself, on success or failure,
and lets go of its stashes, which give back theirs when nobody else owns them.

* `keys_balance`: an instance that comes and goes, with nobody keeping a stash of it, leaves every
  key with the users that the others make; a pool of its own is empty in the end.
-/

namespace ScriptCore

namespace Heap
variable {h : Heap} {i : CellId} {is : List CellId}

/-- What has gone stays gone. -/
theorem gone_letGo (hc : h.cell? i = none) : (h.letGo is).cell? i = none := by
  cases hd : (h.letGo is).cell? i with
  | none => rfl
  | some d =>
    obtain ⟨n, hn⟩ := holds_of_letGo hd
    cases hc.symm.trans hn

/-- **A cell with one owner** goes with that owner. -/
theorem gone_of_owners_le (hi : i ∈ is) (sole : (h.cell i).owners ≤ 1) :
    (h.letGo is).cell? i = none := by
  induction h, is using letGo.induct with
  | case1 h => cases hi
  | case2 h j rest hc ih =>
    rw [letGo_gone hc]
    rcases List.mem_cons.mp hi with rfl | hi
    · exact gone_letGo hc
    · exact ih hi sole
  | case3 h j rest c hc more ih =>
    rw [letGo_cons hc, if_pos more]
    have other : j ≠ i := by
      rintro rfl
      rw [cell_eq hc] at sole
      omega
    refine ih ((List.mem_cons.mp hi).resolve_left other.symm) ?_
    rwa [cell, cell?_setCell, if_neg fun e => other e.1]
  | case4 h j rest c hc last ih =>
    rw [letGo_cons hc, if_neg last]
    by_cases here : j = i
    · subst here
      exact gone_letGo (by rw [cell?_bury, if_pos rfl])
    · refine ih (List.mem_append_right _ ((List.mem_cons.mp hi).resolve_left (Ne.symm here))) ?_
      rwa [cell, cell?_bury, if_neg here]

end Heap

namespace Process
open Key Heap

/-- The keys of a pool that the instances and the hosts have. -/
def held (w : Process) (p : Nat) : List Key := keysOf w.live w.shared w.heap p

/-- Nobody but the instance owns a stash of it. -/
def KeepsNoStash (w : Process) (n : Nat) : Prop :=
  ∀ i ∈ w.instances[n]?.join, ∀ s ∈ i.registry.stashes.values, (w.heap.cell s).owners ≤ 1

/-- The event is one of an instance, or of cells that share no pool. -/
def Event.concerns (n : Nat) : Event → Bool
  | .ask m _ => m == n
  | .cells _ _ => true
  | _ => false

section
variable {w : Process} {n p : Nat} {i : Instance} {others : List (Option Instance)}

/-- Stashes that nobody keeps go with their instance. -/
theorem kept_eq_nil {h : Heap}
    (sole : ∀ s ∈ i.registry.stashes.values, (h.cell s).owners ≤ 1) :
    kept i (after i.dispose h) = [] := by
  refine List.filter_eq_nil_iff.mpr fun e he => ?_
  obtain ⟨hs, -⟩ := mem_stashes.mp he
  -- the packages go first, and the pads then bring nothing back
  have gone : (after i.dispose h).cell? e.1 = none :=
    gone_letGo (gone_of_owners_le (List.mem_append_left _ hs) (sole e.1 hs))
  rw [isAlive, gone]
  exact Bool.false_ne_true

theorem shared_drop (none : w.KeepsNoStash n) : (w.drop n).shared = w.shared := by
  unfold drop
  cases hn : w.instances[n]?.join with
  | none => rfl
  | some i =>
    show w.shared ++ kept i _ = w.shared
    rw [kept_eq_nil fun s hs => none i hn s hs, List.append_nil]

/-! ### An instance alone -/

/-- One event of an instance, or of cells, leaves the others alone. -/
theorem step_alone {e : Event} (alone : e.concerns others.length)
    (hw : w.instances = others ++ [some i]) :
    (∃ j, (w.step e).instances = others ++ [some j]) ∧ (w.step e).shared = w.shared := by
  cases e with
  | ask m q =>
    obtain rfl : m = others.length := eq_of_beq alone
    have here : w.instances[others.length]?.join = some i := by simp [hw]
    show (∃ j, (w.ask _ q).instances = _) ∧ (w.ask _ q).shared = _
    unfold ask
    rw [here]
    refine ⟨⟨(after q.perform ⟨w.heap, i⟩).own, ?_⟩, rfl⟩
    simp [hw]
  | cells held op => exact ⟨⟨i, hw⟩, rfl⟩
  | create | share | drop => cases alone

theorem run_alone {events : List Event} (alone : ∀ e ∈ events, e.concerns others.length)
    (hw : w.instances = others ++ [some i]) :
    (∃ j, (run events w).instances = others ++ [some j]) ∧ (run events w).shared = w.shared := by
  induction events generalizing w i with
  | nil => exact ⟨⟨i, hw⟩, rfl⟩
  | cons e events ih =>
    obtain ⟨⟨j, hj⟩, shared⟩ := step_alone (alone e List.mem_cons_self) hw
    obtain ⟨last, shared'⟩ := ih (fun e he => alone e (List.mem_cons_of_mem _ he)) hj
    exact ⟨last, shared'.trans shared⟩

theorem live_drop (hw : w.instances = others ++ [some i]) :
    (w.drop others.length).live = others.reduceOption := by
  have here : w.instances[others.length]?.join = some i := by simp [hw]
  unfold drop live
  rw [here]
  simp [hw, List.reduceOption_append]

/-! ### Coming and going -/

/-- Hashes that hold the same keys count the same. -/
theorem tally_keysOf {live : List Instance} {shared : List (CellId × Nat)} {h h' : Heap}
    (same : ∀ e ∈ homes live shared, ((keysAt e.2 (h'.cell? e.1)).map letters).Perm
      ((keysAt e.2 (h.cell? e.1)).map letters)) (p : Nat) (x : Bytes × Bool) :
    tally x (keysOf live shared h' p) = tally x (keysOf live shared h p) := by
  have counts : ∀ e ∈ (homes live shared).filter (·.2 = p),
      tally x (keysAt e.2 (h'.cell? e.1)) = tally x (keysAt e.2 (h.cell? e.1)) := by
    intro e he
    rw [tally_eq_count, tally_eq_count]
    exact (same e (List.mem_filter.mp he).1).count_eq x
  unfold keysOf
  rw [tally_append, tally_append]
  generalize (homes live shared).filter (·.2 = p) = places at counts
  refine congrArg (tally x (live.flatMap (·.namesIn p)) + ·) ?_
  unfold tally at counts ⊢
  rw [List.countP_flatMap, List.countP_flatMap]
  exact congrArg List.sum (List.map_congr_left counts)

/-- **An instance that comes and goes** leaves every key with the users that others make of it:
whatever happens meanwhile, when nobody keeps a stash of it, each key of each pool has in the end as
many users as there are of it among the names of the other instances and in the hashes that share
the pool, and no stash has joined these.  If only the instance was asked and cells were worked on,
and the hashes of others hold what they held, then every key has the users that it had, and a pool
that was not there before is empty. -/
theorem keys_balance (past during : List Event) (settings : Instance.Settings)
    (environment : Option String) (seed : Seed) (supply : Supply) :
    let before := run past (start seed supply)
    let k := before.instances.length
    let ended := run during (before.create settings environment)
    let later := ended.drop k
    ended.KeepsNoStash k →
      later.shared = ended.shared ∧
      (∀ p y, (later.heap.ring.pool p).users y = tally y.letters (later.held p)) ∧
      ((∀ e ∈ during, e.concerns k) →
        (∀ e ∈ homes before.live before.shared,
          ((keysAt e.2 (later.heap.cell? e.1)).map letters).Perm
            ((keysAt e.2 (before.heap.cell? e.1)).map letters)) →
        (∀ p y, (later.heap.ring.pool p).users y = (before.heap.ring.pool p).users y) ∧
        ∀ p, before.heap.ring.pools.size ≤ p → (later.heap.ring.pool p).size = 0) := by
  intro before k ended later none
  have start : Balanced before.live before.shared before.heap :=
    balanced_run (balanced_start seed supply) past
  have last : Balanced later.live later.shared later.heap :=
    balanced_step (balanced_run (balanced_create start settings environment) during) (.drop k)
  have shared : later.shared = ended.shared := shared_drop none
  refine ⟨shared, last.users, fun alone same => ?_⟩
  obtain ⟨⟨j, instances⟩, shared'⟩ := run_alone alone
    (w := before.create settings environment)
    (i := (Instance.ofSettings settings environment before.heap.ring).1) rfl
  have live : later.live = before.live := live_drop instances
  have users (p : Nat) (y : Spelling) :
      (later.heap.ring.pool p).users y = (before.heap.ring.pool p).users y := by
    rw [last.users, start.users, live, shared.trans shared']
    exact tally_keysOf same p y.letters
  refine ⟨users, fun p hp => (last.ledger.exact p).size_eq_zero fun y => ?_⟩
  rw [users, start.users, start.keysOf_eq_nil hp]
  rfl

/-- Two instances share their names; the second one interns and defines, is refused and goes. -/
theorem keys_balance_shared :
    let settings : Instance.Settings := { sharesNames := true }
    let past : List Event := [.create settings none, .ask 0 (.call (.definePackage "A"))]
    let during : List Event := [.ask 1 (.call (.intern "A")),
      .ask 1 (.call (.defineNative "B" "m" .count)), .ask 1 (.call (.setParents "B" ["A"])),
      .ask 1 (.call (.defineMethod "C" "m" 0)), .ask 1 (.call (.openUnit (some "u") none)),
      .ask 1 (.call (.declare 0 "x" .scalar .my))]
    let before := run past (start ⟨0⟩ {})
    let ended := run during (before.create settings none)
    let later := ended.drop before.instances.length
    (ended.heap.ring.pool 0).size = 7 ∧ (ended.heap.ring.pool 0).users (.ofText "A") = 2 ∧
      ∀ p y, (later.heap.ring.pool p).users y = (before.heap.ring.pool p).users y := by
  intro settings past during before ended later
  refine ⟨by decide +kernel, by decide +kernel, ?_⟩
  have sole : ended.KeepsNoStash before.instances.length := by
    unfold KeepsNoStash
    decide +kernel
  obtain ⟨-, -, quiet⟩ := keys_balance past during settings none ⟨0⟩ {} sole
  have users := (quiet (by decide +kernel) (by decide +kernel)).1
  -- the two ends are the same terms, which are not to be evaluated here
  with_reducible exact users

end

end Process

end ScriptCore
