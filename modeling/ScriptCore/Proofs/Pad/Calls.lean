import ScriptCore.Proofs.Pad.Handles

/-!
# Pad — calls within calls

A host calls an activation, calls it again while that call runs, ends the calls in turn, and in
between does whatever leaves the calls alone (`Op.spares`): it compiles, activates units and makes
closures, sweeps, deals with cells, and calls and releases other activations.

* `run_calls`: as long as calls run (`InCall`), the base runs as many and keeps its cells, frames
  share none but those, another call gets a frame (`FrameOf`), and the innermost call can be ended;
  when the last one has ended, the base has new cells in its plain slots and its own in the others
  (`Renewed`), and the handles of frames are stale.

What a step keeps is `Running`: the handles that calls run on are of frames of the base, but for the
outermost, which is of the base itself.
-/

namespace ScriptCore.Pads
open Beside

/-- The operation leaves calls alone: it neither starts nor ends one on the base, and does not
release what they run on. -/
def Op.spares (p : Pads) (base : ActivationId) (running : List ActivationId) : Op → Bool
  | push x => x ≠ base
  | pop x => x ∉ running && ((p.activation? x).bind (·.base)) ≠ some base
  | release x => x ∉ running
  | _ => true

/-- What goes on while calls run. -/
inductive Move
  | call
  | ret
  | aside (op : Op)

/-- A host that calls an activation: the handles that calls run on, innermost first, and those on
which they ended. -/
structure Calls where
  host : Host
  running : List ActivationId := []
  ended : List ActivationId := []

namespace Calls

/-- The pads beside the heap. -/
def pads (c : Calls) : Beside Pads := c.host.pads

/-- Starts a call. -/
def call (base : ActivationId) (c : Calls) : Calls :=
  let host := c.host.step (.push base)
  match push base c.pads with
  | .ok id _ => { c with host, running := id :: c.running }
  | .error _ _ => { c with host }

/-- Ends the innermost call. -/
def ret (c : Calls) : Calls :=
  match c.running with
  | [] => c
  | id :: rest => { host := c.host.step (.pop id), running := rest, ended := id :: c.ended }

/-- One move, while calls run. -/
def step (base : ActivationId) (c : Calls) (m : Move) : Calls :=
  if c.running = [] then c
  else match m with
    | .call => c.call base
    | .ret => c.ret
    | .aside op =>
      if op.spares c.pads.own base c.running then { c with host := c.host.step op } else c

@[simp]
theorem host_call (base : ActivationId) (c : Calls) :
    (c.call base).host = c.host.step (.push base) := by
  unfold call
  dsimp only
  split <;> rfl

@[simp]
theorem ended_call (base : ActivationId) (c : Calls) : (c.call base).ended = c.ended := by
  unfold call
  dsimp only
  split <;> rfl

/-- One move after the other. -/
def run (base : ActivationId) (c : Calls) (ms : List Move) : Calls := ms.foldl (step base) c

end Calls

/-- Calls run: what is true of the base, of its frames, of another call and of the end of the
innermost one. -/
structure InCall (base : ActivationId) (s : Beside Pads) (c : Calls) : Prop where
  depth : ∃ a, c.pads.own.activation? base = some a ∧ a.depth = c.running.length
  cells : ∀ k, c.pads.own.cellAt? base k = s.own.cellAt? base k
  apart : ∀ f ∈ c.running, ∀ g ∈ c.running, f ≠ g → ∀ k m i, c.pads.own.cellAt? f k = some i →
    c.pads.own.cellAt? g m = some i → ∃ l, c.pads.own.cellAt? base l = some i
  call : ∃ frame t, push base c.pads = .ok frame t ∧ FrameOf c.pads t base frame
  ret : ∃ id rest t, c.running = id :: rest ∧ pop id c.pads = .ok () t ∧
    (rest = [] → id = base ∧ Renewed c.pads t base) ∧
    (rest ≠ [] → IsStale t id)

/-- Two activations share no cells but the given ones. -/
def SharesOnly (cells : List CellId) (p : Pads) (f g : ActivationId) : Prop :=
  ∀ k m i, p.cellAt? f k = some i → p.cellAt? g m = some i → i ∈ cells

/-- The calls on `running` are on a base with the given cells and on frames of it, and what they run
on is safe from sweeping. -/
structure Running (h₀ : Heap) (base : ActivationId) (cells : List CellId) (c : Calls) : Prop where
  balanced : Balanced h₀ c.host.held c.host.pads
  live : ∃ a, c.pads.own.activation? base = some a ∧ a.depth = c.running.length ∧
    a.cells = cells ∧ a.base = none
  last : c.running.getLast? = some base
  distinct : c.running.Nodup
  frames : ∀ f ∈ c.running, f ≠ base → ∃ a, c.pads.own.activation? f = some a ∧
    a.base = some base ∧ a.owner = none
  apart : c.running.Pairwise (SharesOnly cells c.pads.own)

/-! ### What leaves calls alone -/

section
variable {h₀ : Heap} {held : List CellId} {s t : Beside Pads} {base z id : ActivationId}
  {a b : Activation} {running : List ActivationId}

theorem not_isOrphan {h : Heap} (ha : s.own.activation? z = some a)
    (busy : a.depth ≠ 0 ∨ a.owner = none) : s.own.isOrphan h z = false := by
  unfold isOrphan
  rw [ha]
  rcases busy with depth | owner
  · simp [depth]
  · simp [owner]

/-- **Sweeping** spares an activation that serves calls or was made for no code cell. -/
theorem keeps_sweep_busy (z : ActivationId) (busy : a.depth ≠ 0 ∨ a.owner = none) :
    Keeps (fun s : Beside Pads => s.own.activation? z = some a) sweep := by
  have round (rounds : Nat) :
      Keeps (fun s : Beside Pads => s.own.activation? z = some a) (sweepWithin rounds) := by
    induction rounds with
    | zero => exact Keeps.pure _
    | succ rounds ih =>
      refine Leads.self.bind fun p => Leads.of_ends fun s ⟨same, hs⟩ => Ends.step rfl ?_
      subst same
      dsimp only
      split
      · exact hs
      refine Leads.ends (P := fun s : Beside Pads => s.own.activation? z = some a) ?_ hs
      refine Leads.bind (Leads.forM fun x hx => ?_) fun _ => ih.bind fun _ => Keeps.pure _
      have other : z ≠ x := by
        rintro rfl
        have gone := (List.mem_filter.mp hx).2
        rw [not_isOrphan hs busy] at gone
        cases gone
      refine Leads.bind (Leads.of_ends fun t ht => (ends_remove x t).imp ?_ fun _ e => e.1 ▸ ht)
        fun _ _ ht => ht
      rintro _ u ⟨-, d, -, w⟩
      exact (w.others z other).trans ht
  exact Keeps.self.bind fun p => round p.live

/-- What calls run on stays, but that other calls may run on frames. -/
def Leaves (base : ActivationId) (running : List ActivationId) (s t : Beside Pads) : Prop :=
  ∀ z ∈ running, ∀ a, s.own.activation? z = some a → a.depth ≠ 0 ∨ a.owner = none →
    ∃ d, t.own.activation? z = some { a with depth := d } ∧ (z = base → d = a.depth)

theorem leaves_of_same
    (same : ∀ z a, s.own.activation? z = some a → t.own.activation? z = some a) :
    Leaves base running s t := fun z _ a ha _ => ⟨a.depth, same z a ha, fun _ => rfl⟩

theorem leaves_act (b : Balanced h₀ held s) {op : Op}
    (spares : op.spares s.own base running = true) :
    Ends (op.act held) s (fun _ => Leaves base running s) (Leaves base running s) := by
  have idle : Leaves base running s s := leaves_of_same fun _ _ ha => ha
  have own {α : Type} {x : OnPads α} (keeps : Keeps (fun s' => s'.own = s.own) x) :
      Ends x s (fun _ => Leaves base running s) (Leaves base running s) :=
    (keeps.ends rfl).imp (fun _ _ e => leaves_of_same fun _ _ ha => e ▸ ha)
      fun _ e => leaves_of_same fun _ _ ha => e ▸ ha
  cases op with
  | compile d =>
    have same {u : Beside Pads} (w : Furthers s.own u.own) : Leaves base running s u :=
      leaves_of_same fun z a ha => by rwa [activation?_eq, w.places, ← activation?_eq]
    exact ends_only ((furthers_directive b d).imp (fun _ _ q => same q.1) fun _ e => same e.1)
  | activate u outer =>
    exact ends_only ((ends_activate b u outer).imp (fun _ _ q => leaves_of_same q.2.grown.live)
      fun _ e => e.2 ▸ idle)
  | makeClosure u outer =>
    exact Ends.bind ((ends_makeClosure b u outer).imp (fun _ _ q => leaves_of_same q.2.2.1)
      fun _ e => e ▸ idle) fun _ _ q => q
  | push x =>
    have other : x ≠ base := of_decide_eq_true spares
    refine ends_only ((ends_push b x).imp ?_ fun _ e => e.1 ▸ idle)
    rintro _ t ⟨-, pushed⟩ z - a ha -
    by_cases here : z = x
    · obtain ⟨_, ha', after, -⟩ := pushed.runs
      subst here
      cases ha.symm.trans ha'
      exact ⟨_, after, fun e => absurd e other⟩
    · exact ⟨a.depth, pushed.others z a here ha, fun _ => rfl⟩
  | pop x =>
    simp only [Op.spares, Bool.and_eq_true, decide_eq_true_eq, ne_eq] at spares
    obtain ⟨apart, other⟩ := spares
    refine ends_only ?_
    cases hx : s.own.activation? x with
    | none =>
      have same : Ends (pop x) s (fun _ t => t = s) (· = s) := by
        unfold Ends
        rw [(isStale hx).pop]
      exact same.imp (fun _ _ e => e ▸ idle) fun _ e => e ▸ idle
    | some c =>
      rw [hx, Option.bind_some] at other
      have ne {z : ActivationId} (hz : z ∈ running) : z ≠ x := fun e => apart (e ▸ hz)
      cases frame : c.base with
      | none =>
        refine (ends_pop_base b hx frame).imp ?_ fun _ e => e
        rintro _ t ⟨-, -, others, -⟩ z hz a ha -
        exact ⟨a.depth, others z a (ne hz) ha, fun _ => rfl⟩
      | some below =>
        refine (ends_pop_frame b hx frame).imp ?_ fun _ e => e
        rintro _ t ⟨-, -, -, others⟩ z hz a ha -
        have after := others z a (ne hz) ha
        split at after
        · rename_i here
          refine ⟨_, after, fun e => absurd ?_ other⟩
          rw [frame, ← here, e]
        · exact ⟨a.depth, after, fun _ => rfl⟩
  | release x =>
    have apart : x ∉ running := of_decide_eq_true spares
    refine ends_only (Ends.bind ((ends_remove x s).imp (fun _ _ q => q) fun _ e => e.1 ▸ idle) ?_)
    rintro cells t ⟨-, _, -, w⟩ z hz a ha -
    exact ⟨a.depth, (w.others z fun e => apart (e ▸ hz)).trans ha, fun _ => rfl⟩
  | sweep =>
    refine ends_only (Ends.of_after fun z _ a ha busy => ⟨a.depth, ?_, fun _ => rfl⟩)
    exact (keeps_sweep_busy z busy).after ha
  | cell x slot => exact own (keeps_cell s.own x slot)
  | onHeap op => exact own (Keeps.onHeap (P := fun p => p = s.own) _)

end

/-! ### What a move keeps -/

section
variable {h₀ : Heap} {base id f : ActivationId} {cells : List CellId} {c : Calls}
  {s t : Beside Pads} {rest : List ActivationId} {op : Op}

theorem Host.step_only {α : Type} {x : OnPads α} {host : Host} {a : α} (named : op.named = [])
    (act : op.act host.held = Op.only host.held x) (e : x host.pads = .ok a t) :
    host.step op = ⟨t, host.held⟩ := by
  have done : Op.only host.held x host.pads = .ok host.held t := by
    have thrown : Functor.discard x host.pads = .ok () t := by
      show EStateM.map (fun _ => ()) x host.pads = _
      unfold EStateM.map
      rw [e]
    exact bind_ok thrown
  unfold Host.step
  rw [if_pos (by rw [named]; nofun), act, done]

theorem Running.ne_nil (r : Running h₀ base cells c) : c.running ≠ [] := by
  rintro e
  have last := r.last
  rw [e] at last
  cases last

theorem Running.mem_base (r : Running h₀ base cells c) : base ∈ c.running :=
  List.mem_of_getLast? r.last

theorem Running.busy (r : Running h₀ base cells c) {a : Activation}
    (depth : a.depth = c.running.length) : a.depth ≠ 0 := by
  rw [depth]
  exact fun none => r.ne_nil (List.length_eq_zero_iff.mp none)

/-- What calls run on keeps its cells as long as nothing but its depth changes: frames are frames,
and share what they did. -/
theorem Running.stays (r : Running h₀ base cells c) {running : List ActivationId} {q : Pads}
    (still : running.Sublist c.running)
    (stays : ∀ z ∈ running, ∀ a, c.pads.own.activation? z = some a →
      a.depth ≠ 0 ∨ a.owner = none → ∃ d, q.activation? z = some { a with depth := d }) :
    (∀ f ∈ running, ∀ k, q.cellAt? f k = c.pads.own.cellAt? f k) ∧
      (∀ f ∈ running, f ≠ base → ∃ a, q.activation? f = some a ∧ a.base = some base ∧
        a.owner = none) ∧ running.Pairwise (SharesOnly cells q) := by
  have kept (f : ActivationId) (hf : f ∈ running) (k : Nat) :
      q.cellAt? f k = c.pads.own.cellAt? f k := by
    obtain ⟨a, ha, busy⟩ : ∃ a, c.pads.own.activation? f = some a ∧
        (a.depth ≠ 0 ∨ a.owner = none) := by
      by_cases here : f = base
      · obtain ⟨a, ha, depth, -⟩ := r.live
        exact ⟨a, here ▸ ha, .inl (r.busy depth)⟩
      · obtain ⟨a, ha, -, owner⟩ := r.frames f (still.subset hf) here
        exact ⟨a, ha, .inr owner⟩
    obtain ⟨d, hd⟩ := stays f hf a ha busy
    rw [Pads.cellAt?_eq hd, Pads.cellAt?_eq ha]
  refine ⟨kept, fun f hf other => ?_, ?_⟩
  · obtain ⟨a, ha, frame, owner⟩ := r.frames f (still.subset hf) other
    obtain ⟨d, hd⟩ := stays f hf a ha (.inr owner)
    exact ⟨_, hd, frame, owner⟩
  · refine (r.apart.sublist still).imp_of_mem fun hf hg shares k m i hi hj => ?_
    rw [kept _ hf] at hi
    rw [kept _ hg] at hj
    exact shares k m i hi hj

/-- **Another call** gets a frame. -/
theorem Running.call (r : Running h₀ base cells c) :
    ∃ id t, push base c.pads = .ok id t ∧ FrameOf c.pads t base id ∧
      Running h₀ base cells (c.call base) := by
  obtain ⟨a, ha, depth, same, own⟩ := r.live
  have pushed : Ends (push base) c.pads _ fun _ => False :=
    (ends_push r.balanced base).imp (fun _ _ q => q) fun _ e => by
      cases ha.symm.trans e.2
  obtain ⟨id, t, e, b, w⟩ := pushed.succeeds
  obtain ⟨_, ha', after, -, frame⟩ := w.runs
  cases ha.symm.trans ha'
  have frame := frame (r.busy depth)
  refine ⟨id, t, e, frame, ?_⟩
  have host : c.host.step (.push base) = ⟨t, c.host.held⟩ := Host.step_only rfl rfl e
  have called : c.call base = { c with host := ⟨t, c.host.held⟩, running := id :: c.running } := by
    unfold Calls.call
    rw [host, e]
  have new (f : ActivationId) (hf : f ∈ c.running) : id ≠ f := by
    rintro rfl
    by_cases here : id = base
    · subst here
      cases frame.new.symm.trans ha
    · obtain ⟨d, hd, -⟩ := r.frames id hf here
      cases frame.new.symm.trans hd
  obtain ⟨kept, frames, apart⟩ := r.stays (q := t.own) (.refl _) fun z _ d hd _ => by
    by_cases here : z = base
    · subst here
      cases ha.symm.trans hd
      exact ⟨_, after⟩
    · exact ⟨d.depth, w.others z d here hd⟩
  rw [called]
  refine ⟨b, ⟨_, after, congrArg Nat.succ depth, same, own⟩, ?_, ?_, fun f hf other => ?_, ?_⟩
  · rw [List.getLast?_cons_of_ne_nil r.ne_nil]
    exact r.last
  · exact List.nodup_cons.mpr ⟨fun mem => new id mem rfl, r.distinct⟩
  · rcases List.mem_cons.mp hf with rfl | hf
    · obtain ⟨_, d, -, hd, origin, -, owner⟩ := frame.live
      exact ⟨d, hd, congrArg Activation.Origin.base origin, owner⟩
    · exact frames f hf other
  · refine List.pairwise_cons.mpr ⟨fun f hf k m i hi hj => ?_, apart⟩
    -- what the frame shares with an older activation is not new
    have hj := (kept f hf m).symm.trans hj
    obtain ⟨l, hl⟩ := frame.borrows k i hi (r.balanced.lt_size (mem_held_of_cellAt? hj))
    exact same ▸ List.mem_of_getElem? ((cellAt?_eq ha l).symm.trans hl)

/-- **The end of a call** on a frame, and of the last call. -/
theorem Running.ret (r : Running h₀ base cells c) (top : c.running = id :: rest) :
    ∃ t, pop id c.pads = .ok () t ∧ c.ret = ⟨⟨t, c.host.held⟩, rest, id :: c.ended⟩ ∧
      (rest = [] → id = base ∧ Renewed c.pads t base) ∧
      (rest ≠ [] → id ≠ base ∧ t.own.activation? id = none ∧ Running h₀ base cells c.ret) := by
  have ended {t : Beside Pads} (e : pop id c.pads = .ok () t) :
      c.ret = ⟨⟨t, c.host.held⟩, rest, id :: c.ended⟩ := by
    have host : c.host.step (.pop id) = ⟨t, c.host.held⟩ := Host.step_only rfl rfl e
    unfold Calls.ret
    rw [top]
    dsimp only
    rw [host]
  obtain ⟨a, ha, depth, same, own⟩ := r.live
  have last := r.last
  have distinct := r.distinct
  rw [top] at last distinct depth
  by_cases past : rest = []
  · subst past
    obtain rfl : id = base := Option.some.inj last
    obtain ⟨_, t, e, -, -, -, -, renewed⟩ :=
      (ends_pop_base r.balanced ha own (E := fun _ => False)).succeeds
    refine ⟨t, e, ended e, fun _ => ⟨rfl, (renewed (Nat.le_of_eq depth)).1⟩, fun more => ?_⟩
    exact absurd rfl more
  · rw [List.getLast?_cons_of_ne_nil past] at last
    obtain ⟨apart, distinct⟩ := List.nodup_cons.mp distinct
    have ne {f : ActivationId} (hf : f ∈ rest) : f ≠ id := fun e => apart (e ▸ hf)
    have other : base ≠ id := ne (List.mem_of_getLast? last)
    obtain ⟨d, hd, frame, -⟩ := r.frames id (top ▸ List.mem_cons_self) other.symm
    obtain ⟨_, t, e, b, -, gone, others⟩ :=
      (ends_pop_frame r.balanced hd frame (E := fun _ => False)).succeeds
    refine ⟨t, e, ended e, fun none => absurd none past, fun _ => ⟨other.symm, gone, ?_⟩⟩
    have after := others base a other ha
    rw [if_pos rfl] at after
    have still : rest.Sublist c.running := top ▸ List.sublist_cons_self id rest
    obtain ⟨-, frames, apart⟩ := r.stays (q := t.own) still fun z hz d hd _ => by
      have after := others z d (ne hz) hd
      split at after
      · exact ⟨_, after⟩
      · exact ⟨d.depth, after⟩
    rw [ended e]
    exact ⟨b, ⟨_, after, congrArg (· - 1) depth, same, own⟩, last, distinct, frames, apart⟩

/-- **What leaves calls alone.** -/
theorem Running.aside (r : Running h₀ base cells c)
    (spares : op.spares c.pads.own base c.running = true) :
    Running h₀ base cells { c with host := c.host.step op } := by
  have leaves : Leaves base c.running c.pads (c.host.step op).pads :=
    Host.of_step (P := fun _ => Leaves base c.running c.pads)
      (fun _ => leaves_act r.balanced spares) fun _ => leaves_of_same fun _ _ ha => ha
  obtain ⟨a, ha, depth, same, own⟩ := r.live
  obtain ⟨d, hd, kept⟩ := leaves base r.mem_base a ha (.inl (r.busy depth))
  obtain ⟨-, frames, apart⟩ := r.stays (.refl _) fun z hz a ha busy =>
    (leaves z hz a ha busy).imp fun _ => And.left
  exact ⟨r.balanced.step op, ⟨_, hd, (kept rfl).trans depth, same, own⟩, r.last, r.distinct, frames,
    apart⟩

/-- The last call has ended. -/
def Over (base : ActivationId) (cells : List CellId) (c : Calls) : Prop :=
  c.running = [] ∧ ∃ u, pop base u = .ok () c.pads ∧ (∀ k : Nat, u.own.cellAt? base k = cells[k]?) ∧
    Renewed u c.pads base

theorem Running.cellAt?_eq (r : Running h₀ base cells c) (k : Nat) :
    c.pads.own.cellAt? base k = cells[k]? := by
  obtain ⟨a, ha, -, same, -⟩ := r.live
  rw [Pads.cellAt?_eq ha, same]

/-- **One move.** -/
theorem Running.step (r : Running h₀ base cells c) (m : Move) :
    Running h₀ base cells (c.step base m) ∨ Over base cells (c.step base m) := by
  unfold Calls.step
  rw [if_neg r.ne_nil]
  cases m with
  | call =>
    obtain ⟨id, t, -, -, r⟩ := r.call
    exact .inl r
  | ret =>
    obtain ⟨id, rest, top⟩ := List.exists_cons_of_ne_nil r.ne_nil
    obtain ⟨t, e, ended, last, more⟩ := r.ret top
    by_cases past : rest = []
    · obtain ⟨rfl, renewed⟩ := last past
      dsimp only
      rw [ended]
      exact .inr ⟨past, _, e, r.cellAt?_eq, renewed⟩
    · exact .inl (more past).2.2
  | aside op =>
    dsimp only
    split
    · rename_i spares
      exact .inl (r.aside spares)
    · exact .inl r

theorem step_of_over (past : c.running = []) (m : Move) : c.step base m = c := if_pos past

/-- **All moves.** -/
theorem Running.run (r : Running h₀ base cells c) (ms : List Move) :
    Running h₀ base cells (c.run base ms) ∨ Over base cells (c.run base ms) := by
  induction ms generalizing c with
  | nil => exact .inl r
  | cons m ms ih =>
    rcases r.step m with r | past
    · exact ih r
    · have still (ms : List Move) : Calls.run base (c.step base m) ms = c.step base m := by
        induction ms with
        | nil => rfl
        | cons m' ms ih =>
          unfold Calls.run at ih ⊢
          rw [List.foldl_cons, step_of_over past.1, ih]
      show _ ∨ Over base cells (Calls.run base (c.step base m) ms)
      rw [still]
      exact .inr past

/-- What a call, another one and the end of one do while calls run. -/
theorem Running.inCall (r : Running h₀ base cells c)
    (before : ∀ k : Nat, s.own.cellAt? base k = cells[k]?) : InCall base s c := by
  obtain ⟨a, ha, depth, -⟩ := r.live
  obtain ⟨frame, t, pushes, frameOf, -⟩ := r.call
  obtain ⟨id, rest, top⟩ := List.exists_cons_of_ne_nil r.ne_nil
  obtain ⟨u, pops, -, last, more⟩ := r.ret top
  refine ⟨⟨a, ha, depth⟩, fun k => (r.cellAt?_eq k).trans (before k).symm,
    fun f hf g hg other k m i hi hj => ?_, ⟨frame, t, pushes, frameOf⟩, id, rest, u, top, pops,
    last, fun past => Pads.isStale (more past).2.1⟩
  have : Std.Symm (SharesOnly cells c.pads.own) :=
    ⟨fun f g shares k m i hi hj => shares m k i hj hi⟩
  obtain ⟨l, hl⟩ := List.mem_iff_getElem?.mp (r.apart.forall hf hg other k m i hi hj)
  exact ⟨l, (r.cellAt?_eq l).trans hl⟩

/-- **The first call** runs on the activation itself. -/
theorem Balanced.running {host : Host} {a : Activation} (b : Balanced h₀ host.held host.pads)
    (ha : host.pads.own.activation? base = some a) (idle : a.depth = 0) (own : a.base = none) :
    (Calls.call base { host }).running = [base] ∧
      Running h₀ base a.cells (Calls.call base { host }) := by
  have pushed : Ends (push base) host.pads _ fun _ => False :=
    (ends_push b base).imp (fun _ _ q => q) fun _ e => by
      cases ha.symm.trans e.2
  obtain ⟨id, t, e, b', w⟩ := pushed.succeeds
  obtain ⟨_, ha', after, first, -⟩ := w.runs
  cases ha.symm.trans ha'
  obtain rfl := first idle
  have called : Calls.call id { host } = { host := ⟨t, host.held⟩, running := [id] } := by
    have stepped : host.step (.push id) = ⟨t, host.held⟩ := Host.step_only rfl rfl e
    unfold Calls.call Calls.pads
    dsimp only
    rw [stepped, e]
  rw [called]
  refine ⟨rfl, b', ⟨_, after, congrArg Nat.succ idle, rfl, own⟩, rfl, List.nodup_singleton _,
    fun f hf other => ?_, List.pairwise_singleton _ _⟩
  exact absurd (List.mem_singleton.mp hf) other

/-! ### Handles on which calls ended -/

/-- Every move is one of the host's, or none. -/
theorem host_step (base : ActivationId) (c : Calls) (m : Move) :
    (c.step base m).host = c.host ∨ ∃ op, (c.step base m).host = c.host.step op := by
  unfold Calls.step
  split
  · exact .inl rfl
  cases m with
  | call => exact .inr ⟨.push base, c.host_call base⟩
  | ret =>
    dsimp only
    unfold Calls.ret
    split
    · exact .inl rfl
    · exact .inr ⟨.pop _, rfl⟩
  | aside op =>
    dsimp only
    split
    · exact .inr ⟨op, rfl⟩
    · exact .inl rfl

/-- A frame goes when its call ends. -/
theorem Running.ended (r : Running h₀ base cells c) (m : Move) (hf : f ∈ (c.step base m).ended)
    (other : f ≠ base) : f ∈ c.ended ∨
      f ∈ c.pads.own.handles ∧ f ∉ (c.step base m).pads.own.handles := by
  unfold Calls.step at hf ⊢
  rw [if_neg r.ne_nil] at hf ⊢
  cases m with
  | call =>
    rw [Calls.ended_call] at hf
    exact .inl hf
  | ret =>
    obtain ⟨id, rest, top⟩ := List.exists_cons_of_ne_nil r.ne_nil
    obtain ⟨t, e, ended, last, more⟩ := r.ret top
    dsimp only at hf ⊢
    rw [ended] at hf ⊢
    rcases List.mem_cons.mp hf with rfl | hf
    · obtain ⟨b, hb, -⟩ := r.frames f (top ▸ List.mem_cons_self) other
      refine .inr ⟨mem_handles.mpr ⟨b, hb⟩, fun mem => ?_⟩
      obtain ⟨_, there⟩ := mem_handles.mp mem
      have past : rest ≠ [] := fun none => other (last none).1
      cases (more past).2.1.symm.trans there
    · exact .inl hf
  | aside op =>
    refine .inl ?_
    dsimp only at hf
    split at hf <;> exact hf

theorem run_take_of_getElem? {ms : List Move} {m : Move} {n : Nat} (hm : ms[n]? = some m) :
    c.run base (ms.take (n + 1)) = (c.run base (ms.take n)).step base m := foldl_take_of_getElem? hm

theorem run_take_of_none {ms : List Move} {n : Nat} (past : ms[n]? = none) :
    c.run base (ms.take (n + 1)) = c.run base (ms.take n) :=
  congrArg (c.run base) (take_of_none past)

theorem run_steps (base : ActivationId) (c : Calls) (ms : List Move) (n : Nat) :
    (c.run base (ms.take (n + 1))).host = (c.run base (ms.take n)).host ∨
      ∃ op, (c.run base (ms.take (n + 1))).host = (c.run base (ms.take n)).host.step op := by
  cases hm : ms[n]? with
  | none => exact .inl (congrArg Calls.host (run_take_of_none hm))
  | some m =>
    rw [run_take_of_getElem? hm]
    exact host_step base _ m

/-- **The frame of a call that ended** was live and went. -/
theorem Running.went (r : Running h₀ base cells c) (fresh : c.ended = []) (ms : List Move) (n : Nat)
    (hf : f ∈ (c.run base (ms.take n)).ended) (other : f ≠ base) : ∃ m, m < n ∧
      f ∈ (c.run base (ms.take m)).pads.own.handles ∧
      f ∉ (c.run base (ms.take (m + 1))).pads.own.handles := by
  induction n with
  | zero =>
    have none : f ∈ c.ended := hf
    rw [fresh] at none
    cases none
  | succ n ih =>
    have earlier (hf : f ∈ (c.run base (ms.take n)).ended) : ∃ m, m < n + 1 ∧
        f ∈ (c.run base (ms.take m)).pads.own.handles ∧
        f ∉ (c.run base (ms.take (m + 1))).pads.own.handles := by
      obtain ⟨m, lt, went⟩ := ih hf
      exact ⟨m, Nat.lt_succ_of_lt lt, went⟩
    cases hm : ms[n]? with
    | none =>
      rw [run_take_of_none hm] at hf
      exact earlier hf
    | some m =>
      rw [run_take_of_getElem? hm] at hf
      rcases r.run (ms.take n) with r | past
      · rcases r.ended m hf other with before | went
        · exact earlier before
        · exact ⟨n, Nat.lt_succ_self n, went.1, by rw [run_take_of_getElem? hm]; exact went.2⟩
      · rw [step_of_over past.1] at hf
        exact earlier hf

/-- A handle on a frame is stale once its call has ended, until its place has been vacated 2³²
times. -/
theorem Running.isStale (r : Running h₀ base cells c) (t : c.pads.own.Tallies)
    (fresh : c.ended = []) (ms : List Move) (hf : f ∈ (c.run base ms).ended) (other : f ≠ base)
    (rare : vacations (fun n => (c.run base (ms.take n)).pads.own) f.index ms.length < 2 ^ 32) :
    IsStale (c.run base ms).pads f := by
  have all : ms.take ms.length = ms := List.take_length
  rw [← all] at hf
  obtain ⟨m, lt, live, gone⟩ := r.went fresh ms _ hf other
  have turned := turned_of_steps (fun n => (c.run base (ms.take n)).host) r.balanced t
    (run_steps base c ms)
  have never := gone_for_good turned rare (Nat.le_succ m) lt live gone
  rw [all] at never
  exact Pads.isStale (Option.eq_none_iff_forall_ne_some.mpr fun a ha =>
    never (mem_handles.mpr ⟨a, ha⟩))

end

/-- **Calls nest**, on any activation of any run on which no call runs and that is no frame. -/
theorem run_calls (seeds : Array Seed) (supply : Supply) (pool : Nat) (ops : List Op)
    {base : ActivationId} {a : Activation}
    (live : (reached seeds supply pool ops).own.activation? base = some a) (idle : a.depth = 0)
    (own : a.base = none) :
    let host := (Host.start seeds supply pool).run ops
    let begun := Calls.call base { host }
    begun.running = [base] ∧ ∀ ms,
      let c := begun.run base ms
      (c.running ≠ [] → InCall base host.pads c) ∧
      (c.running = [] → ∃ u, pop base u = .ok () c.pads ∧
        (∀ k, u.own.cellAt? base k = host.pads.own.cellAt? base k) ∧ Renewed u c.pads base) ∧
      ∀ f ∈ c.ended, f ≠ base →
        vacations (fun n => (begun.run base (ms.take n)).pads.own) f.index ms.length < 2 ^ 32 →
          IsStale c.pads f := by
  intro host begun
  have b := (balanced_start seeds supply pool).run ops
  have before (k : Nat) : host.pads.own.cellAt? base k = a.cells[k]? := cellAt?_eq live k
  obtain ⟨first, r⟩ := b.running live idle own
  have tallies : begun.pads.own.Tallies := by
    unfold Calls.pads
    rw [Calls.host_call]
    exact (b.moved ((balanced_start seeds supply pool).tallies_run (tallies_start ..) ops) _).1
  have fresh : begun.ended = [] := Calls.ended_call base { host }
  refine ⟨first, fun ms => ⟨fun more => ?_, fun past => ?_, fun f hf other rare => ?_⟩⟩
  · rcases r.run ms with r | past
    · exact r.inCall before
    · exact absurd past.1 more
  · rcases r.run ms with r | ⟨-, u, pops, cells, renewed⟩
    · exact absurd past r.ne_nil
    · exact ⟨u, pops, fun k => (cells k).trans (before k).symm, renewed⟩
  · exact r.isStale tallies fresh ms hf other rare

/-- A frame beside a plain and a `state` variable, on which the call ends before the first one
does. -/
theorem run_calls_frame :
    let ops : List Op := [.compile (.openUnit none none),
      .compile (.declare 0 "x" .scalar .my), .compile (.declare 0 "n" .scalar .state),
      .activate 0 none]
    let host := (Host.start #[] {} 0).run ops
    let begun := Calls.call ⟨0, 0⟩ { host }
    InCall ⟨0, 0⟩ host.pads (begun.run ⟨0, 0⟩ [.call, .aside .sweep]) ∧
      IsStale (begun.run ⟨0, 0⟩ [.call, .ret, .ret]).pads ⟨1, 0⟩ := by
  intro ops host begun
  have there : ((reached #[] {} 0 ops).own.activation? ⟨0, 0⟩).map
      (fun a => (a.depth, a.base)) = some (0, none) := by decide +kernel
  obtain ⟨a, live, e⟩ := Option.map_eq_some_iff.mp there
  obtain ⟨idle, own⟩ := Prod.mk.inj e
  obtain ⟨-, calls⟩ := run_calls #[] {} 0 ops live idle own
  refine ⟨(calls [.call, .aside .sweep]).1 (by decide +kernel), ?_⟩
  refine (calls [.call, .ret, .ret]).2.2 ⟨1, 0⟩ (by decide +kernel) (by decide) ?_
  exact Nat.lt_of_le_of_lt (vacations_le _ _ 3) (by decide)

end ScriptCore.Pads
