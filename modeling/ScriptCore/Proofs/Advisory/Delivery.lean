import ScriptCore.Advisory.Queue
import Mathlib.Data.List.Nodup

/-!
# Advisory — what a queue delivers

A queue is watched from outside: a journal is kept of what was added to it and how it answered,
since it was new or last reset.  What was flushed and what still waits is *delivered*.  What a
queue refused although it was nothing it had been given before was *turned away*.

* `Adds`: all that adding an advisory can do.
* `Watched.Sound`: what the queue remembers, told by the journal; every call keeps it.
* `run_delivers`: after any calls the delivered advisories are those accepted, in order, no two of
  them the same report if the queue de-duplicates, and never more of them wait than the limit
  allows.  What is no repetition is refused exactly by a full queue, and such refusals since the
  last flush are what the queue counts.
* `not_refuses_start`: two messages that begin differently are taken for a repetition when the
  hashes of their beginnings agree.
-/

namespace ScriptCore

namespace Advisory

/-- Two advisories are the same report: of one kind and one site or, when there is no site, of one
kind with messages whose first thirty characters have the same hash. -/
structure SameReport (a b : Advisory) : Prop where
  kind : a.kind = b.kind
  site : a.site = b.site
  hash : a.site = none → SipHash.ofText a.start = SipHash.ofText b.start

theorem sameReport_iff {a b : Advisory} : a.SameReport b ↔ a.topic = b.topic := by
  obtain ⟨kind, site, message⟩ := a
  obtain ⟨kind', site', message'⟩ := b
  constructor
  · rintro ⟨rfl, rfl, hash⟩
    cases site with
    | none => simp only [topic, hash rfl]
    | some n => rfl
  · intro same
    cases site <;> cases site' <;> simp only [topic, reduceCtorEq, Topic.site.injEq,
      Topic.message.injEq] at same
    · exact ⟨same.1, rfl, fun _ => same.2⟩
    · exact ⟨same.1, congrArg some same.2, fun h => nomatch h⟩

instance (a b : Advisory) : Decidable (a.SameReport b) := decidable_of_iff _ sameReport_iff.symm

theorem exists_sameReport_iff {as : List Advisory} {a : Advisory} :
    (∃ b ∈ as, b.SameReport a) ↔ a.topic ∈ as.map topic := by
  simp only [sameReport_iff, List.mem_map]

namespace Queue

/-! ### What adding does -/

/-- The topic of an advisory is marked as seen, if the queue de-duplicates. -/
def saw (q : Queue) (a : Advisory) : Queue :=
  { q with seen := if q.policy.deduplicate then a.topic :: q.seen else q.seen }

section
variable {q : Queue} {a : Advisory}

theorem saw_seen (on : q.policy.deduplicate = true) : (q.saw a).seen = a.topic :: q.seen :=
  if_pos on

theorem isFull_iff : q.isFull = true ↔ 0 < q.policy.limit ∧ q.policy.limit ≤ q.waiting.length := by
  simp [isFull]

/-- The advisory is a duplicate to the queue. -/
def Repeated (q : Queue) (a : Advisory) : Prop := q.policy.deduplicate = true ∧ a.topic ∈ q.seen

/-- **All that adding does.**  A duplicate changes nothing.  Anything else is seen, and then queued
if there is room. -/
inductive Adds (q : Queue) (a : Advisory) : Bool → Queue → Prop
  /-- A duplicate is refused. -/
  | repeated (known : q.Repeated a) : q.Adds a false q
  /-- A full queue turns the advisory away. -/
  | turnedAway (new : ¬ q.Repeated a) (full : q.isFull = true) :
      q.Adds a false { q.saw a with dropped := q.dropped + 1 }
  /-- The advisory is queued last. -/
  | queued (new : ¬ q.Repeated a) (room : q.isFull = false) :
      q.Adds a true { q.saw a with waiting := q.waiting ++ [a] }

theorem adds_add (q : Queue) (a : Advisory) : q.Adds a (q.add a).1 (q.add a).2 := by
  have add : q.add a = if q.policy.deduplicate ∧ a.topic ∈ q.seen then (false, q)
      else if q.isFull then (false, { q.saw a with dropped := q.dropped + 1 })
      else (true, { q.saw a with waiting := q.waiting ++ [a] }) := by
    cases on : q.policy.deduplicate <;> simp [Queue.add, saw, on, isFull]
  rw [add]
  split_ifs with known full
  · exact .repeated known
  · exact .turnedAway known full
  · exact .queued known (Bool.not_eq_true _ ▸ full)

/-- What is no duplicate is queued unless the queue is full. -/
theorem add_new (new : ¬ q.Repeated a) : (q.add a).1 = !q.isFull := by
  have adds := adds_add q a
  generalize (q.add a).1 = queued, (q.add a).2 = q' at adds ⊢
  cases adds with
  | repeated known => exact absurd known new
  | turnedAway _ full => rw [full]; rfl
  | queued _ room => rw [room]; rfl

end

/-! ### The journal -/

/-- What can be asked of a queue. -/
inductive Call
  | add (a : Advisory)
  | flush
  | reset
  deriving DecidableEq, Repr

/-- What an observer of a queue writes down, beginning anew at every reset. -/
structure Journal where
  /-- Everything added, in order. -/
  added : List Advisory := []
  /-- What was accepted of it. -/
  accepted : List Advisory := []
  /-- Everything flushed, in order. -/
  flushed : List Advisory := []
  /-- What was turned away before the last flush. -/
  missed : List Advisory := []
  /-- What was turned away since. -/
  dropped : List Advisory := []

/-- Under the policy, the advisory repeats one that was added before. -/
def Journal.Repeats (j : Journal) (policy : Policy) (a : Advisory) : Prop :=
  policy.deduplicate = true ∧ ∃ b ∈ j.added, b.SameReport a

instance (j : Journal) (policy : Policy) (a : Advisory) : Decidable (j.Repeats policy a) :=
  inferInstanceAs (Decidable (_ ∧ _))

/-- Writes down that an advisory was added, and whether it was queued.  It was turned away if it
was refused and repeats nothing. -/
def Journal.add (j : Journal) (policy : Policy) (a : Advisory) (queued : Bool) : Journal :=
  { j with
    added := j.added ++ [a]
    accepted := if queued then j.accepted ++ [a] else j.accepted
    dropped := if queued = true ∨ j.Repeats policy a then j.dropped else j.dropped ++ [a] }

section
variable {j : Journal} {policy : Policy} {a : Advisory}

theorem Journal.add_repeated (again : j.Repeats policy a) :
    j.add policy a false = { j with added := j.added ++ [a] } := by
  simp only [add, again, or_true, if_true, Bool.false_eq_true, if_false]

theorem Journal.add_queued : j.add policy a true =
    { j with added := j.added ++ [a], accepted := j.accepted ++ [a] } := by
  simp only [add, true_or, if_true]

theorem Journal.add_turnedAway (new : ¬ j.Repeats policy a) :
    j.add policy a false =
      { j with added := j.added ++ [a], dropped := j.dropped ++ [a] } := by
  simp only [add, new, or_false, Bool.false_eq_true, if_false]

end

/-- Writes down what a flush took. -/
def Journal.flush (j : Journal) (taken : List Advisory) : Journal :=
  { j with flushed := j.flushed ++ taken, missed := j.missed ++ j.dropped, dropped := [] }

/-- A queue and the journal kept of it. -/
structure Watched where
  queue : Queue
  journal : Journal := {}

namespace Watched

/-- One call. -/
def call (w : Watched) : Call → Watched
  | .add a => ⟨(w.queue.add a).2, w.journal.add w.queue.policy a (w.queue.add a).1⟩
  | .flush => ⟨w.queue.flush.2, w.journal.flush w.queue.flush.1⟩
  | .reset => ⟨w.queue.reset, {}⟩

/-- Calls, one after the other. -/
def run (w : Watched) (calls : List Call) : Watched := calls.foldl call w

/-- What was flushed, and then what waits to be. -/
def delivered (w : Watched) : List Advisory := w.journal.flushed ++ w.queue.waiting

/-- What the limit kept out. -/
def turnedAway (w : Watched) : List Advisory := w.journal.missed ++ w.journal.dropped

end Watched

/-- A new queue after some calls. -/
def watched (policy : Policy) (calls : List Call) : Watched := Watched.run ⟨{ policy }, {}⟩ calls

/-! ### The invariant -/

/-- **What the queue remembers**, told by the journal.  If it de-duplicates, the topics it has seen
are those of what was added, and each of them was once delivered or turned away. -/
structure Watched.Sound (policy : Policy) (w : Watched) : Prop where
  governed : w.queue.policy = policy
  seen : policy.deduplicate = true → ∀ t, t ∈ w.queue.seen ↔ t ∈ w.journal.added.map topic
  settled : policy.deduplicate = true → ∀ t, t ∈ w.journal.added.map topic ↔
    t ∈ (w.delivered ++ w.turnedAway).map topic
  once : policy.deduplicate = true → ((w.delivered ++ w.turnedAway).map topic).Nodup
  accepted : w.delivered = w.journal.accepted
  order : w.journal.accepted.Sublist w.journal.added
  bounded : 0 < policy.limit → w.queue.waiting.length ≤ policy.limit
  counted : w.queue.dropped = w.journal.dropped.length

namespace Watched
variable {policy : Policy} {w : Watched} {a : Advisory}

theorem Sound.start (policy : Policy) : Sound policy ⟨{ policy }, {}⟩ where
  governed := rfl
  seen _ _ := .rfl
  settled _ _ := .rfl
  once _ := List.nodup_nil
  accepted := rfl
  order := List.Sublist.refl _
  bounded _ := Nat.zero_le _
  counted := rfl

/-- The queue and the journal agree on what is a repetition. -/
theorem Sound.repeated_iff (h : w.Sound policy) (a : Advisory) :
    w.queue.Repeated a ↔ w.journal.Repeats policy a := by
  unfold Repeated Journal.Repeats
  rw [h.governed, exists_sameReport_iff]
  exact and_congr_right fun on => h.seen on _

/-- A new topic is seen from then on. -/
theorem Sound.saw (h : w.Sound policy) (on : policy.deduplicate = true) (t : Topic) :
    t ∈ (w.queue.saw a).seen ↔ t ∈ (w.journal.added ++ [a]).map topic := by
  rw [saw_seen (h.governed.symm ▸ on), List.mem_cons, h.seen on, List.map_append, List.mem_append,
    List.map_singleton, List.mem_singleton, or_comm]

/-- A topic that was not added before comes to those that were settled. -/
theorem Sound.settles (h : w.Sound policy) (new : ¬ w.queue.Repeated a)
    (on : policy.deduplicate = true) {before after : List Advisory}
    (all : w.delivered ++ w.turnedAway = before ++ after) :
    (∀ t, t ∈ (w.journal.added ++ [a]).map topic ↔ t ∈ (before ++ a :: after).map topic) ∧
      ((before ++ a :: after).map topic).Nodup := by
  have unseen : a.topic ∉ (before ++ after).map topic := by
    rw [← all, ← h.settled on, ← h.seen on]
    exact fun known => new ⟨h.governed.symm ▸ on, known⟩
  have settled := h.settled on
  have once := h.once on
  rw [all] at settled once
  simp only [List.map_append, List.map_cons, List.map_nil, List.mem_append, List.mem_cons,
    List.not_mem_nil, or_false] at settled once unseen ⊢
  refine ⟨fun t => ?_, List.nodup_middle.mpr (List.nodup_cons.mpr ⟨?_, once⟩)⟩
  · rw [settled t, or_assoc, or_comm (a := t ∈ after.map topic)]
  · rwa [List.mem_append]

/-- **Adding keeps the invariant.** -/
theorem Sound.add (h : w.Sound policy) (a : Advisory) : (w.call (.add a)).Sound policy := by
  have adds := adds_add w.queue a
  have agree := h.repeated_iff a
  rw [call, h.governed]
  generalize (w.queue.add a).1 = queued, (w.queue.add a).2 = q at adds ⊢
  cases adds with
  | repeated known =>
    rw [Journal.add_repeated (agree.mp known)]
    have old (t : Topic) :
        t ∈ (w.journal.added ++ [a]).map topic ↔ t ∈ w.journal.added.map topic := by
      rw [List.map_append, List.mem_append, List.map_singleton, List.mem_singleton,
        or_iff_left_of_imp]
      rintro rfl
      exact (h.seen (agree.mp known).1 _).mp known.2
    exact {
      governed := h.governed
      seen on t := (h.seen on t).trans (old t).symm
      settled on t := (old t).trans (h.settled on t)
      once := h.once
      accepted := h.accepted
      order := h.order.trans (List.sublist_append_left ..)
      bounded := h.bounded
      counted := h.counted }
  | turnedAway new full =>
    rw [Journal.add_turnedAway (mt agree.mpr new)]
    have all : w.delivered ++ (w.journal.missed ++ (w.journal.dropped ++ [a])) =
        (w.delivered ++ w.turnedAway) ++ [a] := by
      simp only [turnedAway, List.append_assoc]
    have settles (on) := h.settles new on (List.append_nil _).symm
    rw [← all] at settles
    exact {
      governed := h.governed
      seen := h.saw
      settled on := (settles on).1
      once on := (settles on).2
      accepted := h.accepted
      order := h.order.trans (List.sublist_append_left ..)
      bounded := h.bounded
      counted := by
        rw [List.length_append, h.counted]
        rfl }
  | queued new room =>
    rw [Journal.add_queued]
    have all : w.journal.flushed ++ (w.queue.waiting ++ [a]) ++ w.turnedAway =
        w.delivered ++ a :: w.turnedAway := by
      simp only [delivered, List.append_assoc, List.singleton_append]
    have settles (on) := h.settles new on rfl
    rw [← all] at settles
    exact {
      governed := h.governed
      seen := h.saw
      settled on := (settles on).1
      once on := (settles on).2
      accepted := by
        rw [delivered, ← List.append_assoc, ← h.accepted, delivered]
      order := h.order.append_right [a]
      bounded limited := by
        have := mt isFull_iff.mpr (Bool.not_eq_true _ ▸ room)
        rw [h.governed, not_and, Nat.not_le] at this
        rw [List.length_append]
        exact this limited
      counted := h.counted }

/-- What was settled is settled after a flush. -/
theorem Sound.flush (h : w.Sound policy) : (w.call .flush).Sound policy := by
  have delivered : (w.call .flush).delivered = w.delivered := List.append_nil _
  have turnedAway : (w.call .flush).turnedAway = w.turnedAway := List.append_nil _
  constructor
  case governed => exact h.governed
  case seen => exact h.seen
  case settled => rw [delivered, turnedAway]; exact h.settled
  case once => rw [delivered, turnedAway]; exact h.once
  case accepted => rw [delivered]; exact h.accepted
  case order => exact h.order
  case bounded => exact fun _ => Nat.zero_le _
  case counted => rfl

/-- **Every call keeps the invariant.** -/
theorem Sound.call (h : w.Sound policy) (c : Call) : (w.call c).Sound policy := by
  cases c with
  | add a => exact h.add a
  | flush => exact h.flush
  | reset =>
    have := Sound.start policy
    rwa [← h.governed] at this ⊢

/-- Calls keep the invariant. -/
theorem Sound.run (h : w.Sound policy) (calls : List Call) : (w.run calls).Sound policy := by
  induction calls generalizing w with
  | nil => exact h
  | cons c calls ih => exact ih (h.call c)

end Watched

theorem sound_watched (policy : Policy) (calls : List Call) :
    (watched policy calls).Sound policy :=
  (Watched.Sound.start policy).run calls

/-! ### What is delivered -/

/-- **What a queue promises**, told by its journal. -/
structure Watched.Delivers (policy : Policy) (w : Watched) : Prop where
  /-- Delivered is what was accepted, in this order. -/
  accepted : w.delivered = w.journal.accepted
  /-- What is delivered was added, in this order. -/
  order : w.delivered.Sublist w.journal.added
  /-- A queue that de-duplicates delivers nothing twice, also across flushes. -/
  once : policy.deduplicate = true → w.delivered.Pairwise (¬ ·.SameReport ·)
  /-- No more waits than the limit allows. -/
  bounded : 0 < policy.limit → w.queue.waiting.length ≤ policy.limit
  /-- What is no repetition is refused exactly by a full queue. -/
  refuses : ∀ a, ¬ w.journal.Repeats policy a →
    ((w.queue.add a).1 = false ↔ 0 < policy.limit ∧ w.queue.waiting.length = policy.limit)
  /-- A repetition is refused, and changes nothing. -/
  repetition : ∀ a, w.journal.Repeats policy a → w.queue.add a = (false, w.queue)
  /-- The queue counts what it turned away since the last flush. -/
  counts : w.queue.dropped = w.journal.dropped.length

/-- **A queue delivers once, in order and within its limit.**  This is so under every policy and
after any calls, about the time since it was new or last reset. -/
theorem run_delivers (policy : Policy) (calls : List Call) :
    (watched policy calls).Delivers policy := by
  have h := sound_watched policy calls
  generalize watched policy calls = w at h ⊢
  refine {
    accepted := h.accepted
    order := h.accepted ▸ h.order
    once on := ?once
    bounded := h.bounded
    refuses a new := ?refuses
    repetition a again := if_pos ((h.repeated_iff a).mpr again)
    counts := h.counted }
  case once =>
    have once := h.once on
    rw [List.map_append] at once
    have apart := List.pairwise_map.mp once.of_append_left
    exact apart.imp fun differ same => differ (sameReport_iff.mp same)
  case refuses =>
    rw [add_new (mt (h.repeated_iff a).mp new), Bool.not_eq_false', isFull_iff, h.governed]
    exact and_congr_right fun limited =>
      ⟨fun full => Nat.le_antisymm (h.bounded limited) full, fun full => Nat.le_of_eq full.symm⟩

/-- A queue may refuse what it has room for and what begins like nothing it was given: the hashes
of these two beginnings agree. -/
theorem not_refuses_start :
    ¬ ∀ (policy : Policy) (calls : List Call) (a : Advisory),
      let w := watched policy calls
      (∀ b ∈ w.journal.added, b.kind = a.kind → b.site = a.site →
        ¬ (a.site = none → b.start = a.start)) →
      ((w.queue.add a).1 = false ↔ w.queue.isFull = true) := by
  let first : Advisory := { kind := .notNumeric, message := "b0wY7osKo0E" }
  let second : Advisory := { kind := .notNumeric, message := "ODCHePoib6K" }
  intro h
  have refused := h {} [.add first] second (by decide) |>.mp (by decide +kernel)
  exact absurd refused (by decide)

end Queue
end Advisory
end ScriptCore
