import ScriptCore.Advisory.Basic
import ScriptCore.Text.SipHash

/-!
# Advisory — the queue

A queue holds advisories in report order until they are flushed.  With de-duplication on, each
key is reported once: the kind and site, or the kind and a hash of the first thirty characters of
the message when there is no site.  A limit bounds the length; what it turns away is counted until
the next flush.  The keys seen outlive a flush and are forgotten by `reset`.
-/

namespace ScriptCore

/-- How a queue filters: at most `limit` entries unless that is zero, each key once if
`deduplicate`. -/
structure Advisory.Policy where
  limit : Nat := 1000
  deduplicate : Bool := true
  deriving DecidableEq, Repr

/-- No limit and no de-duplication. -/
def Advisory.Policy.unlimited : Advisory.Policy := ⟨0, false⟩

/-- What makes two advisories the same report. -/
inductive Advisory.Topic
  | site (kind : Advisory.Kind) (site : Nat)
  | message (kind : Advisory.Kind) (hash : UInt64)
  deriving DecidableEq, Repr

/-- The first thirty characters of the message. -/
def Advisory.start (a : Advisory) : String := String.ofList (a.message.toList.take 30)

/-- The topic of an advisory. -/
def Advisory.topic (a : Advisory) : Advisory.Topic :=
  match a.site with
  | some n => .site a.kind n
  | none => .message a.kind (SipHash.ofText a.start)

/-- Advisories waiting to be taken. -/
structure Advisory.Queue where
  policy : Advisory.Policy := {}
  waiting : List Advisory := []
  seen : List Advisory.Topic := []
  dropped : Nat := 0
  deriving Repr

namespace Advisory.Queue

/-- The queue holds as many advisories as its limit allows. -/
def isFull (q : Queue) : Bool := 0 < q.policy.limit && q.policy.limit ≤ q.waiting.length

/-- Adds an advisory, and says whether it was queued.  Duplicates are turned away first, and a
topic counts as seen even when the limit then turns the advisory away. -/
def add (q : Queue) (a : Advisory) : Bool × Queue :=
  if q.policy.deduplicate ∧ a.topic ∈ q.seen then (false, q)
  else
    let q := if q.policy.deduplicate then { q with seen := a.topic :: q.seen } else q
    if q.isFull then (false, { q with dropped := q.dropped + 1 })
    else (true, { q with waiting := q.waiting ++ [a] })

/-- Adds advisories in order. -/
def addAll (q : Queue) (as : List Advisory) : Queue := as.foldl (fun q a => (q.add a).2) q

/-- Takes what is waiting, in report order. -/
def flush (q : Queue) : List Advisory × Queue :=
  (q.waiting, { q with waiting := [], dropped := 0 })

/-- Forgets everything but the policy. -/
def reset (q : Queue) : Queue := { policy := q.policy }

/-- How many waiting advisories are of a kind. -/
def count (q : Queue) (kind : Kind) : Nat := q.waiting.countP (·.kind = kind)

end Advisory.Queue

end ScriptCore
