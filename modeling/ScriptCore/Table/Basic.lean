import ScriptCore.Key.Basic
import ScriptCore.Table.Refusal

/-!
# Table — open-chained tables and what they hold

Entries live in an arena and keep their place in it for life; `chains` lists, bucket by bucket,
the places of the entries that belong to the table.  A place is in a chain, on the free list, or
held by the cursor because its entry was deleted while the cursor stood on it.

An entry without a value is a *placeholder*: it keeps its key in a restricted table's set and is
skipped by every look-up of values.  `total` counts the chained entries, `placeholders` those
without a value.
-/

namespace ScriptCore

/-- A key and, unless it is a placeholder, its value. -/
structure Table.Entry (α : Type) where
  key : Key
  value : Option α
  deriving Repr

/-- Where a walk stands.  `bucket` is the chain it is in, `current` the place of the entry it
gave last.  When that entry was deleted meanwhile, `parted` holds and `next` is the place to go
on from. -/
structure Table.Cursor where
  bucket : Option Nat := none
  current : Option Nat := none
  parted : Bool := false
  next : Option Nat := none
  deriving DecidableEq, Repr

/-- A table from keys to values.  `pool` names the pool its keys are interned in. -/
structure Table (α : Type) where
  seed : Seed := {}
  chains : Array (List Nat) := Array.replicate 8 []
  entries : Array (Option (Table.Entry α)) := #[]
  free : List Nat := []
  total : Nat := 0
  placeholders : Nat := 0
  restricted : Bool := false
  rehashed : Bool := false
  countsKeys : Bool := false
  pinned : Bool := false
  pool : Option Nat := none
  cursor : Table.Cursor := {}
  deriving Repr

instance : Inhabited (Table α) := ⟨{}⟩

/-- What a table knows of a key. -/
inductive Table.Presence
  | absent
  | placeholder
  | live
  deriving DecidableEq, Repr

/-- The name of what a table knows. -/
def Table.Presence.name : Table.Presence → String
  | absent => "Absent"
  | placeholder => "Placeholder"
  | live => "Live"

namespace Table

variable {α : Type}

/-- How many chains there are. -/
def buckets (t : Table α) : Nat := t.chains.size

/-- The live keys, placeholders excluded. -/
def size (t : Table α) : Nat := t.total - t.placeholders

/-- The chain of a bucket. -/
def chain (t : Table α) (b : Nat) : List Nat := t.chains.getD b []

/-- The bucket a hash belongs to. -/
def bucketOf (t : Table α) (hash : UInt32) : Nat := hash.toNat % t.buckets

/-- The entry at a place. -/
def entry? (t : Table α) (i : Nat) : Option (Entry α) := (t.entries[i]?).join

/-- The stored hash at a place. -/
def hashAt (t : Table α) (i : Nat) : UInt32 := ((t.entry? i).map (·.key.hash)).getD 0

/-- The value at a place. -/
def valueAt (t : Table α) (i : Nat) : Option α := (t.entry? i).bind (·.value)

/-- The entry at a place is a placeholder. -/
def isPlaceholder (t : Table α) (i : Nat) : Bool :=
  ((t.entry? i).map (·.value.isNone)).getD false

/-- The places of every chained entry, bucket by bucket. -/
def chained (t : Table α) : List Nat := t.chains.toList.flatten

/-- The entry at a place answers to a spelling. -/
def answers (t : Table α) (hash : UInt32) (s : Spelling) (i : Nat) : Bool :=
  ((t.entry? i).map (·.key.matchesSpelling hash s)).getD false

/-- The hash of a spelling in this table. -/
def hashOf (t : Table α) (s : Spelling) : UInt32 := t.seed.hash s.bytes

/-- The place of the entry of a spelling. -/
def locate (t : Table α) (s : Spelling) : Option Nat :=
  let h := t.hashOf s
  (t.chain (t.bucketOf h)).find? (t.answers h s)

/-- The value of a key. -/
def fetch? (t : Table α) (s : Spelling) : Option α := (t.locate s).bind t.valueAt

/-- The stored key of a spelling, placeholders included. -/
def storedKey? (t : Table α) (s : Spelling) : Option Key :=
  (t.locate s).bind fun i => (t.entry? i).map (·.key)

/-- What the table knows of a key. -/
def presence (t : Table α) (s : Spelling) : Presence :=
  match t.locate s with
  | none => .absent
  | some i => if t.isPlaceholder i then .placeholder else .live

/-- The key has a value. -/
def contains (t : Table α) (s : Spelling) : Bool := t.presence s = .live

/-- Keys and values, bucket by bucket. -/
def toList (t : Table α) : List (Key × α) :=
  t.chained.filterMap fun i =>
    match t.entry? i with
    | some ⟨k, some v⟩ => some (k, v)
    | _ => none

/-- The live keys, bucket by bucket. -/
def keys (t : Table α) : List Key := t.toList.map (·.1)

/-- Every value, in the order of the arena. -/
def values (t : Table α) : List α := t.entries.toList.filterMap fun e => e.bind (·.value)

/-- Every key the arena holds, chained or not, in the order of the arena. -/
def heldKeys (t : Table α) : List Key := t.entries.toList.filterMap fun e => e.map (·.key)

/-- The buckets in use. -/
def fill (t : Table α) : Nat := t.chains.toList.countP (· ≠ [])

/-- The length of the longest chain. -/
def longestChain (t : Table α) : Nat := (t.chains.toList.map List.length).foldl max 0

/-- The state marks as bits: restricted, rehashed, keys interned, counts keys, seed pinned. -/
def marks (t : Table α) : Nat :=
  [t.restricted, t.rehashed, t.pool.isSome, t.countsKeys, t.pinned].foldr
    (fun b n => b.toNat + 2 * n) 0

/-- Fixes the set of keys. -/
def restrict (t : Table α) : Table α := { t with restricted := true }

/-- Lifts the restriction; placeholders stay until the next growth. -/
def unrestrict (t : Table α) : Table α := { t with restricted := false }

/-- Keeps the seed for good, whatever the chains grow to. -/
def pinSeed (t : Table α) : Table α := { t with pinned := true }

/-- Changes the value at a place. -/
def setValue (t : Table α) (i : Nat) (v : Option α) : Table α :=
  { t with entries := t.entries.modify i fun e => e.map fun e => { e with value := v } }

/-- An empty table with the seed and key pool of another. -/
def emptied (t : Table α) : Table α := { seed := t.seed, pool := t.pool }

/-- A table in a description. -/
def describe (t : Table α) (showValue : α → String) : String :=
  let items := t.toList.map fun (k, v) => k.describe ++ ": " ++ showValue v
  "\x7b" ++ ", ".intercalate items ++ "\x7d"

end Table

end ScriptCore
