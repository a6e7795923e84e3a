import ScriptCore.Table.Update

/-!
# HashTable — tables by heads and links

A `HashTable` is a table as it lies in memory.  Every bucket has a head, the first place of its
chain, and every place of the arena has a link to the place that follows it there.  A place that
is vacant links nowhere; one whose entry was deleted under the cursor keeps its link, since the
walk goes on from it.

`chain` follows the links from a head.  There are at most as many places in a chain as there are
in the arena.  `table` is the table that one gets by reading off all chains.
-/

namespace ScriptCore

/-- A place of the arena: its entry, unless it is vacant, and the place that follows it. -/
structure HashTable.Node (α : Type) where
  entry : Option (Table.Entry α) := none
  next : Option Nat := none
  deriving Repr

/-- Where a walk stands.  `bucket` is the chain it is in, `current` the place of the entry it gave
last, and `parted` says that this entry was deleted meanwhile. -/
structure HashTable.Cursor where
  bucket : Option Nat := none
  current : Option Nat := none
  parted : Bool := false
  deriving DecidableEq, Repr

/-- A table from keys to values, by the heads of its buckets and the links between places. -/
structure HashTable (α : Type) where
  seed : Seed := {}
  heads : Array (Option Nat) := Array.replicate 8 none
  nodes : Array (HashTable.Node α) := #[]
  free : List Nat := []
  total : Nat := 0
  placeholders : Nat := 0
  restricted : Bool := false
  rehashed : Bool := false
  countsKeys : Bool := false
  pinned : Bool := false
  pool : Option Nat := none
  cursor : HashTable.Cursor := {}
  deriving Repr

instance : Inhabited (HashTable α) := ⟨{}⟩

namespace HashTable
open Table (Entry)

variable {α : Type}

/-- The places that links lead to from one on, so many at most. -/
def follow (next : Nat → Option Nat) : Nat → Option Nat → List Nat
  | 0, _ => []
  | _ + 1, none => []
  | steps + 1, some i => i :: follow next steps (next i)

/-- How many buckets there are. -/
def buckets (t : HashTable α) : Nat := t.heads.size

/-- The head of a bucket. -/
def head? (t : HashTable α) (b : Nat) : Option Nat := (t.heads[b]?).join

/-- The place that follows a place. -/
def next? (t : HashTable α) (i : Nat) : Option Nat := (t.nodes[i]?).bind (·.next)

/-- The entry at a place. -/
def entry? (t : HashTable α) (i : Nat) : Option (Entry α) := (t.nodes[i]?).bind (·.entry)

/-- The stored hash at a place. -/
def hashAt (t : HashTable α) (i : Nat) : UInt32 := ((t.entry? i).map (·.key.hash)).getD 0

/-- The value at a place. -/
def valueAt (t : HashTable α) (i : Nat) : Option α := (t.entry? i).bind (·.value)

/-- The entry at a place is a placeholder. -/
def isPlaceholder (t : HashTable α) (i : Nat) : Bool :=
  ((t.entry? i).map (·.value.isNone)).getD false

/-- The chain of a bucket. -/
def chain (t : HashTable α) (b : Nat) : List Nat := follow t.next? t.nodes.size (t.head? b)

/-- All chains. -/
def chains (t : HashTable α) : Array (List Nat) := t.heads.map (follow t.next? t.nodes.size)

/-- The places of every chained entry, bucket by bucket. -/
def chained (t : HashTable α) : List Nat := t.chains.toList.flatten

/-- The length of the longest chain. -/
def longestChain (t : HashTable α) : Nat := (t.chains.toList.map List.length).foldl max 0

/-- The place whose entry was deleted under the cursor. -/
def parked (t : HashTable α) : Option Nat := if t.cursor.parted then t.cursor.current else none

/-- The place that a walk goes on from, when the entry it stood on was deleted. -/
def onward (t : HashTable α) : Option Nat := t.parked.bind t.next?

/-- The table that has the entries and counts of this one, and the given chains. -/
def view (t : HashTable α) (chains : Array (List Nat)) : Table α where
  seed := t.seed
  chains := chains
  entries := t.nodes.map (·.entry)
  free := t.free
  total := t.total
  placeholders := t.placeholders
  restricted := t.restricted
  rehashed := t.rehashed
  countsKeys := t.countsKeys
  pinned := t.pinned
  pool := t.pool
  cursor := { bucket := t.cursor.bucket, current := t.cursor.current, parted := t.cursor.parted
              next := t.onward }

/-- The table that the links make. -/
def table (t : HashTable α) : Table α := t.view t.chains

/-- The bucket a hash belongs to: its low bits, as bucket counts are powers of two. -/
def bucketOf (t : HashTable α) (hash : UInt32) : Nat := hash.toNat &&& (t.buckets - 1)

/-- The hash of a spelling in this table. -/
def hashOf (t : HashTable α) (s : Spelling) : UInt32 := t.seed.hash s.bytes

/-- The entry at a place answers to a spelling. -/
def answers (t : HashTable α) (hash : UInt32) (s : Spelling) (i : Nat) : Bool :=
  ((t.entry? i).map (·.key.matchesSpelling hash s)).getD false

/-- An entry that was found in its chain: the bucket, the place before it, if there is one, and its
own place. -/
structure Found where
  bucket : Nat
  prev : Option Nat
  place : Nat
  deriving DecidableEq, Repr

/-- Goes along a chain up to the first place that answers. -/
def search (answers : Nat → Bool) (b : Nat) : Option Nat → List Nat → Option Found
  | _, [] => none
  | prev, i :: rest => if answers i then some ⟨b, prev, i⟩ else search answers b (some i) rest

/-- Finds the entry of a spelling. -/
def locate (t : HashTable α) (s : Spelling) : Option Found :=
  let h := t.hashOf s
  let b := t.bucketOf h
  search (t.answers h s) b none (t.chain b)

/-- Every key the arena holds, chained or not, in the order of the arena. -/
def heldKeys (t : HashTable α) : List Key := t.nodes.toList.filterMap fun n => n.entry.map (·.key)

/-- Every value, in the order of the arena. -/
def values (t : HashTable α) : List α := t.nodes.toList.filterMap fun n => n.entry.bind (·.value)

/-- Makes a place link to another. -/
def setNext (t : HashTable α) (i : Nat) (next : Option Nat) : HashTable α :=
  { t with nodes := t.nodes.modify i ({ · with next }) }

/-- Changes the head of a bucket. -/
def setHead (t : HashTable α) (b : Nat) (head : Option Nat) : HashTable α :=
  { t with heads := t.heads.setIfInBounds b head }

/-- Changes the link that leads on from a place of a chain, or its head where there is no place. -/
def setLink (t : HashTable α) (b : Nat) (prev next : Option Nat) : HashTable α :=
  match prev with
  | some i => t.setNext i next
  | none => t.setHead b next

/-- Changes the value at a place. -/
def setValue (t : HashTable α) (i : Nat) (v : Option α) : HashTable α :=
  { t with nodes := t.nodes.modify i fun n =>
      { n with entry := n.entry.map fun e => { e with value := v } } }

/-- Fixes the set of keys. -/
def restrict (t : HashTable α) : HashTable α := { t with restricted := true }

/-- Lifts the restriction; placeholders stay until the next growth. -/
def unrestrict (t : HashTable α) : HashTable α := { t with restricted := false }

/-- Keeps the seed for good, whatever the chains grow to. -/
def pinSeed (t : HashTable α) : HashTable α := { t with pinned := true }

end HashTable

end ScriptCore
