import ScriptCore.Table.Basic

/-!
# Table — places, growth and new seeds

When a table has more keys than buckets it doubles: `split` divides every chain on the one bit
of the hash that became significant.  `rebucket` builds the chains of any size at once.  A table
whose longest chain then exceeds fourteen gives up its seed for a drawn one, unless it is
pinned, counts keys, or has done so before.

Operations that let go of keys return them, oldest place first, for the pool they came from.

Memory suffices here for every split.  `HashTable` is a table by heads and links, of which a split
may be refused.
-/

namespace ScriptCore.Table

variable {α : Type}

/-- The longest chain a table keeps its seed for. -/
def longestTolerated : Nat := 14

/-- The least bucket count that memory cannot hold. -/
def unreservable : Nat := Nat.pow 2 59

/-- Puts an entry into a free place, or a new one. -/
def allocate (t : Table α) (e : Entry α) : Nat × Table α :=
  match t.free with
  | i :: rest => (i, { t with entries := t.entries.setIfInBounds i (some e), free := rest })
  | [] => (t.entries.size, { t with entries := t.entries.push (some e) })

/-- Frees a place and lets go of its key. -/
def freePlace (t : Table α) (i : Nat) : Table α × List Key :=
  ({ t with entries := t.entries.setIfInBounds i none, free := i :: t.free },
    ((t.entry? i).map (·.key)).toList)

/-- What follows a place in a chain. -/
def successor (i : Nat) (c : List Nat) : Option Nat := ((c.dropWhile (· ≠ i)).drop 1).head?

/-- Takes a place out of its chain.  A cursor that would have gone on from it goes on from what
follows it. -/
def unlink (t : Table α) (i : Nat) : Table α :=
  let b := t.bucketOf (t.hashAt i)
  let after := successor i (t.chain b)
  let repair (c : Cursor) := if c.parted ∧ c.next = some i then { c with next := after } else c
  { t with chains := t.chains.modify b (·.erase i), cursor := repair t.cursor }

/-- Takes an entry out of the table.  Its place is freed at once, unless the cursor stands on
it. -/
def remove (t : Table α) (i : Nat) : Table α × List Key :=
  let after := successor i (t.chain (t.bucketOf (t.hashAt i)))
  let t := (t.unlink i).setValue i none
  if t.cursor.current = some i then
    ({ t with cursor := { t.cursor with parted := true, next := after } }, [])
  else t.freePlace i

/-- Takes every placeholder out of the table. -/
def dropPlaceholders (t : Table α) : Table α × List Key :=
  let gone := t.chained.filter t.isPlaceholder
  let (t, ks) := gone.foldl (fun (t, ks) i =>
    let (t, k) := t.remove i
    (t, ks ++ k)) (t, [])
  ({ t with total := t.total - gone.length, placeholders := t.placeholders - gone.length }, ks)

/-- Chains of `n` buckets that hold the given places in order. -/
def chainsOf (t : Table α) (n : Nat) (places : List Nat) : Array (List Nat) :=
  places.foldr (fun i cs => cs.modify ((t.hashAt i).toNat % n) (i :: ·)) (Array.replicate n [])

/-- Relinks every chained entry into `n` buckets. -/
def rebucket (t : Table α) (n : Nat) : Table α := { t with chains := t.chainsOf n t.chained }

/-- The seed may be given up. -/
def mayReseed (t : Table α) : Bool := !(t.rehashed || t.countsKeys || t.pinned)

/-- Puts an entry, moved to a key of the seed, on top of those that were moved before. -/
def rekey (seed : Seed) (moved : List (Option (Entry α)) × Supply) :
    Option (Entry α) → List (Option (Entry α)) × Supply
  | none => (none :: moved.1, moved.2)
  | some e =>
    let (key, supply) := e.key.reseed seed moved.2
    (some { e with key } :: moved.1, supply)

/-- Moves every entry to a key of a drawn seed.  Keys of a pool are given up. -/
def reseed (t : Table α) (supply : Supply) : Table α × List Key × Supply :=
  let (seed, supply) := supply.draw
  let given := if t.pool.isSome then t.heldKeys else []
  let (entries, supply) := t.entries.toList.foldl (rekey seed) ([], supply)
  let t := { t with entries := entries.reverse.toArray, seed, rehashed := true, pool := none }
  (t.rebucket t.buckets, given, supply)

/-- The part of every chain whose entries have the bit of value `n` in their hash, or not. -/
def halves (t : Table α) (n : Nat) (bit : Nat) : Array (List Nat) :=
  t.chains.map (·.filter fun i => (t.hashAt i).toNat / n % 2 = bit)

/-- Twice the buckets, each chain divided in two. -/
def doubled (t : Table α) : Table α :=
  { t with chains := t.halves t.buckets 0 ++ t.halves t.buckets 1 }

/-- Doubles the table.  Placeholders go first unless they are the set of a restricted table;
a new seed follows if some chain stays too long. -/
def split (t : Table α) (supply : Supply) : Table α × List Key × Supply :=
  let (t, gone) :=
    if 0 < t.placeholders ∧ t.restricted = false then t.dropPlaceholders else (t, [])
  let t := t.doubled
  if t.mayReseed ∧ longestTolerated < t.longestChain then
    let (t, given, supply) := t.reseed supply
    (t, gone ++ given, supply)
  else (t, gone, supply)

/-- Puts a new entry at the head of its chain. -/
def link (t : Table α) (e : Entry α) : Nat × Table α :=
  let (i, t) := t.allocate e
  let b := t.bucketOf e.key.hash
  (i, { t with chains := t.chains.modify b (i :: ·), total := t.total + 1 })

/-- A table that has just received an entry of this hash has outgrown its buckets. -/
def outgrown (t : Table α) (hash : UInt32) : Bool :=
  t.buckets < t.total ||
    (t.mayReseed && longestTolerated < (t.chain (t.bucketOf hash)).length)

/-- Adds an entry for a key the table does not hold, and grows if need be.  Returns the place,
the table, the keys let go of and what is left of the supply. -/
def add (t : Table α) (key : Key) (value : α) (supply : Supply) :
    Nat × Table α × List Key × Supply :=
  let (i, t) := t.link ⟨key, some value⟩
  if t.outgrown key.hash then
    let (t, gone, supply) := t.split supply
    (i, t, gone, supply)
  else (i, t, [], supply)

/-- The least power of two that is not below a number. -/
def powerAbove (n : Nat) : Nat := if n ≤ 1 then 1 else Nat.pow 2 ((n - 1).log2 + 1)

/-- Room for `expected` keys; a table never shrinks.  Bucket counts are powers of two below
`2 ^ 64`. -/
def reserve (t : Table α) (expected : Nat) : Except Refusal (Table α) :=
  let wanted := powerAbove expected
  if Nat.pow 2 64 ≤ wanted then .error (.outOfMemory (Nat.pow 2 64 - 1))
  else if wanted ≤ t.buckets then .ok t
  else if unreservable ≤ wanted then .error (.outOfMemory wanted)
  else .ok (t.rebucket wanted)

end ScriptCore.Table
