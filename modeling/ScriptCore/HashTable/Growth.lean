import ScriptCore.HashTable.Basic

/-!
# HashTable — relinking places

`unlink` takes a place out of its chain, `sift` goes along a chain and takes its placeholders out,
`rebucket` deals all places out anew, and `divide` goes along a chain once and divides it in two.
A link is read before the place that it starts from changes.

`memory` is the least number of buckets that memory cannot hold; it may be any number.  Where
growth would come to that, it is refused, and `Grown` says what it leaves: the entry that the table
was to grow for is in it.
-/

namespace ScriptCore.HashTable
open Table (Entry powerAbove longestTolerated)

variable {α : Type}

/-- Puts an entry and its link into a free place, or a new one. -/
def allocate (t : HashTable α) (n : Node α) : Nat × HashTable α :=
  match t.free with
  | i :: rest => (i, { t with nodes := t.nodes.setIfInBounds i n, free := rest })
  | [] => (t.nodes.size, { t with nodes := t.nodes.push n })

/-- Frees a place and lets go of its key. -/
def freePlace (t : HashTable α) (i : Nat) : HashTable α × List Key :=
  ({ t with nodes := t.nodes.setIfInBounds i {}, free := i :: t.free },
    ((t.entry? i).map (·.key)).toList)

/-- Turns the link of a deleted entry under the cursor on, if it leads to a place that goes. -/
def repair (t : HashTable α) (gone : Nat) (after : Option Nat) : HashTable α :=
  match t.parked with
  | some i => if i ≠ gone ∧ t.next? i = some gone then t.setNext i after else t
  | none => t

/-- Takes a place out of its chain. -/
def unlink (t : HashTable α) (f : Found) : HashTable α :=
  let after := t.next? f.place
  (t.setLink f.bucket f.prev after).repair f.place after

/-- Frees the place of an entry that was unlinked, unless the cursor stands on it. -/
def retire (t : HashTable α) (i : Nat) : HashTable α × List Key :=
  if t.cursor.current = some i then ({ t with cursor := { t.cursor with parted := true } }, [])
  else t.freePlace i

/-- Takes an entry out of the table. -/
def remove (t : HashTable α) (f : Found) : HashTable α × List Key :=
  ((t.unlink f).setValue f.place none).retire f.place

/-- Goes along a chain from a link on, and takes the placeholders out.  Gives the table, the keys
let go of and how many entries were taken out. -/
def sift (b : Nat) :
    Nat → Option Nat → Option Nat → HashTable α × List Key × Nat → HashTable α × List Key × Nat
  | 0, _, _, s => s
  | _ + 1, _, none, s => s
  | steps + 1, prev, some i, (t, ks, n) =>
    let next := t.next? i
    if t.isPlaceholder i then
      let (t', k) := t.remove ⟨b, prev, i⟩
      sift b steps prev next (t', ks ++ k, n + 1)
    else sift b steps (some i) next (t, ks, n)

/-- Takes every placeholder out of the table, bucket by bucket. -/
def dropPlaceholders (t : HashTable α) : HashTable α × List Key :=
  let (t', ks, n) := (List.range t.buckets).foldl
    (fun s b => sift b s.1.nodes.size none (s.1.head? b) s) (t, [], 0)
  ({ t' with total := t'.total - n, placeholders := t'.placeholders - n }, ks)

/-- Puts a place at the head of the chain that its hash belongs to. -/
def pushFront (t : HashTable α) (i : Nat) : HashTable α :=
  let b := t.bucketOf (t.hashAt i)
  (t.setNext i (t.head? b)).setHead b (some i)

/-- Relinks every chained entry into `n` buckets, the last one first. -/
def rebucket (t : HashTable α) (n : Nat) : HashTable α :=
  t.chained.foldr (fun i t => t.pushFront i) { t with heads := Array.replicate n none }

/-- The seed may be given up. -/
def mayReseed (t : HashTable α) : Bool := !(t.rehashed || t.countsKeys || t.pinned)

/-- Moves every entry to a key of a drawn seed, and relinks them.  Keys of a pool are given up. -/
def reseed (t : HashTable α) (supply : Supply) : HashTable α × List Key × Supply :=
  let (seed, supply) := supply.draw
  let given := if t.pool.isSome then t.heldKeys else []
  let (entries, supply) := (t.nodes.toList.map (·.entry)).foldl (Table.rekey seed) ([], supply)
  let nodes := t.nodes.zipWith (fun n entry => { n with entry }) entries.reverse.toArray
  let t := { t with nodes, seed, rehashed := true, pool := none }
  (t.rebucket t.buckets, given, supply)

/-- Goes along a chain from a link on, and puts each place at the end of the chain of bucket `low`
or, if its hash has the bit of value `old`, of bucket `low + old`.  The last places of both chains
are known. -/
def divide (old low : Nat) :
    Nat → Option Nat → Option Nat → Option Nat → HashTable α → HashTable α
  | 0, _, _, _, t => t
  | _ + 1, none, _, _, t => t
  | steps + 1, some i, lowLast, highLast, t =>
    let next := t.next? i
    let t := t.setNext i none
    if (t.hashAt i).toNat &&& old ≠ 0 then
      divide old low steps next lowLast (some i) (t.setLink (low + old) highLast (some i))
    else divide old low steps next (some i) highLast (t.setLink low lowLast (some i))

/-- Takes the chain of a bucket away, and divides it between this bucket and a new one. -/
def divideBucket (old : Nat) (t : HashTable α) (low : Nat) : HashTable α :=
  divide old low t.nodes.size (t.head? low) none none (t.setHead low none)

/-- Twice the buckets, each chain divided in two. -/
def doubled (t : HashTable α) : HashTable α :=
  (List.range t.buckets).foldl (divideBucket t.buckets)
    { t with heads := t.heads ++ Array.replicate t.buckets none }

/-- Memory that cannot hold `memory` buckets holds so many. -/
def fits (memory n : Nat) : Bool := n < memory && n < Table.unreservable

/-- What growth leaves: the table, the keys let go of, the supply, and why it was refused. -/
structure Grown (α : Type) where
  table : HashTable α
  gone : List Key
  supply : Supply
  refusal : Option Refusal := none

/-- The table without its placeholders, unless they are the set of a restricted table. -/
def shed (t : HashTable α) : HashTable α × List Key :=
  if 0 < t.placeholders ∧ t.restricted = false then t.dropPlaceholders else (t, [])

/-- Doubles the table.  Placeholders go first; a new seed follows if some chain stays too long. -/
def split (t : HashTable α) (memory : Nat) (supply : Supply) : Grown α :=
  let (t, gone) := t.shed
  let wanted := 2 * t.buckets
  if Nat.pow 2 64 ≤ wanted then ⟨t, gone, supply, some (.outOfMemory (Nat.pow 2 64 - 1))⟩
  else if !fits memory wanted then ⟨t, gone, supply, some (.outOfMemory wanted)⟩
  else
    let t := t.doubled
    if t.mayReseed ∧ longestTolerated < t.longestChain then
      let (t, given, supply) := t.reseed supply
      ⟨t, gone ++ given, supply, none⟩
    else ⟨t, gone, supply, none⟩

/-- Puts a new entry at the head of its chain. -/
def link (t : HashTable α) (e : Entry α) : Nat × HashTable α :=
  let b := t.bucketOf e.key.hash
  let (i, t) := t.allocate ⟨some e, t.head? b⟩
  (i, { t.setHead b (some i) with total := t.total + 1 })

/-- A table that has just received an entry of this hash has outgrown its buckets. -/
def outgrown (t : HashTable α) (hash : UInt32) : Bool :=
  t.buckets < t.total ||
    (t.mayReseed && longestTolerated < (t.chain (t.bucketOf hash)).length)

/-- Adds an entry for a key the table does not hold, and grows if need be.  The entry stays when
growth is refused. -/
def add (t : HashTable α) (memory : Nat) (key : Key) (value : α) (supply : Supply) :
    Nat × Grown α :=
  let (i, t) := t.link ⟨key, some value⟩
  (i, if t.outgrown key.hash then t.split memory supply else ⟨t, [], supply, none⟩)

/-- Room for `expected` keys; a table never shrinks.  Bucket counts are powers of two below
`2 ^ 64`. -/
def reserve (t : HashTable α) (memory expected : Nat) : Option Refusal × HashTable α :=
  let wanted := powerAbove expected
  if Nat.pow 2 64 ≤ wanted then (some (.outOfMemory (Nat.pow 2 64 - 1)), t)
  else if wanted ≤ t.buckets then (none, t)
  else if !fits memory wanted then (some (.outOfMemory wanted), t)
  else (none, t.rebucket wanted)

end ScriptCore.HashTable
