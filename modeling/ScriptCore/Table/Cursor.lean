import ScriptCore.Table.Growth

/-!
# Table — the built-in walk

`rewind` puts the cursor before the first entry, `step` moves it to the next one, chain by
chain.  The entry under the cursor may be deleted; it leaves its chain at once and its place is
freed by the next step.
-/

namespace ScriptCore.Table

variable {α : Type}

/-- Frees the place of an entry that was deleted under the cursor. -/
def settle (t : Table α) : Table α × List Key :=
  match t.cursor.parted, t.cursor.current with
  | true, some i =>
    let t := { t with cursor := { t.cursor with parted := false, current := none, next := none } }
    t.freePlace i
  | _, _ => ({ t with cursor := { t.cursor with parted := false, next := none } }, [])

/-- Puts the cursor before the first entry, and counts the live keys. -/
def rewind (t : Table α) : Nat × Table α × List Key :=
  let (t, ks) := t.settle
  (t.size, { t with cursor := {} }, ks)

/-- Where a walk goes on within its chain. -/
def resume (t : Table α) : List Nat :=
  let from? :=
    if t.cursor.parted then t.cursor.next
    else t.cursor.current.bind fun i => successor i (t.chain (t.bucketOf (t.hashAt i)))
  match from? with
  | none => []
  | some j => (t.chain (t.bucketOf (t.hashAt j))).dropWhile (· ≠ j)

/-- The bucket and place of the first entry that a walk shows, from the rest of a chain on
through the chains that follow. -/
def firstShown (t : Table α) (withPlaceholders : Bool) (bucket : Option Nat) (rest : List Nat) :
    Option (Option Nat × Nat) :=
  let shown (i : Nat) := withPlaceholders || !t.isPlaceholder i
  match rest.find? shown with
  | some i => some (bucket, i)
  | none =>
    let start := (bucket.map (· + 1)).getD 0
    (List.range' start (t.buckets - start)).findSome? fun b =>
      ((t.chain b).find? shown).map (some b, ·)

/-- Moves the cursor to the next entry and gives its key; after the last one it rewinds.
Placeholders are passed over unless asked for. -/
def step (t : Table α) (withPlaceholders : Bool) : Option Key × Table α × List Key :=
  let rest := t.resume
  let (t, ks) := t.settle
  match t.firstShown withPlaceholders t.cursor.bucket rest with
  | none => (none, { t with cursor := {} }, ks)
  | some (bucket, i) =>
    ((t.entry? i).map (·.key), { t with cursor := { bucket, current := some i } }, ks)

/-- The value under the cursor. -/
def cursorValue (t : Table α) : Option α :=
  if t.cursor.parted then none else t.cursor.current.bind t.valueAt

end ScriptCore.Table
