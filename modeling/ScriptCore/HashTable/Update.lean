import ScriptCore.HashTable.Growth

/-!
# HashTable — storing, deleting and walking

Every update gives its answer, or why it was refused, and the table and keyring that it leaves,
also when it is refused.
-/

namespace ScriptCore.HashTable
variable {α : Type}

/-- A table that keeps its keys in a pool. -/
def inPool (r : Keyring) (p : Nat) : HashTable α := { seed := (r.pool p).seed, pool := some p }

/-- Inserts a key the table does not hold. -/
def insertNew (t : HashTable α) (memory : Nat) (r : Keyring) (s : Spelling) (v : α) :
    Option Refusal × HashTable α × Keyring :=
  let (key, r) := r.keyFor t.pool s t.seed
  let (_, g) := t.add memory key v r.supply
  (g.refusal, g.table, { r with supply := g.supply }.releaseAll t.pool g.gone)

/-- An answer, unless there is a refusal. -/
def answer {β : Type} (b : β) : Option Refusal → Except Refusal β
  | none => .ok b
  | some why => .error why

/-- The value of a key. -/
def fetch? (t : HashTable α) (s : Spelling) : Option α :=
  (t.locate s).bind fun f => t.valueAt f.place

/-- The key has a value. -/
def contains (t : HashTable α) (s : Spelling) : Bool := (t.fetch? s).isSome

/-- Stores a value, and gives the one it replaced. -/
def store (t : HashTable α) (memory : Nat) (r : Keyring) (s : Spelling) (v : α) :
    Except Refusal (Option α) × HashTable α × Keyring :=
  match t.locate s with
  | some f =>
    let old := t.valueAt f.place
    let t := t.setValue f.place (some v)
    (.ok old, if old.isSome then t else { t with placeholders := t.placeholders - 1 }, r)
  | none =>
    if t.restricted then (.error (.ofKey s.bytes .disallowedKey), t, r)
    else
      let (refusal, t, r) := t.insertNew memory r s v
      (answer none refusal, t, r)

/-- The value of a key, stored now if there is none. -/
def fetchOrStore (t : HashTable α) (memory : Nat) (r : Keyring) (s : Spelling) (v : α) :
    Except Refusal α × HashTable α × Keyring :=
  match t.locate s with
  | some f =>
    match t.valueAt f.place with
    | some old => (.ok old, t, r)
    | none =>
      (.ok v, { t.setValue f.place (some v) with placeholders := t.placeholders - 1 }, r)
  | none =>
    if t.restricted then (.error (.ofKey s.bytes .disallowedKey), t, r)
    else
      let (refusal, t, r) := t.insertNew memory r s v
      (answer v refusal, t, r)

/-- Changes the value of a key, and gives the new one. -/
def modify (t : HashTable α) (s : Spelling) (f : α → α) : Option α × HashTable α :=
  match t.locate s with
  | none => (none, t)
  | some found =>
    let new := (t.valueAt found.place).map f
    (new, if new.isSome then t.setValue found.place new else t)

/-- Deletes a key, and gives the value it had.  In a restricted table the value must not be
read-only. -/
def delete (t : HashTable α) (r : Keyring) (readOnly : α → Bool) (s : Spelling) :
    Except Refusal (Option α) × HashTable α × Keyring :=
  match t.locate s with
  | none =>
    if t.restricted then (.error (.ofKey s.bytes .deleteDisallowed), t, r) else (.ok none, t, r)
  | some f =>
    match t.valueAt f.place with
    | none => (.ok none, t, r)
    | some v =>
      if t.restricted then
        if readOnly v then (.error (.ofKey s.bytes .deleteReadOnly), t, r)
        else
          (.ok (some v), { t.setValue f.place none with placeholders := t.placeholders + 1 }, r)
      else
        let (t', gone) := t.remove f
        (.ok (some v), { t' with total := t'.total - 1 }, r.releaseAll t.pool gone)

/-- Takes every placeholder out, if there is one. -/
def clearPlaceholders (t : HashTable α) (r : Keyring) : HashTable α × Keyring :=
  if t.placeholders = 0 then (t, r)
  else
    let (t', gone) := t.dropPlaceholders
    (t', r.releaseAll t.pool gone)

/-- Keys and values, bucket by bucket. -/
def toList (t : HashTable α) : List (Key × α) :=
  t.chained.filterMap fun i =>
    match t.entry? i with
    | some ⟨k, some v⟩ => some (k, v)
    | _ => none

/-- The live keys, bucket by bucket. -/
def keys (t : HashTable α) : List Key := t.toList.map (·.1)

/-- Lets go of a table: its values, and its keys to their pool. -/
def dispose (t : HashTable α) (r : Keyring) : List α × Keyring :=
  (t.values, r.releaseAll t.pool t.heldKeys)

/-- Empties a table.  A restricted one keeps its keys and refuses if a value is read-only. -/
def clear (t : HashTable α) (r : Keyring) (readOnly : α → Bool) :
    Except Refusal Unit × HashTable α × Keyring :=
  if t.restricted then
    match t.toList.find? fun (_, v) => readOnly v with
    | some (k, _) => (.error (.ofKey k.bytes .clearReadOnly), t, r)
    | none =>
      let t := t.chained.foldl (fun t i => t.setValue i none) t
      (.ok (), { t with placeholders := t.total }, r)
  else
    let (_, r) := t.dispose r
    (.ok (), { t with heads := t.heads.map fun _ => none, nodes := #[], free := [], total := 0,
                      placeholders := 0, cursor := {} }, r)

/-! ### The built-in walk -/

/-- Frees the place of an entry that was deleted under the cursor. -/
def settle (t : HashTable α) : HashTable α × List Key :=
  match t.parked with
  | some i =>
    let t := { t with cursor := { t.cursor with parted := false, current := none } }
    t.freePlace i
  | none => ({ t with cursor := { t.cursor with parted := false } }, [])

/-- Puts the cursor before the first entry, and counts the live keys. -/
def startWalk (t : HashTable α) (r : Keyring) : Nat × HashTable α × Keyring :=
  let (t', gone) := t.settle
  (t'.total - t'.placeholders, { t' with cursor := {} }, r.releaseAll t.pool gone)

/-- The places that follow where the cursor stands, in its chain. -/
def resume (t : HashTable α) : List Nat :=
  follow t.next? t.nodes.size (t.cursor.current.bind t.next?)

/-- The bucket and place of the first entry that a walk shows, from the rest of a chain on
through the chains that follow. -/
def firstShown (t : HashTable α) (withPlaceholders : Bool) (bucket : Option Nat)
    (rest : List Nat) : Option (Option Nat × Nat) :=
  let shown (i : Nat) := withPlaceholders || !t.isPlaceholder i
  match rest.find? shown with
  | some i => some (bucket, i)
  | none =>
    let start := (bucket.map (· + 1)).getD 0
    (List.range' start (t.buckets - start)).findSome? fun b =>
      ((t.chain b).find? shown).map (some b, ·)

/-- Moves the cursor to the next entry and gives its key; after the last one it rewinds.
Placeholders are passed over unless asked for. -/
def walk (t : HashTable α) (r : Keyring) (withPlaceholders : Bool) :
    Option Key × HashTable α × Keyring :=
  let rest := t.resume
  let (t', gone) := t.settle
  let r := r.releaseAll t.pool gone
  match t'.firstShown withPlaceholders t'.cursor.bucket rest with
  | none => (none, { t' with cursor := {} }, r)
  | some (bucket, i) =>
    ((t'.entry? i).map (·.key), { t' with cursor := { bucket, current := some i } }, r)

/-- The value under the cursor. -/
def cursorValue (t : HashTable α) : Option α :=
  if t.cursor.parted then none else t.cursor.current.bind t.valueAt

/-- Walks on until there is no entry left, in at most `steps` steps, and gives the keys and
values that the cursor came to. -/
def walkWithin (t : HashTable α) (r : Keyring) (withPlaceholders : Bool) :
    Nat → List (Key × Option α) × HashTable α × Keyring
  | 0 => ([], t, r)
  | steps + 1 =>
    match t.walk r withPlaceholders with
    | (none, t, r) => ([], t, r)
    | (some k, t, r) =>
      let (rest, t', r) := walkWithin t r withPlaceholders steps
      ((k, t.cursorValue) :: rest, t', r)

/-- Walks on to the end.  What is left of a walk is the rest of the chain it goes on in, then
each later chain once.  Growth may have moved the rest to a later chain, so that the walk comes
to it twice. -/
def walkToEnd (t : HashTable α) (r : Keyring) (withPlaceholders : Bool) :
    List (Key × Option α) × HashTable α × Keyring :=
  t.walkWithin r withPlaceholders (t.resume.length + t.total + 1)

end ScriptCore.HashTable
