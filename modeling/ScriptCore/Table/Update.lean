import ScriptCore.Key.Pool
import ScriptCore.Table.Cursor

/-!
# Table — storing and deleting

Each update takes the keyring the table's keys live in and gives it back.  A refused update
gives only its reason: table and keyring stay as they were.  Deleting from a restricted table
leaves a placeholder; storing on a placeholder makes it live again.
-/

namespace ScriptCore.Table

variable {α : Type}

/-- A table that keeps its keys in a pool. -/
def inPool (r : Keyring) (p : Nat) : Table α := { seed := (r.pool p).seed, pool := some p }

/-- Inserts a key the table does not hold, and gives its place. -/
def insertNew (t : Table α) (r : Keyring) (s : Spelling) (v : α) : Nat × Table α × Keyring :=
  let (key, r) := r.keyFor t.pool s t.seed
  let (i, t', gone, supply) := t.add key v r.supply
  (i, t', { r with supply }.releaseAll t.pool gone)

/-- Stores a value, and gives the one it replaced. -/
def store (t : Table α) (r : Keyring) (s : Spelling) (v : α) :
    Except Refusal (Option α × Table α × Keyring) :=
  match t.locate s with
  | some i =>
    let old := t.valueAt i
    let t := t.setValue i (some v)
    .ok (old, if old.isSome then t else { t with placeholders := t.placeholders - 1 }, r)
  | none =>
    if t.restricted then .error (.ofKey s.bytes .disallowedKey)
    else
      let (_, t, r) := t.insertNew r s v
      .ok (none, t, r)

/-- The value of a key, stored now if there is none. -/
def fetchOrStore (t : Table α) (r : Keyring) (s : Spelling) (v : α) :
    Except Refusal (α × Table α × Keyring) :=
  match t.fetch? s with
  | some old => .ok (old, t, r)
  | none => (t.store r s v).map fun (_, t, r) => (v, t, r)

/-- Changes the value of a key, and gives the new one. -/
def modify (t : Table α) (s : Spelling) (f : α → α) : Option α × Table α :=
  match t.locate s with
  | none => (none, t)
  | some i =>
    let new := (t.valueAt i).map f
    (new, if new.isSome then t.setValue i new else t)

/-- Deletes a key, and gives the value it had.  In a restricted table the value must not be
read-only. -/
def delete (t : Table α) (r : Keyring) (readOnly : α → Bool) (s : Spelling) :
    Except Refusal (Option α × Table α × Keyring) :=
  match t.locate s with
  | none =>
    if t.restricted then .error (.ofKey s.bytes .deleteDisallowed) else .ok (none, t, r)
  | some i =>
    match t.valueAt i with
    | none => .ok (none, t, r)
    | some v =>
      if t.restricted then
        if readOnly v then .error (.ofKey s.bytes .deleteReadOnly)
        else .ok (some v, { t.setValue i none with placeholders := t.placeholders + 1 }, r)
      else
        let (t', gone) := t.remove i
        .ok (some v, { t' with total := t'.total - 1 }, r.releaseAll t.pool gone)

/-- Takes every placeholder out. -/
def clearPlaceholders (t : Table α) (r : Keyring) : Table α × Keyring :=
  let (t', gone) := t.dropPlaceholders
  (t', r.releaseAll t.pool gone)

/-- Lets go of a table: its values, and its keys to their pool. -/
def dispose (t : Table α) (r : Keyring) : List α × Keyring :=
  (t.values, r.releaseAll t.pool t.heldKeys)

/-- Empties a table, and gives the values it held.  A restricted one keeps its keys and refuses
if a value is read-only. -/
def clear (t : Table α) (r : Keyring) (readOnly : α → Bool) :
    Except Refusal (List α × Table α × Keyring) :=
  if t.restricted then
    match t.toList.find? fun (_, v) => readOnly v with
    | some (k, _) => .error (.ofKey k.bytes .clearReadOnly)
    | none =>
      let gone := t.toList.map (·.2)
      let t := t.chained.foldl (fun t i => t.setValue i none) t
      .ok (gone, { t with placeholders := t.total }, r)
  else
    let (gone, r) := t.dispose r
    .ok (gone, { t with chains := t.chains.map fun _ => [], entries := #[], free := [],
                        total := 0, placeholders := 0, cursor := {} }, r)

/-- Puts the cursor before the first entry, and counts the live keys. -/
def startWalk (t : Table α) (r : Keyring) : Nat × Table α × Keyring :=
  let (n, t', gone) := t.rewind
  (n, t', r.releaseAll t.pool gone)

/-- Moves the cursor on, and gives the key it comes to. -/
def walk (t : Table α) (r : Keyring) (withPlaceholders : Bool) :
    Option Key × Table α × Keyring :=
  let (k, t', gone) := t.step withPlaceholders
  (k, t', r.releaseAll t.pool gone)

end ScriptCore.Table
