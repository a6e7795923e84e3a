import ScriptCore.Table.Growth

/-!
# Key — pools of interned keys

A pool counts the users of each key it holds.  Interning a spelling gives the one key the pool
holds for it, releasing it gives a use back, and the key leaves with its last user.  A
`Keyring` is the pools there are together with the supply of fresh keys and seeds; tables name
the pool they intern in by its number.
-/

namespace ScriptCore

/-- Users of interned keys. -/
structure Pool where
  counts : Table Nat
  deriving Repr, Inhabited

namespace Pool

/-- An empty pool. -/
def ofSeed (seed : Seed) : Pool := ⟨{ seed, countsKeys := true }⟩

/-- The seed its keys are hashed with. -/
def seed (p : Pool) : Seed := p.counts.seed

/-- How many keys it holds. -/
def size (p : Pool) : Nat := p.counts.size

/-- The users of a key. -/
def users (p : Pool) (s : Spelling) : Nat := (p.counts.fetch? s).getD 0

/-- The key of a spelling, with one user more. -/
def intern (p : Pool) (s : Spelling) (supply : Supply) : Key × Pool × Supply :=
  let fresh : Key × Pool × Supply :=
    let (key, supply) := Key.ofSpelling s p.seed supply
    let (i, t, _, supply) := p.counts.add key 1 supply
    (((t.entry? i).map (·.key)).getD key, ⟨t⟩, supply)
  match p.counts.locate s with
  | none => fresh
  | some i =>
    match p.counts.entry? i with
    | some ⟨key, some n⟩ => (key, ⟨p.counts.setValue i (some (n + 1))⟩, supply)
    | _ => fresh

/-- Gives one use of a key back, and says whether there was one. -/
def release (p : Pool) (k : Key) : Bool × Pool :=
  match p.counts.locate (.ofKey k) with
  | none => (false, p)
  | some i =>
    match p.counts.valueAt i with
    | none => (false, p)
    | some n =>
      let t := p.counts.setValue i (some (n - 1))
      if n - 1 = 0 then
        let (t, _) := t.remove i
        (true, ⟨{ t with total := t.total - 1 }⟩)
      else (true, ⟨t⟩)

/-- A pool in a description. -/
def describe (p : Pool) : String :=
  "KeyTable \x7b keys: " ++ toString p.size ++ ", buckets: " ++ toString p.counts.buckets ++
    " \x7d"

end Pool

/-- The pools and the supply of fresh keys.  Pool 0 is the one every instance may share. -/
structure Keyring where
  pools : Array Pool := #[.ofSeed {}]
  supply : Supply := {}
  deriving Inhabited

namespace Keyring

/-- A pool by number. -/
def pool (r : Keyring) (p : Nat) : Pool := r.pools.getD p (.ofSeed {})

/-- Whose a pool is. -/
def scope (p : Nat) : String := if p = 0 then "ProcessWide" else "InstanceLocal"

/-- A pool in a description, with whose it is. -/
def describePool (r : Keyring) (p : Nat) : String :=
  "SharedKeys \x7b mode: " ++ scope p ++ ", keys: " ++
    toString (r.pool p).size ++ " \x7d"

/-- A new pool of its own, and its number. -/
def newPool (r : Keyring) (seed : Seed) : Nat × Keyring :=
  (r.pools.size, { r with pools := r.pools.push (.ofSeed seed) })

/-- Interns a spelling in a pool. -/
def intern (r : Keyring) (p : Nat) (s : Spelling) : Key × Keyring :=
  let (key, pool, supply) := (r.pool p).intern s r.supply
  (key, { pools := r.pools.setIfInBounds p pool, supply })

/-- Gives one use of a key back to a pool. -/
def release (r : Keyring) (p : Nat) (k : Key) : Bool × Keyring :=
  let (found, pool) := (r.pool p).release k
  (found, { r with pools := r.pools.setIfInBounds p pool })

/-- Gives keys back to the pool of a table; a table without a pool owes nothing. -/
def releaseAll (r : Keyring) (p : Option Nat) (ks : List Key) : Keyring :=
  match p with
  | none => r
  | some p => ks.foldl (fun r k => (r.release p k).2) r

/-- A key of its own for a spelling. -/
def newKey (r : Keyring) (s : Spelling) (seed : Seed) : Key × Keyring :=
  let (key, supply) := Key.ofSpelling s seed r.supply
  (key, { r with supply })

/-- The key a table of the given pool and seed stores for a spelling. -/
def keyFor (r : Keyring) (pool : Option Nat) (s : Spelling) (seed : Seed) : Key × Keyring :=
  match pool with
  | some p => r.intern p s
  | none => r.newKey s seed

end Keyring

end ScriptCore
