import ScriptCore.Key.Seed
import ScriptCore.Text.Quoted

/-!
# Key — keys and their spellings

A `Spelling` is what a caller writes down: bytes and whether they are UTF-8.  A text is spelt
in the narrowest form, so two spellings of one text have the same bytes and the same `wide`
mark: as it is when ASCII, as Latin-1 bytes when every character is below U+0100, as UTF-8
bytes marked `wide` otherwise.

A `Key` is a spelling hashed under some seed, with an identity of its own (`handle`).  Keys are
the same when hash, bytes and `wide` agree; `handle` tells apart same keys made separately.
-/

namespace ScriptCore

/-- Bytes as characters: UTF-8 when wide, Latin-1 otherwise. -/
def Text.decode (b : Bytes) (wide : Bool) : String :=
  if wide then Utf8.lossy b else ofLatin1 b

/-- An immutable key.  `narrowed` records that a wider text was brought down to single
bytes. -/
structure Key where
  handle : Nat
  bytes : Bytes
  hash : UInt32
  wide : Bool := false
  narrowed : Bool := false
  deriving DecidableEq, Repr, Inhabited

/-- A key as a caller writes it, in normal form; `origin` is the key it was read off, if any,
and spelt the same. -/
structure Spelling where
  bytes : Bytes
  wide : Bool := false
  narrowed : Bool := false
  origin : Option Key := none
  faithful : ∀ k ∈ origin, k.bytes = bytes ∧ k.wide = wide := by nofun
  deriving Repr

instance : Inhabited Spelling := ⟨{ bytes := [] }⟩

namespace Spelling

/-- Bytes without character semantics. -/
def ofBytes (b : Bytes) : Spelling := { bytes := b }

/-- The narrowest spelling of a text. -/
def ofText (s : String) : Spelling :=
  if Text.isAscii s then { bytes := Text.encode s }
  else
    match Text.latin1? s.toList with
    | some b => { bytes := b, narrowed := true }
    | none => { bytes := Text.encode s, wide := true }

/-- Bytes with marks from elsewhere.  Wide bytes that are UTF-8 are spelt anew, others lose the
mark. -/
def ofMarked (b : Bytes) (wide narrowed : Bool) : Spelling :=
  match wide, Utf8.decode? b with
  | true, some s => ofText s
  | _, _ => { bytes := b, narrowed }

/-- The spelling of an existing key. -/
def ofKey (k : Key) : Spelling :=
  { bytes := k.bytes, wide := k.wide, narrowed := k.narrowed, origin := some k
    faithful := by simp }

end Spelling

instance : Coe Key Spelling := ⟨Spelling.ofKey⟩

/-- Fresh identities, from 1 on, and the seeds that are drawn when a table gives up its own. -/
structure Supply where
  next : Nat := 1
  drawn : Nat := 0
  seeds : Nat → Seed := fun n => ⟨0x9E3779B9 * UInt32.ofNat (n + 1)⟩

instance : Inhabited Supply := ⟨{}⟩

/-- Draws a seed. -/
def Supply.draw (s : Supply) : Seed × Supply := (s.seeds s.drawn, { s with drawn := s.drawn + 1 })

/-- A fresh identity. -/
def Supply.fresh (s : Supply) : Nat × Supply := (s.next, { s with next := s.next + 1 })

namespace Key

/-- Same text: hash, bytes and width agree. -/
def same (a b : Key) : Bool := a.hash == b.hash && a.bytes == b.bytes && a.wide == b.wide

/-- The characters of a key. -/
def text (k : Key) : String := Text.decode k.bytes k.wide

/-- The two marks as bits. -/
def marks (k : Key) : Nat := k.wide.toNat + 2 * k.narrowed.toNat

/-- A key in a description. -/
def describe (k : Key) : String :=
  let marks := (if k.wide then ["UTF8"] else []) ++ if k.narrowed then ["WAS_UTF8"] else []
  "HashKey(" ++ Text.quote k.text ++
    (if marks = [] then "" else ", KeyFlags(" ++ " | ".intercalate marks ++ ")") ++ ")"

/-- The key answers to a spelling hashed to `hash`. -/
def matchesSpelling (k : Key) (hash : UInt32) (s : Spelling) : Bool :=
  k.hash == hash && k.bytes == s.bytes && k.wide == s.wide

/-- The key of a spelling with a hash already computed.  The key the spelling was read off is
kept when its hash agrees, else a key of a new identity is made. -/
def ofHashed (s : Spelling) (hash : UInt32) (supply : Supply) : Key × Supply :=
  let fresh : Key × Supply :=
    ({ handle := supply.next, bytes := s.bytes, hash, wide := s.wide, narrowed := s.narrowed },
      { supply with next := supply.next + 1 })
  match s.origin with
  | some k => if k.hash = hash then (k, supply) else fresh
  | none => fresh

/-- The key of a spelling under a seed. -/
def ofSpelling (s : Spelling) (seed : Seed) (supply : Supply) : Key × Supply :=
  ofHashed s (seed.hash s.bytes) supply

/-- A key to look a spelling up by.  It has no identity of its own. -/
def probe (s : Spelling) (seed : Seed) : Key :=
  { handle := 0, bytes := s.bytes, hash := seed.hash s.bytes, wide := s.wide
    narrowed := s.narrowed }

/-- The same text under another seed, with a new identity. -/
def reseed (k : Key) (seed : Seed) (supply : Supply) : Key × Supply :=
  ({ k with handle := supply.next, hash := seed.hash k.bytes },
    { supply with next := supply.next + 1 })

end Key

end ScriptCore
