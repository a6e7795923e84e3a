import ScriptCore.Text.Utf8

/-!
# Text — hashes of texts

SipHash-1-3 with a zero key: the bytes are taken in as words of eight, least significant byte
first, one round each; the last word holds what is left over and the length, and three rounds
follow.  A text is hashed as its bytes and one byte that no text contains.
-/

namespace ScriptCore.SipHash

/-- The four words that are mixed. -/
structure State where
  v0 : UInt64 := 0x736F6D6570736575
  v1 : UInt64 := 0x646F72616E646F6D
  v2 : UInt64 := 0x6C7967656E657261
  v3 : UInt64 := 0x7465646279746573

/-- The bits of a word, moved up in a circle. -/
def rotate (x n : UInt64) : UInt64 := (x <<< n) ||| (x >>> (64 - n))

/-- One round. -/
def State.round (s : State) : State :=
  let v0 := s.v0 + s.v1
  let v1 := rotate s.v1 13 ^^^ v0
  let v0 := rotate v0 32
  let v2 := s.v2 + s.v3
  let v3 := rotate s.v3 16 ^^^ v2
  let v0 := v0 + v3
  let v3 := rotate v3 21 ^^^ v0
  let v2 := v2 + v1
  let v1 := rotate v1 17 ^^^ v2
  ⟨v0, v1, rotate v2 32, v3⟩

/-- Takes a word in. -/
def State.absorb (s : State) (w : UInt64) : State :=
  let s := { s with v3 := s.v3 ^^^ w }.round
  { s with v0 := s.v0 ^^^ w }

/-- The word after three last rounds. -/
def State.finish (s : State) : UInt64 :=
  let s := { s with v2 := s.v2 ^^^ 0xFF }.round.round.round
  s.v0 ^^^ s.v1 ^^^ s.v2 ^^^ s.v3

/-- Up to eight bytes as a word. -/
def word (b : Bytes) : UInt64 := b.foldr (fun b w => (w <<< 8) ||| b.toUInt64) 0

/-- Takes bytes in, of which there are `length` in all. -/
def State.absorbAll (length : Nat) (s : State) : Bytes → State
  | b₀ :: b₁ :: b₂ :: b₃ :: b₄ :: b₅ :: b₆ :: b₇ :: rest =>
    (s.absorb (word [b₀, b₁, b₂, b₃, b₄, b₅, b₆, b₇])).absorbAll length rest
  | rest => s.absorb (word rest ||| (UInt64.ofNat length <<< 56))

/-- The hash of bytes. -/
def ofBytes (b : Bytes) : UInt64 := (({} : State).absorbAll b.length b).finish

/-- The hash of a text. -/
def ofText (s : String) : UInt64 := ofBytes (Text.encode s ++ [0xFF])

end ScriptCore.SipHash
