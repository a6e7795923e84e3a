import ScriptCore.Text.Utf8

/-!
# Key — seeded hashing

`Seed.hash` is a one-at-a-time hash over bytes that starts from the seed.  A 64-bit seed is
folded into 32 bits.  A seed may be configured, read from text, or drawn.
-/

namespace ScriptCore

/-- The starting value of a hash. -/
structure Seed where
  word : UInt32 := 0
  deriving DecidableEq, Repr, Inhabited

namespace Seed

/-- A 64-bit seed, its upper half folded onto its lower half. -/
def fold (s : UInt64) : Seed := ⟨(s ^^^ (s >>> 32)).toUInt32⟩

/-- One byte mixed in. -/
def mix (h : UInt32) (b : UInt8) : UInt32 :=
  let h := h + b.toUInt32
  let h := h + (h <<< 10)
  h ^^^ (h >>> 6)

/-- The hash of a byte string. -/
def hash (s : Seed) (b : Bytes) : UInt32 :=
  let h := b.foldl mix s.word
  let h := h + (h <<< 3)
  let h := h ^^^ (h >>> 11)
  h + (h <<< 15)

/-- Space characters that may stand around a seed's text. -/
def isBlank (c : Char) : Bool :=
  let n := c.toNat
  (0x09 ≤ n && n ≤ 0x0D) || n == 0x20 || n == 0x85 || n == 0xA0 || n == 0x1680 ||
    (0x2000 ≤ n && n ≤ 0x200A) || n == 0x2028 || n == 0x2029 || n == 0x202F || n == 0x205F ||
    n == 0x3000

/-- The seed a text denotes: an optional plus and decimal digits, blanks around them, below
`2 ^ 64`. -/
def ofText? (s : String) : Option UInt64 :=
  let cs := (s.toList.dropWhile isBlank).reverse.dropWhile isBlank |>.reverse
  let ds := match cs with
    | '+' :: r => r
    | r => r
  if ds ≠ [] ∧ ds.all Char.isDigit then
    let n := ds.foldl (fun n d => n * 10 + (d.toNat - 0x30)) 0
    if n < Nat.pow 2 64 then some (UInt64.ofNat n) else none
  else none

/-- A configured seed, else the one in the text of the environment, else zero. -/
def configured (explicit : Option UInt64) (fromText : Option String) : Seed :=
  ((explicit.or (fromText.bind ofText?)).map fold).getD {}

end Seed

end ScriptCore
