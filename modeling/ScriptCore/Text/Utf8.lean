/-!
# Text — bytes and the two ways to read them as characters

A byte string has no character semantics of its own.  Read as Latin-1 every byte is one
character; read as UTF-8 it is a sequence of characters with faults in it.

`scan` reads UTF-8 in one pass and gives, in order, each character and one `none` for each
fault.  A fault is the longest stretch that could still have begun a character, so the byte
that breaks a sequence starts the next one.  `decode?` accepts the strings without a fault,
`lossy` shows every fault as U+FFFD.
-/

namespace ScriptCore

/-- A string of bytes. -/
abbrev Bytes := List UInt8

namespace Text

/-- The UTF-8 bytes of a text. -/
def encode (s : String) : Bytes :=
  s.toList.flatMap String.utf8EncodeChar

/-- Every character is below U+0080. -/
def isAscii (s : String) : Bool :=
  s.toList.all fun c => c.toNat < 0x80

/-- The Latin-1 bytes of a list of characters, if each is below U+0100. -/
def latin1? : List Char → Option Bytes
  | [] => some []
  | c :: cs => if c.toNat < 0x100 then (latin1? cs).map (UInt8.ofNat c.toNat :: ·) else none

/-- Each byte as the character of that number. -/
def ofLatin1 (b : Bytes) : String :=
  String.ofList (b.map fun x => Char.ofNat x.toNat)

end Text

namespace Utf8

/-- What a first byte announces: its share of the code point, and the range each later byte
must lie in. -/
def lead (b : Nat) : Option (Nat × List (Nat × Nat)) :=
  let any := (0x80, 0xBF)
  if b < 0x80 then some (b, [])
  else if b < 0xC2 then none
  else if b < 0xE0 then some (b - 0xC0, [any])
  else if b = 0xE0 then some (0, [(0xA0, 0xBF), any])
  else if b = 0xED then some (0xD, [(0x80, 0x9F), any])
  else if b < 0xF0 then some (b - 0xE0, [any, any])
  else if b = 0xF0 then some (0, [(0x90, 0xBF), any, any])
  else if b < 0xF4 then some (b - 0xF0, [any, any, any])
  else if b = 0xF4 then some (4, [(0x80, 0x8F), any, any])
  else none

/-- A character begun: the code point so far and the ranges still to be met. -/
abbrev Pending := Option (Nat × List (Nat × Nat))

/-- Characters and faults of a byte string, after `pending`. -/
def scanFrom (pending : Pending) : Bytes → List (Option Char)
  | [] => if pending.isSome then [none] else []
  | b :: rest =>
    let begin :=
      match lead b.toNat with
      | none => none :: scanFrom none rest
      | some (v, []) => some (Char.ofNat v) :: scanFrom none rest
      | some (v, r :: rs) => scanFrom (some (v, r :: rs)) rest
    match pending with
    | none => begin
    | some (_, []) => begin
    | some (v, (lo, hi) :: rs) =>
      if lo ≤ b.toNat ∧ b.toNat ≤ hi then
        let v := v * 64 + (b.toNat - 0x80)
        match rs with
        | [] => some (Char.ofNat v) :: scanFrom none rest
        | r :: rs => scanFrom (some (v, r :: rs)) rest
      else none :: begin

/-- Characters and faults of a byte string. -/
def scan (b : Bytes) : List (Option Char) := scanFrom none b

/-- The text of a byte string without faults. -/
def decode? (b : Bytes) : Option String :=
  ((scan b).mapM id).map String.ofList

/-- The text of a byte string, each fault shown as U+FFFD. -/
def lossy (b : Bytes) : String :=
  String.ofList ((scan b).map (·.getD '\uFFFD'))

end Utf8

end ScriptCore
