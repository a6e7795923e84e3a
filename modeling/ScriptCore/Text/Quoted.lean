/-!
# Text — quoted strings in descriptions

Descriptions of values show text between double quotes.  `quote` escapes the quote, the
backslash and the characters without a shape of their own, so a described text stands on one
line.
-/

namespace ScriptCore.Text

/-- Hexadecimal digits of a number, lower case, without leading zeros. -/
def hex (n : Nat) : String :=
  String.ofList (Nat.toDigits 16 n)

/-- Ranges of characters that have no shape of their own: controls, separators, formats, marks
that combine with what stands before them, and code points for private use. -/
def shapeless : List (Nat × Nat) :=
  [(0x00, 0x1F), (0x7F, 0xA0), (0xAD, 0xAD), (0x300, 0x36F), (0x483, 0x489), (0x591, 0x5BD),
    (0x5BF, 0x5BF), (0x5C1, 0x5C2), (0x5C4, 0x5C5), (0x5C7, 0x5C7), (0x600, 0x605),
    (0x610, 0x61A), (0x61C, 0x61C), (0x64B, 0x65F), (0x670, 0x670), (0x6D6, 0x6DD),
    (0x6DF, 0x6E4), (0x6E7, 0x6E8), (0x6EA, 0x6ED), (0x70F, 0x70F), (0x890, 0x891),
    (0x8E2, 0x8E2), (0x1680, 0x1680), (0x180B, 0x180F), (0x1AB0, 0x1ACE), (0x1DC0, 0x1DFF),
    (0x2000, 0x200F), (0x2028, 0x202F), (0x205F, 0x206F), (0x20D0, 0x20F0), (0x3000, 0x3000),
    (0x302A, 0x302F), (0x3099, 0x309A), (0xE000, 0xF8FF), (0xFE00, 0xFE0F), (0xFE20, 0xFE2F),
    (0xFEFF, 0xFEFF), (0xFF9E, 0xFF9F), (0xFFF0, 0xFFFB), (0xFFFE, 0xFFFF), (0xE0000, 0x10FFFF)]

/-- The character is written as its code point. -/
def isShapeless (c : Char) : Bool :=
  shapeless.any fun (lo, hi) => lo ≤ c.toNat && c.toNat ≤ hi

/-- One character as it stands between quotes. -/
def quoteChar (c : Char) : String :=
  match c with
  | '\x00' => "\\0"
  | '\t' => "\\t"
  | '\r' => "\\r"
  | '\n' => "\\n"
  | '\\' => "\\\\"
  | '"' => "\\\""
  | c => if isShapeless c then "\\u\x7b" ++ hex c.toNat ++ "\x7d" else c.toString

/-- A text between double quotes. -/
def quote (s : String) : String :=
  "\"" ++ String.join (s.toList.map quoteChar) ++ "\""

/-- An optional value in a description. -/
def describeOption (f : α → String) : Option α → String
  | none => "None"
  | some a => "Some(" ++ f a ++ ")"

end ScriptCore.Text
