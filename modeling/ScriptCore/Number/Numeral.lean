import ScriptCore.Text.Utf8
import ScriptCore.Number.Decimal

/-!
# Number — numerals at the front of a byte string

A numeral is optional white space, an optional sign, then digits with an optional fraction and
exponent, or one of the words `inf`, `infinity` and `nan` in any case.  `Numeral.scan` reads the
longest numeral at the front of a byte string and notes whether anything but white space
follows; `parseNumber` turns it into a value.  Integers that 64 bits hold stay integers, all
else becomes a float.  The text `0 but true` counts as the integer zero.
-/

namespace ScriptCore

/-- A numeric value. -/
inductive Number
  | int (value : Int64)
  | float (value : Binary64)
  deriving DecidableEq, Inhabited

/-- The value as an integer, a float toward zero and held within 64 bits. -/
def Number.asInt : Number → Int64
  | .int n => n
  | .float f => f.toInt64

/-- The value as a float, an integer to the nearest one. -/
def Number.asFloat : Number → Binary64
  | .int n => .ofInt n.toInt
  | .float f => f

/-- The power of ten written after a numeral. -/
structure Numeral.Exponent where
  negative : Bool
  digits : Bytes

/-- What stands between the sign and the end of a numeral. -/
inductive Numeral.Body
  | infinity
  | nan
  | digits (whole : Bytes) (fraction : Option Bytes) (exponent : Option Numeral.Exponent)

/-- A numeral read off the front of a byte string: its parts, where it starts and stops, and
whether something other than white space follows. -/
structure Numeral where
  minus : Bool
  body : Numeral.Body
  start : Nat
  stop : Nat
  trailing : Bool

namespace Numeral

/-- Space, tab, newline, vertical tab, form feed or carriage return. -/
def isSpace (b : UInt8) : Bool := b = 0x20 || (0x09 ≤ b && b ≤ 0x0D)

/-- A decimal digit. -/
def isDigit (b : UInt8) : Bool := 0x30 ≤ b && b ≤ 0x39

/-- The letter without regard to case. -/
def lower (b : UInt8) : UInt8 := if 0x41 ≤ b ∧ b ≤ 0x5A then b + 0x20 else b

/-- An optional sign: whether it is a minus, and what follows. -/
def sign : Bytes → Bool × Bytes
  | 0x2D :: r => (true, r)
  | 0x2B :: r => (false, r)
  | r => (false, r)

/-- What follows a word at the front, read without regard to case. -/
def dropWord (word : String) (r : Bytes) : Option Bytes :=
  let w := Text.encode word
  if (r.take w.length).map lower = w then some (r.drop w.length) else none

/-- An exponent at the front, which needs at least one digit. -/
def exponent (r : Bytes) : Option Exponent × Bytes :=
  match r with
  | [] => (none, r)
  | e :: r' =>
    if lower e = 0x65 then
      let (negative, r'') := sign r'
      let ds := r''.takeWhile isDigit
      if ds = [] then (none, r) else (some ⟨negative, ds⟩, r''.drop ds.length)
    else (none, r)

/-- A point at the front and the digits after it. -/
def fraction : Bytes → Option Bytes × Bytes
  | 0x2E :: r => (some (r.takeWhile isDigit), r.dropWhile isDigit)
  | r => (none, r)

/-- The part after the sign, and what follows it.  A point without digits before it needs
digits after it. -/
def readBody (r : Bytes) : Option (Body × Bytes) :=
  let whole := r.takeWhile isDigit
  let (frac, r') := fraction (r.dropWhile isDigit)
  if whole ≠ [] ∨ (frac.getD []) ≠ [] then
    let (ex, r'') := exponent r'
    some (.digits whole frac ex, r'')
  else
    match dropWord "infinity" r, dropWord "inf" r, dropWord "nan" r with
    | some r', _, _ => some (.infinity, r')
    | _, some r', _ => some (.infinity, r')
    | _, _, some r' => some (.nan, r')
    | none, none, none => none

/-- The longest numeral at the front, after any white space. -/
def scan (b : Bytes) : Option Numeral :=
  let r := b.dropWhile isSpace
  let (minus, r') := sign r
  (readBody r').map fun (body, rest) =>
    { minus, body
      start := b.length - r.length
      stop := b.length - rest.length
      trailing := rest.dropWhile isSpace ≠ [] }

/-- The number a run of digits denotes. -/
def valueOf (ds : Bytes) : Nat := ds.foldl (fun n d => n * 10 + (d.toNat - 0x30)) 0

/-- The number of the longest run of digits at the front that 64 bits hold, and whether digits
were left over. -/
def held (n : Nat) : Bytes → Nat × Bool
  | [] => (n, false)
  | d :: ds =>
    let n' := n * 10 + (d.toNat - 0x30)
    if n' < Nat.pow 2 64 then held n' ds else (n, true)

/-- Digits before the point. -/
def whole (s : Numeral) : Bytes :=
  match s.body with
  | .digits w _ _ => w
  | _ => []

/-- The integer part as far as 64 bits hold it. -/
def value (s : Numeral) : Nat := (held 0 s.whole).1

/-- The integer part needs more than 64 bits. -/
def tooBig (s : Numeral) : Bool := (held 0 s.whole).2

/-- Written with an exponent. -/
def hasExponent (s : Numeral) : Bool :=
  match s.body with
  | .digits _ _ (some _) => true
  | _ => false

/-- Written with a point or an exponent. -/
def notInteger (s : Numeral) : Bool :=
  match s.body with
  | .digits _ none none => false
  | .digits .. => true
  | _ => false

/-- Infinity is written. -/
def isInfinity (s : Numeral) : Bool :=
  match s.body with
  | .infinity => true
  | _ => false

/-- The word for a datum that is not a number is written. -/
def isNaN (s : Numeral) : Bool :=
  match s.body with
  | .nan => true
  | _ => false

/-- Written with digits and no exponent, with an integer part that 64 bits hold. -/
def integerFits (s : Numeral) : Bool :=
  !s.isInfinity && !s.isNaN && !s.hasExponent && !s.tooBig

/-- A minus sign that counts: one before `nan` does not. -/
def negative (s : Numeral) : Bool := s.minus && !s.isNaN

/-- The seven findings as bits. -/
def findings (s : Numeral) : Nat :=
  [s.integerFits, s.tooBig, s.notInteger, s.negative, s.isInfinity, s.isNaN, s.trailing].foldr
    (fun b n => b.toNat + 2 * n) 0

/-- The power of ten an exponent stands for. -/
def Exponent.value (e : Exponent) : Int :=
  if e.negative then -(valueOf e.digits) else valueOf e.digits

/-- The float nearest to `± n · 10 ^ e`.  A value of more than 310 digits is infinite, one below
`10 ^ -330` is zero. -/
def scaled (negative : Bool) (n : Nat) (e : Int) : Binary64 :=
  if n = 0 then .zero negative
  else
    let top := (Decimal.width n : Int) + e
    if 310 < top then .infinity negative
    else if top < -330 then .zero negative
    else
      let (num, den) := if 0 ≤ e then (n * Nat.pow 10 e.toNat, 1) else (n, Nat.pow 10 (-e).toNat)
      .ofRatio negative num den

/-- The signed integer of a magnitude, or the nearest float when 64 bits do not hold it. -/
def integerValue (negative : Bool) (magnitude : Nat) : Number :=
  let i : Int := if negative then -magnitude else magnitude
  if Binary64.leastInt64 ≤ i ∧ i ≤ Binary64.greatestInt64 then .int (Int64.ofInt i)
  else .float (.ofRatio negative magnitude 1)

/-- The value of a numeral. -/
def number (s : Numeral) : Number :=
  match s.body with
  | .infinity => .float (.infinity s.minus)
  | .nan => .float .nan
  | .digits w frac ex =>
    if s.notInteger || s.tooBig then
      let f := frac.getD []
      let e := (ex.map Exponent.value).getD 0
      .float (scaled s.minus (valueOf (w ++ f)) (e - f.length))
    else integerValue s.minus s.value

end Numeral

/-- The one text that is numeric though it has words in it. -/
def zeroButTrue : Bytes := Text.encode "0 but true"

/-- The whole byte string is a numeral. -/
def looksLikeNumber (b : Bytes) : Bool :=
  b = zeroButTrue || ((Numeral.scan b).map fun s => !s.trailing).getD false

/-- The numeral at the front of a byte string, zero if there is none, and whether the whole
string is numeric. -/
def parseNumber (b : Bytes) : Number × Bool :=
  if b = zeroButTrue then (.int 0, true)
  else
    match Numeral.scan b with
    | none => (.int 0, false)
    | some s => (s.number, !s.trailing)

end ScriptCore
