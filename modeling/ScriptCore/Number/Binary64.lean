/-!
# Number — IEEE binary64 data

A `Binary64` is its 64 bits.  A finite datum has the value `± mantissa · 2 ^ exponent`, and
`ofRatio` gives the datum nearest to a quotient of naturals, ties to the even mantissa, with
overflow to infinity.  No arithmetic happens on these data: they are read from text, carried,
compared with integers and written.
-/

namespace ScriptCore

/-- A binary64 datum, as its bits. -/
structure Binary64 where
  bits : UInt64
  deriving DecidableEq, Inhabited

namespace Binary64

/-- The sign bit is set. -/
def isNegative (f : Binary64) : Bool := Nat.pow 2 63 ≤ f.bits.toNat

/-- The eleven exponent bits. -/
def exponentField (f : Binary64) : Nat := f.bits.toNat / Nat.pow 2 52 % Nat.pow 2 11

/-- The fifty-two fraction bits. -/
def fractionField (f : Binary64) : Nat := f.bits.toNat % Nat.pow 2 52

/-- Not a number. -/
def isNaN (f : Binary64) : Bool := f.exponentField = 2047 && f.fractionField ≠ 0

/-- An infinity of either sign. -/
def isInfinite (f : Binary64) : Bool := f.exponentField = 2047 && f.fractionField = 0

/-- Neither infinite nor not a number. -/
def isFinite (f : Binary64) : Bool := f.exponentField ≠ 2047

/-- A zero of either sign. -/
def isZero (f : Binary64) : Bool := f.exponentField = 0 && f.fractionField = 0

/-- The integer factor of a finite magnitude. -/
def mantissa (f : Binary64) : Nat :=
  if f.exponentField = 0 then f.fractionField else Nat.pow 2 52 + f.fractionField

/-- The power of two of a finite magnitude. -/
def exponent (f : Binary64) : Int :=
  if f.exponentField = 0 then -1074 else (f.exponentField : Int) - 1075

/-- A finite magnitude as numerator and denominator. -/
def ratio (f : Binary64) : Nat × Nat :=
  if 0 ≤ f.exponent then (f.mantissa * Nat.pow 2 f.exponent.toNat, 1)
  else (f.mantissa, Nat.pow 2 (-f.exponent).toNat)

/-- The datum of a sign and the 63 bits below it. -/
def ofFields (negative : Bool) (magnitude : Nat) : Binary64 :=
  ⟨UInt64.ofNat ((if negative then Nat.pow 2 63 else 0) + magnitude)⟩

/-- Infinity of a sign. -/
def infinity (negative : Bool) : Binary64 := ofFields negative (2047 * Nat.pow 2 52)

/-- The quiet datum that is not a number. -/
def nan : Binary64 := ofFields false (2047 * Nat.pow 2 52 + Nat.pow 2 51)

/-- Zero of a sign. -/
def zero (negative : Bool) : Binary64 := ofFields negative 0

/-- `num / den` to the nearest natural, a half to the even one. -/
def roundHalfEven (num den : Nat) : Nat :=
  let q := num / den
  let r := num % den
  if den < 2 * r ∨ (2 * r = den ∧ q % 2 = 1) then q + 1 else q

/-- A quotient scaled down by a power of two, as numerator and denominator. -/
def scale (num den : Nat) (e : Int) : Nat × Nat :=
  if 0 ≤ e then (num, den * Nat.pow 2 e.toNat) else (num * Nat.pow 2 (-e).toNat, den)

/-- The power of two at which a positive quotient has a 53-bit integer part, but not below the
least exponent. -/
def binade (num den : Nat) : Int :=
  let e := max ((num.log2 : Int) - den.log2 - 53) (-1074)
  let (n, d) := scale num den e
  if Nat.pow 2 53 ≤ n / d then e + 1 else e

/-- The datum nearest to `± num / den`. -/
def ofRatio (negative : Bool) (num den : Nat) : Binary64 :=
  if num = 0 then zero negative
  else
    let e := binade num den
    let (n, d) := scale num den e
    let magnitude := (e + 1074).toNat * Nat.pow 2 52 + roundHalfEven n d
    ofFields negative (min magnitude (2047 * Nat.pow 2 52))

/-- The datum nearest to an integer. -/
def ofInt (i : Int) : Binary64 := ofRatio (i < 0) i.natAbs 1

/-- A finite value without its fraction. -/
def truncate (f : Binary64) : Int :=
  let (n, d) := f.ratio
  if f.isNegative then -(n / d : Nat) else (n / d : Nat)

/-- The least and the greatest 64-bit integer. -/
def leastInt64 : Int := -0x8000000000000000

@[inherit_doc leastInt64]
def greatestInt64 : Int := 0x7FFFFFFFFFFFFFFF

/-- Toward zero, held within 64 bits; not a number counts as zero. -/
def toInt64 (f : Binary64) : Int64 :=
  if f.isNaN then 0
  else if f.isInfinite then Int64.ofInt (if f.isNegative then leastInt64 else greatestInt64)
  else Int64.ofInt (max leastInt64 (min greatestInt64 f.truncate))

/-- The value is an integer that 64 bits hold. -/
def isInt64 (f : Binary64) : Bool :=
  let (n, d) := f.ratio
  f.isFinite && n % d = 0 && leastInt64 ≤ f.truncate && f.truncate ≤ greatestInt64

end Binary64

end ScriptCore
