import ScriptCore.Number.Binary64

/-!
# Number — decimal text of binary64 data

A `Decimal` is a run of digits `d₀ d₁ …` read as `d₀ . d₁ … × 10 ^ exponent`.  `rounded` gives
the fifteen digits nearest to a value, `shortest` the fewest digits that read back as it.  Two
writers turn a decimal into text: `general`, positional for exponents from −4 to 14, and
`plain`, positional for exponents from −4 to 15 and always with a fraction there.
-/

namespace ScriptCore

/-- Digits of a natural number, most significant first. -/
def decimalDigits (n : Nat) : List Char := Nat.toDigits 10 n

/-- Decimal digits and the power of ten of the first one. -/
structure Decimal where
  digits : List Char
  exponent : Int

namespace Decimal

/-- How many digits a natural number has. -/
def width (n : Nat) : Nat := (decimalDigits n).length

/-- The power of ten of the leading digit of a positive quotient. -/
def leading (num den : Nat) : Int :=
  if den ≤ num then (width (num / den) : Int) - 1
  else -(width ((den + num - 1) / num - 1) : Int)

/-- A quotient on the grid of step `10 ^ e`: numerator and denominator of the count of steps. -/
def onGrid (num den : Nat) (e : Int) : Nat × Nat :=
  if 0 ≤ e then (num, den * Nat.pow 10 e.toNat) else (num * Nat.pow 10 (-e).toNat, den)

/-- Digits without the zeros at their end. -/
def trimZeros (ds : List Char) : List Char :=
  (ds.reverse.dropWhile (· = '0')).reverse

/-- The decimal of `n` steps of `10 ^ e`. -/
def ofSteps (n : Nat) (e : Int) : Decimal :=
  let ds := decimalDigits n
  ⟨trimZeros ds, e + ds.length - 1⟩

/-- A positive quotient to `places` significant digits, a half to the even digit. -/
def rounded (places : Nat) (num den : Nat) : Decimal :=
  let e := leading num den - (places - 1 : Nat)
  let (n, d) := onGrid num den e
  ofSteps (Binary64.roundHalfEven n d) e

/-- The two halfway points around a finite positive datum, as numerators over `2 ^ 1076`, and
whether they belong to it. -/
def interval (f : Binary64) : Nat × Nat × Bool :=
  let unit := Nat.pow 2 (f.exponent + 1074).toNat
  let below := if f.fractionField = 0 ∧ 1 < f.exponentField then unit else 2 * unit
  let centre := 4 * unit * f.mantissa
  (centre - below, centre + 2 * unit, f.mantissa % 2 = 0)

/-- The grid point of `n` steps of `10 ^ e` rounds to the datum of the interval. -/
def hits (lo hi : Nat) (closed : Bool) (n : Nat) (e : Int) : Bool :=
  let (a, b) :=
    if 0 ≤ e then (n * Nat.pow 10 e.toNat * Nat.pow 2 1076, 1)
    else (n * Nat.pow 2 1076, Nat.pow 10 (-e).toNat)
  if closed then lo * b ≤ a && a ≤ hi * b else lo * b < a && a < hi * b

/-- The grid point nearest to a positive datum among its two neighbours on the grid of step
`10 ^ e`, if one of them rounds to it. -/
def nearestHit (f : Binary64) (e : Int) : Option Decimal :=
  let (num, den) := f.ratio
  let (n, d) := onGrid num den e
  let (lo, hi, closed) := interval f
  let down := n / d
  let up := down + 1
  match hits lo hi closed down e, hits lo hi closed up e with
  | true, true => some (ofSteps (if 2 * (n % d) < d then down else up) e)
  | true, false => some (ofSteps down e)
  | false, true => some (ofSteps up e)
  | false, false => none

/-- The fewest digits that read back as a positive finite datum; seventeen always do. -/
def shortest (f : Binary64) : Decimal :=
  let (num, den) := f.ratio
  let top := leading num den
  let grids := (List.range 17).map fun (k : Nat) => top - (k : Int)
  (grids.findSome? (nearestHit f)).getD (rounded 17 num den)

/-- Digits around a point; `fraction` is what follows the point, if anything. -/
def point (whole fraction : List Char) : List Char :=
  if fraction = [] then whole else whole ++ '.' :: fraction

/-- Whole part and fraction of a decimal in positional notation. -/
def split (d : Decimal) : List Char × List Char :=
  if 0 ≤ d.exponent then
    let n := d.exponent.toNat + 1
    ((d.digits ++ List.replicate (n - d.digits.length) '0').take n, d.digits.drop n)
  else (['0'], List.replicate (-d.exponent - 1).toNat '0' ++ d.digits)

/-- Positional for exponents from −4 to 14, else with a signed exponent of two digits or more. -/
def general (d : Decimal) : List Char :=
  if -4 ≤ d.exponent ∧ d.exponent < 15 then point d.split.1 d.split.2
  else
    let e := decimalDigits d.exponent.natAbs
    point (d.digits.take 1) (d.digits.drop 1) ++
      'e' :: (if d.exponent < 0 then '-' else '+') :: (List.replicate (2 - e.length) '0' ++ e)

/-- Positional with a fraction for exponents from −4 to 15, else with a bare exponent. -/
def plain (d : Decimal) : List Char :=
  if -4 ≤ d.exponent ∧ d.exponent < 16 then
    d.split.1 ++ '.' :: (if d.split.2 = [] then ['0'] else d.split.2)
  else
    point (d.digits.take 1) (d.digits.drop 1) ++
      'e' :: ((if d.exponent < 0 then ['-'] else []) ++ decimalDigits d.exponent.natAbs)

end Decimal

namespace Binary64

/-- A sign in front of digits. -/
def signed (f : Binary64) (cs : List Char) : List Char :=
  if f.isNegative then '-' :: cs else cs

/-- The text of a number held as a string: fifteen significant digits, `Inf`, `-Inf`, `NaN`. -/
def format (f : Binary64) : List Char :=
  if f.isNaN then "NaN".toList
  else f.signed <|
    if f.isInfinite then "Inf".toList
    else if f.isZero then ['0']
    else (Decimal.rounded 15 f.ratio.1 f.ratio.2).general

/-- The text of a datum in descriptions: the fewest digits that read back, `inf`, `-inf`,
`NaN`. -/
def describe (f : Binary64) : List Char :=
  if f.isNaN then "NaN".toList
  else f.signed <|
    if f.isInfinite then "inf".toList
    else if f.isZero then "0.0".toList
    else (Decimal.shortest f).plain

end Binary64

end ScriptCore
