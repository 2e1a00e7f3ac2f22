import Stencil.Decimal.Shortest

/-! # Binary floating-point numbers

A finite number is a natural number of units of `2 ^ -1074` whose binary text fits in 53 bits, with
a sign. Rounding to such a number takes the nearest, a half going to the even significand, and fails
above the largest.
-/

namespace Stencil

/-- The number `significand * 2 ^ scale` in units of `2 ^ -1074`. The scale is the least possible.
-/
@[ext] structure Magnitude where
  significand : Nat
  scale : Nat
  significand_lt : significand < 2 ^ 53
  scale_le : scale ≤ 2045
  normal : scale = 0 ∨ 2 ^ 52 ≤ significand
  deriving DecidableEq

inductive Double
  | finite (negative : Bool) (magnitude : Magnitude)
  | infinite (negative : Bool)
  | nan
  deriving DecidableEq

namespace Magnitude

def ofParts? (significand scale : Nat) : Option Magnitude :=
  if h : significand < 2 ^ 53 ∧ scale ≤ 2045 ∧ (scale = 0 ∨ 2 ^ 52 ≤ significand) then
    some ⟨significand, scale, h.1, h.2.1, h.2.2⟩
  else none

def units (x : Magnitude) : Nat := x.significand * 2 ^ x.scale

/-- The magnitude nearest to `num / den` units, if it is not above the largest. -/
def nearest? (num den : Nat) : Option Magnitude :=
  let scale := (num / den).log2 - 52
  let significand := roundHalfEven num (den * 2 ^ scale)
  if significand = 2 ^ 53 then ofParts? (2 ^ 52) (scale + 1) else ofParts? significand scale

def ofNat? (n : Nat) : Option Magnitude := nearest? (n * 2 ^ 1074) 1

def timesHundred? (x : Magnitude) : Option Magnitude := nearest? (x.units * 100) 1

/-- A unit is `5 ^ 1074 / 10 ^ 1074`. -/
def toDecimal (x : Magnitude) : Decimal := ⟨x.units * 5 ^ 1074, 1074⟩

def toNat? (x : Magnitude) : Option Nat :=
  if x.units % 2 ^ 1074 = 0 then some (x.units / 2 ^ 1074) else none

/-- The numbers for which `x` is the nearest magnitude. They reach half a step to either side, but
only a quarter below a power of two, where the steps become half as long. -/
def bracket (x : Magnitude) : Bracket where
  low := (4 * x.units - (if x.significand = 2 ^ 52 ∧ x.scale ≠ 0 then 1 else 2) * 2 ^ x.scale)
    * 5 ^ 1076
  value := 4 * x.units * 5 ^ 1076
  high := (4 * x.units + 2 * 2 ^ x.scale) * 5 ^ 1076
  closed := x.significand % 2 = 0
  places := 1076

/-- The fewest digits that read back as `x`. -/
def text (wholeEnd : List Char) (x : Magnitude) : List Char :=
  if x.significand = 0 then '0' :: wholeEnd
  else
    let (digits, exponent) := x.bracket.shortest
    shortestText wholeEnd digits exponent

end Magnitude

namespace Double

/-- The number whose interchange format has these 64 bits. -/
def ofBits (bits : UInt64) : Double :=
  let negative := bits.toNat / 2 ^ 63 % 2 = 1
  let exponent := bits.toNat / 2 ^ 52 % 2 ^ 11
  let fraction := bits.toNat % 2 ^ 52
  if exponent = 2047 then
    if fraction = 0 then infinite negative else nan
  else
    match Magnitude.ofParts? (if exponent = 0 then fraction else 2 ^ 52 + fraction)
        (exponent - 1) with
    | some magnitude => finite negative magnitude
    | none => nan

/-- Neither zero nor a number that is not one counts as negative, whatever its sign bit. -/
def isNegative : Double → Bool
  | finite negative magnitude => negative && magnitude.significand != 0
  | infinite negative => negative
  | nan => false

def unsignedText (wholeEnd : List Char) : Double → List Char
  | finite _ magnitude => magnitude.text wholeEnd
  | infinite _ => "inf".toList
  | nan => "nan".toList

def hasMinus : Double → Bool
  | finite negative _ | infinite negative => negative
  | nan => false

/-- A whole number is shown with `.0` at its end. -/
def text (x : Double) : List Char :=
  (if x.hasMinus then ['-'] else []) ++ x.unsignedText ".0".toList

end Double

end Stencil
