import Stencil.Decimal.Basic

/-! # Ways of writing a decimal

Fixed notation has a given number of places. Scientific notation has one digit before the point and
an exponent of at least two digits. General notation has a given number of significant digits and is
one or the other, by the exponent.
-/

namespace Stencil

inductive Style | fixed | scientific | general
  deriving DecidableEq

def withPoint (keepPoint : Bool) (whole fraction : List Char) : List Char :=
  if fraction = [] ∧ keepPoint = false then whole else whole ++ '.' :: fraction

def stripZeros (s : List Char) : List Char :=
  (s.reverse.dropWhile (· == '0')).reverse

def exponentText (exponent : Int) : List Char :=
  'e' :: (if exponent < 0 then '-' else '+') :: (natText exponent.natAbs).leftpad 2 '0'

/-- The digits on the two sides of the point, for digits the first of which has the weight
`10 ^ exponent`. -/
def splitAtPoint (digits : List Char) (exponent : Int) : List Char × List Char :=
  if exponent < 0 then (['0'], List.replicate (-exponent - 1).toNat '0' ++ digits)
  else (digits.rightpad (exponent.toNat + 1) '0').splitAt (exponent.toNat + 1)

def Scientific.digits {places : Nat} (x : Scientific places) : List Char :=
  (natText x.significand).leftpad (places + 1) '0'

namespace Decimal

def fixedText (keepPoint : Bool) (places : Nat) (x : Decimal) : List Char :=
  let digits := (natText (x.toPlaces places)).leftpad (places + 1) '0'
  let (whole, fraction) := digits.splitAt (digits.length - places)
  withPoint keepPoint whole fraction

def scientificText (keepPoint : Bool) (places : Nat) (x : Decimal) : List Char :=
  let y := x.toScientific places
  let (whole, fraction) := y.digits.splitAt 1
  withPoint keepPoint whole fraction ++ exponentText y.exponent

/-- Exponents from -4 up to the number of significant digits are written out. Zeros at the end of
the fraction, and then the point, are dropped unless they are to be kept. -/
def generalText (keepZeros : Bool) (precision : Nat) (x : Decimal) : List Char :=
  let places := precision - 1
  let y := x.toScientific places
  let trim fraction := if keepZeros then fraction else stripZeros fraction
  if -4 ≤ y.exponent ∧ y.exponent ≤ places then
    let (whole, fraction) := splitAtPoint y.digits y.exponent
    withPoint keepZeros whole (trim fraction)
  else
    let (whole, fraction) := y.digits.splitAt 1
    withPoint keepZeros whole (trim fraction) ++ exponentText y.exponent

/-- The alternate form keeps the point, and in general notation the zeros too. The precision is the
number of places, or in general notation of significant digits, of which there is at least one. -/
def text (style : Style) (alternate : Bool) (precision : Nat) (x : Decimal) : List Char :=
  match style with
  | .fixed => x.fixedText alternate precision
  | .scientific => x.scientificText alternate precision
  | .general => x.generalText alternate (max precision 1)

end Decimal

end Stencil
