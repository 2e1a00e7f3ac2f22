import Stencil.Decimal.Style

/-! # Shortest decimals

Among the decimals in an interval around a number there are some with the fewest significant digits.
The nearest of these to the number is found by trying the two neighbours of the number with one
digit, with two, and so on.
-/

namespace Stencil

/-- The numbers around `value`, all three counted in units of `10 ^ -places`. -/
structure Bracket where
  low : Nat
  value : Nat
  high : Nat
  closed : Bool
  places : Nat

namespace Bracket

def Holds (b : Bracket) (n : Nat) : Prop :=
  if b.closed then b.low ≤ n ∧ n ≤ b.high else b.low < n ∧ n < b.high

instance (b : Bracket) (n : Nat) : Decidable (b.Holds n) := by unfold Holds; infer_instance

/-- The multiple of `step` next to the value, on either side, that lies in the bracket; of two, the
nearer, and half-way between them the even one. The multiple is given by its factor. -/
def neighbour? (b : Bracket) (step : Nat) : Option Nat :=
  let below := b.value / step
  let above := below + 1
  if b.Holds (below * step) ∧
      (¬ b.Holds (above * step) ∨ roundHalfEven b.value step = below) then some below
  else if b.Holds (above * step) then some above
  else none

/-- Seventeen digits are enough for every bracket that a binary number of 53 bits has. -/
def maxDigits : Nat := 17

/-- Significant digits, with no zero at the end, and the exponent of the first. -/
def shortest (b : Bracket) : List Char × Int :=
  let size := (natText b.value).length
  let found := (List.range maxDigits).findSome? fun k =>
    (b.neighbour? (10 ^ (size - 1 - k))).map fun d => (k, d)
  let (k, d) := found.getD (size - 1, b.value)
  let digits := natText d
  (stripZeros digits, (size - 1 - b.places : Int) + (digits.length - (k + 1) : Int))

end Bracket

/-- Exponents from -4 to 15 are written out. A whole number written out ends as `wholeEnd` says. -/
def shortestText (wholeEnd : List Char) (digits : List Char) (exponent : Int) : List Char :=
  if -4 ≤ exponent ∧ exponent < 16 then
    let (whole, fraction) := splitAtPoint digits exponent
    if fraction = [] then whole ++ wholeEnd else withPoint false whole fraction
  else
    let (whole, fraction) := digits.splitAt 1
    withPoint false whole fraction ++ exponentText exponent

end Stencil
