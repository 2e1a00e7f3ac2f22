import Stencil.Failure

/-! # Exact decimals

A decimal is a natural number of units of a negative power of ten. It rounds to a number of places
or to a number of significant digits, a half going to the even neighbour, and both ways of rounding
are exact integer division.
-/

namespace Stencil

/-- The natural number nearest to `n / d`; of two, the even one. -/
def roundHalfEven (n d : Nat) : Nat :=
  let q := n / d
  let r := n % d
  if 2 * r < d ∨ (2 * r = d ∧ q % 2 = 0) then q else q + 1

/-- The number `coefficient / 10 ^ places`. -/
structure Decimal where
  coefficient : Nat
  places : Nat

/-- The number `significand / 10 ^ places * 10 ^ exponent`, for a significand of `places + 1`
digits, so that its first digit has the weight `10 ^ exponent`. Zero has the exponent zero. -/
structure Scientific (places : Nat) where
  significand : Nat
  exponent : Int

namespace Decimal

def toPlaces (x : Decimal) (places : Nat) : Nat :=
  roundHalfEven (x.coefficient * 10 ^ places) (10 ^ x.places)

def size (x : Decimal) : Nat := (natText x.coefficient).length

/-- Rounding may carry into one more digit, which moves the exponent instead. -/
def toScientific (x : Decimal) (places : Nat) : Scientific places :=
  let rounded := roundHalfEven (x.coefficient * 10 ^ (places + 1)) (10 ^ x.size)
  let exponent : Int := x.size - 1 - x.places
  if x.coefficient = 0 then ⟨0, 0⟩
  else if rounded = 10 ^ (places + 1) then ⟨10 ^ places, exponent + 1⟩
  else ⟨rounded, exponent⟩

end Decimal

end Stencil
