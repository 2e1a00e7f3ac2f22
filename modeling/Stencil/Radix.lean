import Stencil.Spec
import Stencil.Value.Basic

/-! # Numerals in a base

A natural number is written in base two, eight or sixteen, without anything that tells the base. Any
other value is refused.
-/

namespace Stencil

def Value.toNatural (heap : Heap) : Value → Except Failure Nat
  | .int n =>
    if n < 0 then do
      let _ ← decimalText n
      throw (.negative n)
    else .ok n.toNat
  | v => .error (.notInteger (v.typeName heap))

/-- Digits above nine are letters, in the given case. -/
def numeral (case : Case) (base n : Nat) : List Char :=
  match case with
  | .lower => Nat.toDigits base n
  | .upper => (Nat.toDigits base n).map Char.toUpper

def Value.toNumeral (heap : Heap) (case : Case) (base : Nat) (v : Value) :
    Except Failure (List Char) := do
  return numeral case base (← v.toNatural heap)

theorem Value.toNatural_natAbs (heap : Heap) (n : Int) :
    (int n.natAbs).toNatural heap = .ok n.natAbs := by
  have hn : ¬ (n.natAbs : Int) < 0 := by omega
  rw [toNatural, if_neg hn, Int.toNat_natCast]

/-- No magnitude is refused. -/
theorem Value.toNumeral_natAbs (heap : Heap) (case : Case) (base : Nat) (n : Int) :
    (int n.natAbs).toNumeral heap case base = .ok (numeral case base n.natAbs) := by
  rw [toNumeral, toNatural_natAbs]
  rfl

end Stencil
