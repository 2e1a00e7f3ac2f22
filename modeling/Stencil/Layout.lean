import Stencil.Failure
import Stencil.Spec

/-! # Padding

Text shorter than its field is filled up to the width, on the side that the alignment says, and text
that is longer stays whole. What is repeated is limited in number and in length.
-/

namespace Stencil

variable {α : Type}

def repetitionLimit : Nat := 2 ^ 63 - 1

def repeated (fill : List α) (n : Nat) : Except Failure (List α) :=
  if n ≤ repetitionLimit ∧ fill.length * n ≤ repetitionLimit then
    .ok (if fill.isEmpty then [] else (List.replicate n fill).flatten)
  else .error (.exceeded .repetition)

/-- A negative number of spaces is none, but the limit holds for it as well. -/
def spaces (n : Int) : Except Failure (List Char) :=
  if n < -(2 ^ 63) then .error (.exceeded .repetition) else repeated [' '] n.toNat

/-- Of an odd number of fills around the center the last goes to the right. -/
def pad (sign body : List α) (width : Int) (fill : List α) (align : Align) :
    Except Failure (List α) :=
  let deficit := (width - sign.length - body.length).toNat
  match align with
  | .left => do return sign ++ body ++ (← repeated fill deficit)
  | .right => do return (← repeated fill deficit) ++ sign ++ body
  | .center => do
    let before ← repeated fill (deficit / 2)
    return before ++ sign ++ body ++ (← repeated fill (deficit - deficit / 2))
  | .afterSign => do return sign ++ (← repeated fill deficit) ++ body

end Stencil
