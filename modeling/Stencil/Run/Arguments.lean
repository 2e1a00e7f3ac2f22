import Stencil.Run.Basic
import Stencil.Value.Literal

/-! # Taking arguments

An argument is taken by its position, or in turn, and only taking it in turn moves the turn on. A
count is written out or taken as an argument, which then has to be a whole number that is not
negative.
-/

namespace Stencil

variable (heap : Heap) (args : List Value)

def take (role : Role) (position : Option Nat) : Run (Nat × Value) := fun next =>
  let index := position.getD next
  match args[index]? with
  | some v =>
    ([.taken role index v], .ok ((index, v), if position.isSome then next else next + 1))
  | none =>
    ([], .error (match position with
      | some position => .positionOutOfRange role position args.length
      | none => .notEnoughArguments role args.length))

/-- The count that a value is, or the value that is shown as being none. A whole floating-point
number counts as an integer, and a negative one is shown as an integer. -/
def Value.toCount : Value → Except Value Nat
  | .int n => if n < 0 then .error (.int n) else .ok n.toNat
  | .float x =>
    match x with
    | .finite _ magnitude =>
      match magnitude.toNat? with
      | some n => if x.isNegative then .error (.int (-n)) else .ok n
      | none => .error (.float x)
    | _ => .error (.float x)
  | v => .error v

def takeCount (role : Role) : Count → Run Nat
  | .literal n => pure n
  | .argument position => do
    let (index, v) ← take args role position
    match v.toCount with
    | .ok n => pure n
    | .error v => .lift do
      let shown ← v.literal heap
      throw (.unusableCount role index (v.typeName heap) shown)

def takeCount? (role : Role) : Option Count → Run (Option Nat)
  | none => pure none
  | some count => do return some (← takeCount heap args role count)

end Stencil
