import Stencil.Radix
import Stencil.Renderer

/-! # Numbers

Integers are written in a base, or as the character they count. Every number can be written in the
floating notations, an integer as the nearest floating-point number. The digits are those of the
magnitude, and the sign is kept apart from them.
-/

namespace Stencil

inductive Number
  | int (n : Int)
  | float (x : Double)
  deriving DecidableEq

def Value.toNumber? : Value → Option Number
  | .int n => some (.int n)
  | .float x => some (.float x)
  | .bool b => some (.int b.toNat)
  | _ => none

def Double.styled (style : Style) (alternate : Bool) (precision : Nat) : Double → List Char
  | finite _ magnitude => magnitude.toDecimal.text style alternate precision
  | infinite _ => "inf".toList
  | nan => "nan".toList

/-- A hundred times the number, which can be too large for a finite one. -/
def Double.timesHundred : Double → Double
  | finite negative magnitude =>
    match magnitude.timesHundred? with
    | some product => finite negative product
    | none => infinite negative
  | x => x

namespace Number

def isNegative : Number → Bool
  | int n => n < 0
  | float x => x.isNegative

def toDouble? : Number → Option Double
  | int n => (Magnitude.ofNat? n.natAbs).map (.finite false)
  | float x => some x

def timesHundred : Number → Number
  | int n => int (n * 100)
  | float x => float x.timesHundred

/-- The greatest precision of a text, and the greatest that is considered at all. -/
def precisionLimit : Int := 2 ^ 31 - 1

@[inherit_doc precisionLimit]
def precisionBound : Int := 2 ^ 63 - 1

/-- The text of the magnitude in one of the floating notations. A precision beyond the bound is
refused before the size of the number is looked at, and one between limit and bound only after. -/
def styled (letter : Option Char) (style : Style) (alternate : Bool) (precision : Int)
    (x : Number) : Except Failure (List Char) :=
  if precision < 0 ∨ precisionBound < precision then .error (.exceeded .precision)
  else match x.toDouble? with
    | none => .error (.valueTooLarge letter)
    | some x =>
      if precisionLimit < precision then .error (.exceeded .precision)
      else .ok (x.styled style alternate precision.toNat)

/-- In capitals a number that is not finite needs no precision, so that none is refused. -/
def floating (style : Style) (spec : Spec) (precision : Int) (x : Number) :
    Except Failure (List Char) :=
  let shown := x.styled spec.letter? style spec.alternate precision
  match spec.case, x with
  | .upper, .float .nan => .ok "NAN".toList
  | .upper, .float (.infinite _) => .ok "INF".toList
  | .upper, _ => shown.map (·.map Char.toUpper)
  | .lower, _ => shown

def plain : Number → Except Failure (List Char)
  | int n => decimalText n.natAbs
  | float x => .ok (x.unsignedText ".0".toList)

def character (n : Int) : Except Failure CodePoint :=
  match if n < 0 then none else CodePoint.ofNat? n.toNat with
  | some p => .ok p
  | none => do
    let _ ← decimalText n
    throw (.codePointOutOfRange n)

def toInt (letter : Option Char) : Number → Except Failure Int
  | int n => .ok n
  | float _ => .error (.typeMismatch letter "float".toList)

def basePrefix (spec : Spec) : List Char :=
  if spec.alternate then '0' :: spec.letter?.toList else []

/-- A percentage shows no sign but the minus, and a character none at all. -/
def convert (defaultPrecision : Int) (spec : Spec) (width : Int) (precision : Option Int)
    (x : Number) : Except Failure Draft :=
  let sign := spec.sign.shown x.isNegative
  let inBase (base : Nat) : Except Failure Draft := do
    let n ← x.toInt spec.letter?
    let digits ← (Value.int n.natAbs).toNumeral [] spec.case base
    return ⟨sign ++ basePrefix spec, Text.ofChars digits, width⟩
  let floating (style : Style) : Except Failure Draft := do
    return ⟨sign, Text.ofChars (← x.floating style spec (precision.getD defaultPrecision)), width⟩
  match spec.conversion with
  | .binary => inBase 2
  | .octal => inBase 8
  | .hex => inBase 16
  | .scientific => floating .scientific
  | .fixed => floating .fixed
  | .general => floating .general
  | .percent => do
    let digits ← x.timesHundred.styled spec.letter? .fixed false defaultPrecision
    return ⟨Sign.unset.shown x.isNegative, Text.ofChars (digits ++ ['%']), width⟩
  | .char => do return ⟨[], [← character (← x.toInt spec.letter?)], width⟩
  | .standard | .decimal | .string | .debug => do
    return ⟨sign, Text.ofChars (← x.plain), width⟩

end Number

/-- Every conversion of a number but to a string. Any other value is refused where an integer is
asked for, and elsewhere because it has no sign to look at. -/
def Renderer.number (defaultPrecision : Int) : Renderer where
  label := "number".toList
  kind := "number".toList
  numeric := true
  supported := [.standard, .decimal, .binary, .octal, .hex, .scientific, .fixed, .general, .percent,
    .char, .debug]
  takesPrecision := [.scientific, .fixed, .general]
  convert heap v spec width precision :=
    match v.toNumber? with
    | some x => x.convert defaultPrecision spec width precision
    | none =>
      if spec.conversion ∈ [.binary, .octal, .hex, .char] then
        .error (.typeMismatch spec.letter? (v.typeName heap))
      else .error (.unsupported (v.typeName heap))

end Stencil
