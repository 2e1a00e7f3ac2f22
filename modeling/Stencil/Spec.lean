/-! # Field specifications

A replacement field names an argument and says how to show it: where to pad, which sign to give,
how wide, how precise, and by which conversion. Width and precision are counts, written out or taken
from an argument.
-/

namespace Stencil

inductive Align | left | right | center | afterSign
  deriving DecidableEq

/-- `unset` and `minus` give the same glyphs; only `unset` is accepted where signs make no sense. -/
inductive Sign | unset | minus | plus | space
  deriving DecidableEq

inductive Conversion
  | standard | decimal | binary | octal | hex | scientific | fixed | general | percent | string
  | char | debug
  deriving DecidableEq

inductive Case | lower | upper
  deriving DecidableEq

inductive Count
  | literal (n : Nat)
  | argument (position : Option Nat)
  deriving DecidableEq

/-- `zeroPad` keeps the flag as written; `fill` and `align` already say what it amounts to. -/
structure Spec where
  fill : List Char := [' ']
  align : Option Align := none
  sign : Sign := .unset
  alternate : Bool := false
  zeroPad : Bool := false
  width : Count := .literal 0
  precision : Option Count := none
  conversion : Conversion := .standard
  case : Case := .lower
  deriving DecidableEq

structure Field where
  position : Option Nat := none
  spec : Spec := {}
  deriving DecidableEq

def Align.glyph : Align → Char
  | left => '<'
  | right => '>'
  | center => '^'
  | afterSign => '='

def Sign.glyph? : Sign → Option Char
  | unset => none
  | minus => some '-'
  | plus => some '+'
  | space => some ' '

def Sign.shown (sign : Sign) (negative : Bool) : List Char :=
  if negative then ['-']
  else match sign with
    | plus => ['+']
    | space => [' ']
    | unset | minus => []

def Conversion.letter? : Conversion → Option Char
  | standard => none
  | decimal => some 'd'
  | binary => some 'b'
  | octal => some 'o'
  | hex => some 'x'
  | scientific => some 'e'
  | fixed => some 'f'
  | general => some 'g'
  | percent => some '%'
  | string => some 's'
  | char => some 'c'
  | debug => some '?'

/-- The conversion letter as written, a capital for the upper case. -/
def Spec.letter? (s : Spec) : Option Char :=
  match s.case with
  | .lower => s.conversion.letter?
  | .upper => s.conversion.letter?.map Char.toUpper

end Stencil
