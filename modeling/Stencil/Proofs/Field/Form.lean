import Stencil.Field.Reader

/-! # Written forms of fields

A form is one way to derive a text from the field grammar

    field      ::= "{" [position] [":" spec] "}"
    position   ::= digit+
    spec       ::= [[fill] align] [sign] ["#"] ["0"] [width] ["." precision] [type]
    fill       ::= any character except the braces
    width      ::= digit+ | "{" [position] "}"
    precision  ::= digit+ | "{" [position] "}"

with the field that the derivation says. The grammar leaves open whether a zero in front of the
width is the flag or a digit, and is unambiguous otherwise.
-/

namespace Stencil

/-- `digit+`, for the digits of ASCII. -/
@[ext] structure DigitRun where
  text : List Char
  ne_nil : text ≠ []
  isDigit : ∀ c ∈ text, c.isDigit = true
  deriving DecidableEq

def isFill (c : Char) : Prop := c ≠ '\x7b' ∧ c ≠ '\x7d'

instance (c : Char) : Decidable (isFill c) := by unfold isFill; infer_instance

def typeLetters : List Char := "bcdeEfFgGosxX%?".toList

/-- Characters are finitely many, but those of a list are fewer. -/
instance (priority := high) decidableForallMemChars {p : Char → Prop} [DecidablePred p]
    (s : List Char) : Decidable (∀ c ∈ s, p c) :=
  s.decidableBAll p

inductive CountForm
  | digits (run : DigitRun)
  | reference (position : Option DigitRun)
  deriving DecidableEq

structure AlignForm where
  fill : Option {c : Char // isFill c}
  align : Align
  deriving DecidableEq

/-- `Sign.unset` is the sign left out. -/
structure SpecForm where
  alignment : Option AlignForm := none
  sign : Sign := .unset
  alternate : Bool := false
  zero : Bool := false
  width : Option CountForm := none
  precision : Option CountForm := none
  letter : Option {c : Char // c ∈ typeLetters} := none
  deriving DecidableEq

structure FieldForm where
  position : Option DigitRun := none
  spec : Option SpecForm := none
  deriving DecidableEq

def partText {α : Type} (text : α → List Char) (part : Option α) : List Char :=
  part.elim [] text

def flagPart (c : Char) (flag : Bool) : List Char := if flag then [c] else []

def CountForm.text : CountForm → List Char
  | digits run => run.text
  | reference position => '\x7b' :: partText DigitRun.text position ++ ['\x7d']

def AlignForm.text (a : AlignForm) : List Char := a.fill.elim [] ([·.1]) ++ [a.align.glyph]

namespace SpecForm

variable (s : SpecForm)

def letterPart : List Char := partText ([·.1]) s.letter

def precisionPart : List Char := partText ('.' :: CountForm.text ·) s.precision

def widthPart : List Char := partText CountForm.text s.width

def afterWidth : List Char := s.precisionPart ++ s.letterPart

def afterZero : List Char := s.widthPart ++ s.afterWidth

def afterAlternate : List Char := flagPart '0' s.zero ++ s.afterZero

def afterSign : List Char := flagPart '#' s.alternate ++ s.afterAlternate

def options : List Char := s.sign.glyph?.toList ++ s.afterSign

def text : List Char := partText AlignForm.text s.alignment ++ s.options

/-- A zero at the place of the flag is the flag: the width does not begin with one, unless after the
flag. -/
def ZeroIsFlag : Prop := s.zero = false → s.widthPart.head? ≠ some '0'

instance : Decidable s.ZeroIsFlag := by unfold ZeroIsFlag; infer_instance

end SpecForm

namespace FieldForm

variable (f : FieldForm)

def text : List Char :=
  '\x7b' :: partText DigitRun.text f.position ++
    (partText (':' :: SpecForm.text ·) f.spec ++ ['\x7d'])

def ZeroIsFlag : Prop := ∀ s ∈ f.spec, s.ZeroIsFlag

instance : Decidable f.ZeroIsFlag := by unfold ZeroIsFlag; infer_instance

end FieldForm

def DigitRun.Fits (run : DigitRun) : Prop := run.text.length ≤ digitLimit

def CountForm.Fits : CountForm → Prop
  | digits run => run.Fits
  | reference position => ∀ run ∈ position, run.Fits

def SpecForm.Fits (s : SpecForm) : Prop :=
  (∀ n ∈ s.width, n.Fits) ∧ ∀ n ∈ s.precision, n.Fits

def FieldForm.Fits (f : FieldForm) : Prop :=
  (∀ run ∈ f.position, run.Fits) ∧ ∀ s ∈ f.spec, s.Fits

/-- Whether the grammar derives a text as a field. -/
def IsField (s : List Char) : Prop := ∃ f : FieldForm, f.text = s

def DigitRun.value (run : DigitRun) : Nat := Nat.ofDigitChars 10 run.text 0

def CountForm.count : CountForm → Count
  | digits run => .literal run.value
  | reference position => .argument (position.map DigitRun.value)

def letterConversion (letter : Option {c : Char // c ∈ typeLetters}) : Conversion × Case :=
  (letter.bind (Conversion.ofLetter? ·.1)).getD (.standard, .lower)

/-- A flag without an alignment asks for zeros between the sign and the digits. A width left out is
zero, and a fill left out is a space. -/
def SpecForm.spec (s : SpecForm) : Spec where
  fill := if s.zero = true ∧ s.alignment = none then ['0']
    else [((s.alignment.bind AlignForm.fill).map Subtype.val).getD ' ']
  align := if s.zero = true ∧ s.alignment = none then some .afterSign
    else s.alignment.map AlignForm.align
  sign := s.sign
  alternate := s.alternate
  zeroPad := s.zero
  width := (s.width.map CountForm.count).getD (.literal 0)
  precision := s.precision.map CountForm.count
  conversion := (letterConversion s.letter).1
  case := (letterConversion s.letter).2

def FieldForm.field (f : FieldForm) : Field where
  position := f.position.map DigitRun.value
  spec := (f.spec.map SpecForm.spec).getD {}

end Stencil
