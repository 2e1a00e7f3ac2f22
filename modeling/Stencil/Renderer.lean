import Stencil.Spec
import Stencil.Text.CodePoint
import Stencil.Value.Basic

/-! # Renderers

A renderer turns the values of one kind into drafts, texts that are still to be padded. It says
which options its kind takes, so that they can be checked before any value is converted.
-/

namespace Stencil

/-- A fill after the sign goes between the two parts. `width` is the width to fill up to. -/
structure Draft where
  sign : List Char
  body : Text
  width : Int
  deriving DecidableEq

/-- `label` names the renderer in listings and `kind` in failures. Only numeric kinds take signs and
fills after the sign. -/
structure Renderer where
  label : List Char
  kind : List Char
  numeric : Bool := false
  supported : List Conversion := [.standard]
  takesPrecision : List Conversion := []
  convert : Heap → Value → Spec → Int → Option Int → Except Failure Draft

end Stencil
