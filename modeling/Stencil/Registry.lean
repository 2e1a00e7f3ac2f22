import Stencil.Kinds
import Stencil.Layout

/-! # Registries

A registry holds registrations with different names, those of higher priority first and among equals
the earlier ones. A value is rendered by the first whose renderer is meant for it, after the options
of its field have been checked against what the renderer takes.
-/

namespace Stencil

structure Registration where
  name : List Char
  priority : Int
  accepts : Heap → Value → Bool
  renderer : Renderer

abbrev Registry := List Registration

namespace Registry

/-- Behind every registration whose priority is at least as high. -/
def insert (r : Registration) : Registry → Registry
  | [] => [r]
  | first :: rest =>
    if r.priority ≤ first.priority then first :: insert r rest else r :: first :: rest

/-- A registration replaces the one of the same name. -/
def register (registry : Registry) (r : Registration) : Registry :=
  insert r (registry.filter (·.name ≠ r.name))

def resolve (registry : Registry) (heap : Heap) (v : Value) : Option Renderer :=
  (registry.find? (·.accepts heap v)).map (·.renderer)

end Registry

namespace Registration

def container (defaultIndent : Int) : Registration :=
  ⟨"container".toList, 30, fun heap v => v.isComposite heap, .container defaultIndent⟩

def text : Registration := ⟨"text".toList, 20, fun _ v => v.isString, .text⟩

def number (defaultPrecision : Int) : Registration :=
  ⟨"number".toList, 10, fun _ v => v.isNumber, .number defaultPrecision⟩

def fallback : Registration := ⟨"fallback".toList, -999, fun _ _ => true, .fallback⟩

end Registration

namespace Registry

def standardKinds (defaultPrecision defaultIndent : Int) : List Registration :=
  [.container defaultIndent, .text, .number defaultPrecision, .fallback]

/-- The standard kinds and further ones, which may replace them. -/
def standard (defaultPrecision : Int := 6) (defaultIndent : Int := 4)
    (further : List Registration := []) : Registry :=
  (standardKinds defaultPrecision defaultIndent ++ further).foldl register []

end Registry

def Registry.render (registry : Registry) (heap : Heap) (spec : Spec) (width : Int)
    (precision : Option Int) (v : Value) : Except Failure Text :=
  match registry.resolve heap v with
  | none => .error (.typeMismatch spec.letter? (v.typeName heap))
  | some r =>
    if r.numeric = false ∧ spec.sign ≠ .unset then .error (.invalidSpec .sign r.kind)
    else if r.numeric = false ∧ spec.align = some .afterSign then
      .error (.invalidSpec .alignAfterSign r.kind)
    else if spec.conversion ∉ r.supported then .error (.typeMismatch spec.letter? r.kind)
    else if precision.isSome ∧ spec.conversion ∉ r.takesPrecision then
      .error (.invalidSpec (.precision spec.letter?) r.kind)
    else do
      let out ← r.convert heap v spec width precision
      let align := spec.align.getD (if r.numeric then .right else .left)
      pad (Text.ofChars out.sign) out.body out.width (Text.ofChars spec.fill) align

end Stencil
