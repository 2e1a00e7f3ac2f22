import Stencil.Number
import Stencil.Tree.Pretty
import Stencil.Value.Key

/-! # Kinds of values

Beside numbers there are texts, containers, and everything else. The precision of a text says how
many characters to skip, and the width of a container in the alternate form is its indentation.
-/

namespace Stencil

def skip {α : Type} (n : Int) (s : List α) : List α :=
  if n < 0 then s.drop (s.length - n.natAbs) else s.drop n.toNat

/-- The literal of a value without its first items. The rest of a node is a plain list, a tuple of
which nothing is skipped is the same tuple, and the rest of a range ends where the range would go on.
-/
def Value.restLiteral (heap : Heap) (n : Int) : Value → Except Failure (List Char)
  | .string s => .ok (Quoted.literal (skip n s))
  | .bytes b => .ok (Quoted.bytesLiteral (skip n b))
  | .range start stop step =>
    let size := (rangeExtent start stop step).1
    let first := if n < 0 then size - n.natAbs else min n.toNat size
    rangeText (start + first * step) (start + size * step) step
  | .container address =>
    match heap.at address with
    | .sequence .tuple items =>
      let rest := skip n items
      if rest.length = items.length then literal heap (.container address)
      else (Container.sequence .tuple rest).literal (literalWithin heap [])
    | .sequence _ items => (Container.sequence .list (skip n items)).literal (literalWithin heap [])
    | c => .error (.unsupported c.typeName)
  | v => .error (.unsupported (v.typeName heap))

namespace Renderer

def text : Renderer where
  label := "text".toList
  kind := "str".toList
  supported := [.standard, .string, .debug]
  takesPrecision := [.standard, .string, .debug]
  convert heap v spec width precision :=
    let n := precision.getD 0
    if spec.conversion = .debug then do
      return ⟨[], .ofChars (← v.restLiteral heap n), width⟩
    else match v with
      | .string s => .ok ⟨[], .ofChars (skip n s), width⟩
      | _ => .error (.unsupported (v.typeName heap))

theorem text_convert (heap : Heap) (s : List Char) (spec : Spec) (width : Int)
    (precision : Option Int) : text.convert heap (.string s) spec width precision =
      .ok ⟨[], .ofChars (if spec.conversion = .debug then Quoted.literal (skip (precision.getD 0) s)
        else skip (precision.getD 0) s), width⟩ := by
  unfold text
  dsimp only
  split <;> rfl

def container (defaultIndent : Int) : Renderer where
  label := "container".toList
  kind := "container".toList
  supported := [.standard, .string, .debug]
  convert heap v spec width _ :=
    if spec.alternate then do
      let indent := if width = 0 then defaultIndent else width
      return ⟨[], .ofChars (← v.pretty heap { indent }), 0⟩
    else do return ⟨[], .ofChars (← v.pretty heap {}), width⟩

def fallback : Renderer where
  label := "fallback".toList
  kind := "object".toList
  supported := [.standard, .debug]
  convert heap v spec width _ := do
    let shown ← if spec.conversion = .debug then v.literal heap else v.text heap
    return ⟨[], .ofChars shown, width⟩

end Renderer

end Stencil
