import Stencil.Registry
import Stencil.Run.Arguments

/-! # Formatting

A template is run piece by piece against a list of arguments. A field takes its argument, then its
width and its precision where they refer to arguments too, and is rendered. The first failure ends
the run and is its result.
-/

namespace Stencil

variable (heap : Heap) (args : List Value) (registry : Registry)

def runField (field : Field) : Run Text := do
  let (_, v) ← take args .field field.position
  let width ← takeCount heap args .width field.spec.width
  let precision ← takeCount? heap args .precision field.spec.precision
  .lift (registry.render heap field.spec width (precision.map Int.ofNat) v)

def runPiece (piece : Piece) : Run Text :=
  match piece.content with
  | .literal text => pure (.ofChars text)
  | .field field => do
    .note (.read piece.source piece.offset field)
    runField heap args registry field
  | .failure failure => .lift (.error failure)

def runPieces : List Piece → Run Text
  | [] => pure []
  | piece :: rest => do
    let text ← runPiece heap args registry piece
    return text ++ (← runPieces rest)

def trace (template : List Char) : List Event × Except Failure Text :=
  let (events, result) := runPieces heap args registry (pieces 0 template) 0
  (events, result.map (·.1))

def Registry.format (template : List Char) : Except Failure Text :=
  (trace heap args registry template).2

end Stencil
