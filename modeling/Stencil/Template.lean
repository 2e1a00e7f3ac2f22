import Stencil.Field.Reader

/-! # Templates

A template is cut into pieces from the left: literal text, in which a doubled brace stands for one,
and replacement fields. The pieces are adjacent slices of the template, and the first field that
cannot be read is the last piece.
-/

namespace Stencil

/-- The literal text in front of a field or of the end, and what follows it. A closing brace alone
stands for itself, an opening brace alone opens a field. -/
def literal : List Char → List Char × List Char
  | [] => ([], [])
  | '\x7b' :: '\x7b' :: rest => let (text, rest) := literal rest; ('\x7b' :: text, rest)
  | '\x7b' :: rest => ([], '\x7b' :: rest)
  | '\x7d' :: '\x7d' :: rest => let (text, rest) := literal rest; ('\x7d' :: text, rest)
  | c :: rest => let (text, rest) := literal rest; (c :: text, rest)

/-- The literal text at the given offset, and how many characters it takes up. -/
def literalAt (offset : Nat) (text : List Char) : List Char × Nat :=
  let s := text.drop offset
  ((literal s).1, s.length - (literal s).2.length)

inductive Content
  | literal (text : List Char)
  | field (field : Field)
  | failure (failure : Failure)
  deriving DecidableEq

/-- What a slice of the template holds, and where the slice begins. -/
structure Piece where
  offset : Nat
  source : List Char
  content : Content
  deriving DecidableEq

/-- The pieces of a text that stands at the given offset. -/
def pieces (offset : Nat) (s : List Char) : List Piece :=
  if s = [] then []
  else
    let (text, rest) := literal s
    if rest.length < s.length then
      let size := s.length - rest.length
      ⟨offset, s.take size, .literal text⟩ :: pieces (offset + size) rest
    else
      match h : Reader.field s with
      | .ok (field, rest) =>
        have := Reader.length_lt_of_field h
        let size := s.length - rest.length
        ⟨offset, s.take size, .field field⟩ :: pieces (offset + size) rest
      | .error fault => [⟨offset, [], .failure (fault.toFailure offset s)⟩]
  termination_by s.length

end Stencil
