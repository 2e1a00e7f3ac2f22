import Stencil.Layout
import Stencil.Tree.Basic
import Stencil.Value.Literal

/-! # Printing trees

Trees are printed on one line, or with one entry on a line and an indentation for every level. On
request each container that has entries is tagged with its type and a number for its identity.
-/

namespace Stencil

/-- `depth` is the level of the outermost container. Without an indentation there is one line. -/
structure PrettyOptions where
  indent : Int := 0
  depth : Int := 0
  showIdentity : Bool := false
  deriving DecidableEq

/-- Containers are numbered from one in the order in which they are first opened. -/
def tag (heap : Heap) (order : List Nat) (address : Nat) : List Char :=
  (heap.at address).typeName ++ ": 0x<".toList ++ natText (order.eraseDups.idxOf address + 1) ++
    "> ".toList

def PrettyOptions.enclose (o : PrettyOptions) (head closing : List Char)
    (lines : List (List Char)) : List Char :=
  head ++
    if 0 < o.indent then
      "\x7b\n".toList ++ ",\n".toList.intercalate lines ++ ",\n".toList ++ closing ++ ['\x7d']
    else '\x7b' :: ", ".toList.intercalate lines ++ closing ++ ['\x7d']

namespace Tree

/-- Only strings stand for themselves as keys. -/
def keyText : Tree → List Char → List Char
  | leaf (.string s), _ => s
  | _, text => '[' :: text ++ [']']

mutual

def print (heap : Heap) (o : PrettyOptions) (order : List Nat) (depth : Int) :
    Tree → Except Failure (List Char)
  | leaf v => v.text heap
  | self => .ok "(self)".toList
  | branch _ [] => .ok "\x7b\x7d".toList
  | branch address (entry :: rest) => do
    let padding ← spaces (o.indent * (depth + 1))
    let lines ← printEntries heap o order padding (depth + 1) (entry :: rest)
    let closing ← spaces (o.indent * depth)
    let head := if o.showIdentity then tag heap order address else []
    return o.enclose head closing lines
  termination_by structural t => t

def printEntries (heap : Heap) (o : PrettyOptions) (order : List Nat) (padding : List Char)
    (depth : Int) : List (Tree × Tree) → Except Failure (List (List Char))
  | [] => .ok []
  | (key, value) :: rest => do
    let keyText := key.keyText (← key.print heap o order depth)
    let valueText ← value.print heap o order depth
    let lines ← printEntries heap o order padding depth rest
    return (padding ++ keyText ++ " = ".toList ++ valueText) :: lines
  termination_by structural entries => entries

end

def line (padding : List Char) (text : Tree → Except Failure (List Char)) (entry : Tree × Tree) :
    Except Failure (List Char) := do
  let keyText ← entry.1.keyText <$> text entry.1
  let valueText ← text entry.2
  return padding ++ keyText ++ " = ".toList ++ valueText

theorem keyText_unfoldWithin {key : Value} (h : ∀ s, key ≠ .string s) (heap : Heap)
    (path : List Nat) (text : List Char) :
    (key.unfoldWithin heap path).keyText text = '[' :: text ++ [']'] := by
  rw [Value.unfoldWithin_eq]
  split
  · cases key with
    | string s => exact absurd rfl (h s)
    | _ => rfl
  · split <;> rfl

section Entries

variable (heap : Heap) (o : PrettyOptions) (order : List Nat) (depth : Int)

theorem printEntries_eq (padding : List Char) (entries : List (Tree × Tree)) :
    printEntries heap o order padding depth entries =
      entries.mapM (line padding (print heap o order depth)) := by
  induction entries with
  | nil => rfl
  | cons entry rest ih =>
    simp only [printEntries, line, ih, List.mapM_cons, map_eq_pure_bind, bind_assoc, pure_bind]

theorem print_branch (address : Nat) {entries : List (Tree × Tree)} (h : entries ≠ []) :
    (branch address entries).print heap o order depth = do
      let padding ← spaces (o.indent * (depth + 1))
      let lines ← entries.mapM (line padding (print heap o order (depth + 1)))
      let closing ← spaces (o.indent * depth)
      return o.enclose (if o.showIdentity then tag heap order address else []) closing lines := by
  obtain ⟨entry, rest, rfl⟩ := List.exists_cons_of_ne_nil h
  simp only [print, printEntries_eq]

end Entries

end Tree

end Stencil
