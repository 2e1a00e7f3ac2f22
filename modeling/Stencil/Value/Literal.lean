import Stencil.Value.Basic

/-! # Texts of values

Every value has a plain text and a literal. They differ for strings, which are quoted in a literal,
for objects, which bring both, and for proxies. The literal of a container holds those of its
contents, and a container inside itself is shown as an ellipsis in its brackets.
-/

namespace Stencil

def commaSeparated (parts : List (List Char)) : List Char :=
  ", ".toList.intercalate parts

theorem intercalate_cons {α : Type} (separator l : List α) (ls : List (List α)) :
    separator.intercalate (l :: ls) = l ++ ls.flatMap (separator ++ ·) := by
  induction ls generalizing l with
  | nil => simp [List.intercalate]
  | cons l' ls ih => rw [List.intercalate_cons_cons, ih, List.flatMap_cons, List.append_assoc,
      List.append_assoc]

/-- The imaginary part always has a sign, except where it stands alone because the real part is a
positive zero. Whole numbers are shown without a fraction. -/
def complexText (re im : Double) : List Char :=
  let signed (x : Double) := (if x.hasMinus then ['-'] else []) ++ x.unsignedText []
  if re.unsignedText [] = ['0'] ∧ re.hasMinus = false then signed im ++ ['j']
  else
    '(' :: signed re ++ (if im.hasMinus then '-' else '+') :: im.unsignedText [] ++ "j)".toList

/-- The step is shown unless it is one. -/
def rangeText (start stop step : Int) : Except Failure (List Char) := do
  let bounds ← [start, stop].mapM decimalText
  let steps ← if step = 1 then pure [] else [step].mapM decimalText
  return "range(".toList ++ commaSeparated (bounds ++ steps) ++ ")".toList

def SequenceKind.enclose : SequenceKind → List (List Char) → List Char
  | list, parts | node, parts => '[' :: commaSeparated parts ++ [']']
  | tuple, [part] => '(' :: part ++ ",)".toList
  | tuple, parts => '(' :: commaSeparated parts ++ [')']

def MappingKind.enclose : MappingKind → List (List Char) → List Char
  | dict, parts => '\x7b' :: commaSeparated parts ++ ['\x7d']
  | proxy, parts => "mappingproxy(\x7b".toList ++ commaSeparated parts ++ "\x7d)".toList

def encloseSet : List (List Char) → List Char
  | [] => "set()".toList
  | parts => '\x7b' :: commaSeparated parts ++ ['\x7d']

namespace Container

def ellipsis : Container → List Char
  | sequence .tuple _ => "(...)".toList
  | sequence _ _ => "[...]".toList
  | mapping .dict _ => "\x7b...\x7d".toList
  | mapping .proxy _ => "mappingproxy(\x7b...\x7d)".toList
  | set _ => "set(...)".toList

def literal (inner : Value → Except Failure (List Char)) : Container → Except Failure (List Char)
  | sequence kind items => do return kind.enclose (← items.mapM inner)
  | mapping kind entries => do
    return kind.enclose (← entries.mapM fun (key, value) => do
      let key ← inner key
      return key ++ ": ".toList ++ (← inner value))
  | set members => do return encloseSet (← members.mapM inner)

/-- A proxy is shown as the dictionary behind it. -/
def withoutProxy : Container → Container
  | mapping .proxy entries => mapping .dict entries
  | c => c

end Container

namespace Value

/-- The literal of a value inside the containers on the path. -/
def literalWithin (heap : Heap) (path : List Nat) : Value → Except Failure (List Char)
  | null => .ok "None".toList
  | bool b => .ok (if b then "True".toList else "False".toList)
  | int n => decimalText n
  | float x => .ok x.text
  | complex re im => .ok (complexText re im)
  | string s => .ok (Quoted.literal s)
  | bytes b => .ok (Quoted.bytesLiteral b)
  | range start stop step => rangeText start stop step
  | ellipsis => .ok "Ellipsis".toList
  | object _ _ literal => .ok literal
  | container address =>
    if hp : address ∈ path then .ok (heap.at address).ellipsis
    else if hl : address < heap.length then
      have := heap.unvisited_cons_lt hl hp
      (heap.at address).literal (literalWithin heap (address :: path))
    else .ok "[]".toList
  termination_by heap.unvisited path

theorem literalWithin_container {heap : Heap} {path : List Nat} {address : Nat}
    (hp : address ∉ path) :
    (container address).literalWithin heap path =
      (heap.at address).literal (literalWithin heap (address :: path)) := by
  rw [literalWithin, dif_neg hp]
  by_cases hl : address < heap.length
  · rw [dif_pos hl]
  · rw [dif_neg hl, Heap.at, List.getElem?_eq_none (Nat.le_of_not_lt hl)]
    rfl

def literal (heap : Heap) (v : Value) : Except Failure (List Char) := v.literalWithin heap []

def text (heap : Heap) : Value → Except Failure (List Char)
  | string s => .ok s
  | object _ text _ => .ok text
  | container address =>
    (heap.at address).withoutProxy.literal (literalWithin heap [address])
  | v => v.literal heap

end Value

end Stencil
