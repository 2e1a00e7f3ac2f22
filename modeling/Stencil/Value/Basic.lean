import Stencil.Double

/-! # Values

Arguments are values of a few simple kinds, or containers. Containers lie in a heap and are referred
to by address, so that one container can be met in several places, itself included.
-/

namespace Stencil

inductive Value
  | null
  | bool (b : Bool)
  | int (n : Int)
  | float (x : Double)
  | complex (re im : Double)
  | string (s : List Char)
  | bytes (bytes : List UInt8)
  | range (start stop step : Int)
  | ellipsis
  | object (typeName text literal : List Char)
  | container (address : Nat)
  deriving DecidableEq

/-- A node is a list that is told apart by its address. -/
inductive SequenceKind | list | node | tuple
  deriving DecidableEq

/-- A proxy is a read-only view of a dictionary. -/
inductive MappingKind | dict | proxy
  deriving DecidableEq

/-- What lies at an address. A set counts as a simple value, although it can hold containers. -/
inductive Container
  | sequence (kind : SequenceKind) (items : List Value)
  | mapping (kind : MappingKind) (entries : List (Value × Value))
  | set (members : List Value)

abbrev Heap := List Container

def SequenceKind.name : SequenceKind → List Char
  | list => "list".toList
  | node => "node".toList
  | tuple => "tuple".toList

def MappingKind.name : MappingKind → List Char
  | dict => "dict".toList
  | proxy => "mappingproxy".toList

def Container.typeName : Container → List Char
  | sequence kind _ => kind.name
  | mapping kind _ => kind.name
  | set _ => "set".toList

/-- Nothing lies outside the heap but empty lists. -/
def Heap.at (heap : Heap) (address : Nat) : Container :=
  heap[address]?.getD (.sequence .list [])

def Heap.unvisited (heap : Heap) (path : List Nat) : Nat :=
  ((List.range heap.length).filter (· ∉ path)).length

theorem Heap.unvisited_cons_lt {heap : Heap} {path : List Nat} {address : Nat}
    (h : address < heap.length) (hp : address ∉ path) :
    heap.unvisited (address :: path) < heap.unvisited path := by
  have hs : (List.range heap.length).filter (· ∉ address :: path) =
      ((List.range heap.length).filter (· ∉ path)).filter (· ≠ address) := by
    rw [List.filter_filter]
    congr 1
    funext x
    simp [not_or]
  unfold Heap.unvisited
  rw [hs, List.length_filter_lt_length_iff_exists]
  exact ⟨address, by simp [h, hp], by simp⟩

namespace Value

def typeName (heap : Heap) : Value → List Char
  | null => "NoneType".toList
  | bool _ => "bool".toList
  | int _ => "int".toList
  | float _ => "float".toList
  | complex _ _ => "complex".toList
  | string _ => "str".toList
  | bytes _ => "bytes".toList
  | range _ _ _ => "range".toList
  | ellipsis => "ellipsis".toList
  | object typeName _ _ => typeName
  | container address => (heap.at address).typeName

def isString : Value → Bool
  | string _ => true
  | _ => false

/-- Booleans are no numbers. -/
def isNumber : Value → Bool
  | int _ | float _ => true
  | _ => false

/-- No integer is such a value, however large. -/
def isNaN : Value → Bool
  | float .nan => true
  | _ => false

@[inherit_doc isNaN]
def isInfinite : Value → Bool
  | float (.infinite _) => true
  | _ => false

def isComposite (heap : Heap) : Value → Bool
  | container address =>
    match heap.at address with
    | .sequence _ _ | .mapping _ _ => true
    | .set _ => false
  | _ => false

end Value

end Stencil
