import Stencil.Value.Basic

/-! # Keys

A dictionary has one entry for equal keys. Numbers are equal by value, whatever their types, tuples
item by item and ranges by what they run through. Nodes and objects are equal to themselves only.
-/

namespace Stencil

/-- A real number in units of `2 ^ -1074`, or an infinity. -/
inductive Quantity
  | finite (units : Int)
  | infinite (negative : Bool)
  deriving DecidableEq

def Quantity.ofInt (n : Int) : Quantity := finite (n * 2 ^ 1074)

def Double.toQuantity? : Double → Option Quantity
  | finite negative magnitude =>
    some (.finite (if negative then -magnitude.units else magnitude.units))
  | infinite negative => some (.infinite negative)
  | nan => none

/-- The first number of a range, its step and how many numbers there are. A range of one number has
no step, and one of none has nothing. -/
def rangeExtent (start stop step : Int) : Nat × Option Int × Option Int :=
  let size := ((stop - start + step - step.sign).tdiv step).toNat
  (size, if size = 0 then none else some start, if size ≤ 1 then none else some step)

namespace Value

def parts? : Value → Option (Quantity × Quantity)
  | bool b => some (.ofInt b.toNat, .finite 0)
  | int n => some (.ofInt n, .finite 0)
  | float x => do return (← x.toQuantity?, .finite 0)
  | complex re im => do return (← re.toQuantity?, ← im.toQuantity?)
  | _ => none

/-- Whether two values are the same key, inside the tuples on the path. -/
def sameKeyWithin (heap : Heap) (path : List Nat) : Value → Value → Bool
  | null, null | ellipsis, ellipsis => true
  | string s, string t => s = t
  | bytes s, bytes t => s = t
  | range a b c, range a' b' c' => rangeExtent a b c = rangeExtent a' b' c'
  | container a, container b =>
    if a = b then true
    else if hp : a ∈ path then false
    else if hl : a < heap.length then
      have := heap.unvisited_cons_lt hl hp
      let inner := sameKeyWithin heap (a :: path)
      match heap.at a, heap.at b with
      | .sequence .tuple items, .sequence .tuple items' =>
        items.length = items'.length && (items.zip items').all fun (v, w) => inner v w
      | _, _ => false
    else false
  | v, w =>
    match v.parts?, w.parts? with
    | some p, some q => p = q
    | _, _ => false
  termination_by heap.unvisited path

def sameKey (heap : Heap) (v w : Value) : Bool := v.sameKeyWithin heap [] w

end Value

/-- A new key goes to the end. The key of an entry stays, and its value is replaced. -/
def enter (heap : Heap) (key value : Value) : List (Value × Value) → List (Value × Value)
  | [] => [(key, value)]
  | (k, v) :: rest =>
    if k.sameKey heap key then (k, value) :: rest else (k, v) :: enter heap key value rest

def Container.ofEntries (heap : Heap) (kind : MappingKind) (entries : List (Value × Value)) :
    Container :=
  .mapping kind (entries.foldl (fun made (key, value) => enter heap key value made) [])

end Stencil
