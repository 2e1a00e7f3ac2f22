import Stencil.Value.Basic

/-! # Unfolding a heap

A value unfolds to a finite tree, in which every container is opened anew wherever it is met. Only
inside itself it is left closed, and so no path opens one container twice.
-/

namespace Stencil

/-- An entry is a key with a value. A container without entries is a branch too. -/
inductive Tree
  | leaf (value : Value)
  | self
  | branch (address : Nat) (entries : List (Tree × Tree))

theorem Tree.induct {motive : Tree → Prop} (leaf : ∀ v, motive (leaf v)) (self : motive self)
    (branch : ∀ address entries, (∀ entry ∈ entries, motive entry.1 ∧ motive entry.2) →
      motive (branch address entries)) (t : Tree) : motive t := by
  refine @Tree.rec motive (fun entries => ∀ entry ∈ entries, motive entry.1 ∧ motive entry.2)
    (fun entry => motive entry.1 ∧ motive entry.2) leaf self branch ?nil ?cons ?entry t
  case nil => exact fun entry h => (List.not_mem_nil h).elim
  case cons => exact fun entry entries hentry ih => List.forall_mem_cons.mpr ⟨hentry, ih⟩
  case entry => exact fun key value hkey hvalue => ⟨hkey, hvalue⟩

/-- The items of a sequence have their indices as keys. A set has no entries, not even none. -/
def Container.entries? : Container → Option (List (Value × Value))
  | sequence _ items => some (items.zipIdx.map fun (item, i) => (.int i, item))
  | mapping _ entries => some entries
  | set _ => none

def Value.entries? (heap : Heap) : Value → Option (Nat × List (Value × Value))
  | .container address => (heap.at address).entries?.map (address, ·)
  | _ => none

/-- The tree of a value inside the containers on the path. -/
def Value.unfoldWithin (heap : Heap) (path : List Nat) : Value → Tree
  | .container address =>
    match (heap.at address).entries? with
    | none => .leaf (.container address)
    | some entries =>
      if hp : address ∈ path then .self
      else if hl : address < heap.length then
        have := heap.unvisited_cons_lt hl hp
        let inner := unfoldWithin heap (address :: path)
        .branch address (entries.map fun (key, value) => (inner key, inner value))
      else .branch address []
  | v => .leaf v
  termination_by heap.unvisited path

theorem Heap.entries?_of_length_le {heap : Heap} {address : Nat} (h : heap.length ≤ address) :
    (heap.at address).entries? = some [] := by
  simp [Heap.at, Container.entries?, h]

theorem Value.lt_length_of_entries? {heap : Heap} {v : Value} {address : Nat}
    {entries : List (Value × Value)} (h : v.entries? heap = some (address, entries))
    (hn : entries ≠ []) : address < heap.length := by
  cases v with
  | container a =>
    simp only [entries?, Option.map_eq_some_iff, Prod.mk.injEq] at h
    obtain ⟨_, he, rfl, rfl⟩ := h
    apply Nat.lt_of_not_le
    intro hl
    apply hn
    rw [Heap.entries?_of_length_le hl] at he
    exact (Option.some.inj he).symm
  | _ => cases h

theorem Value.unfoldWithin_eq (heap : Heap) (path : List Nat) (v : Value) :
    v.unfoldWithin heap path =
      match v.entries? heap with
      | none => .leaf v
      | some (address, entries) =>
        if address ∈ path then .self
        else .branch address (entries.map fun (key, value) =>
          (key.unfoldWithin heap (address :: path),
            value.unfoldWithin heap (address :: path))) := by
  cases v with
  | container address =>
    rw [Value.unfoldWithin]
    cases he : (heap.at address).entries? with
    | none => simp [entries?, he]
    | some entries =>
      by_cases hp : address ∈ path
      · simp [entries?, he, hp]
      · by_cases hl : address < heap.length
        · simp [entries?, he, hp, hl]
        · have : entries = [] := by
            rw [Heap.entries?_of_length_le (Nat.le_of_not_lt hl)] at he
            exact (Option.some.inj he).symm
          simp [entries?, he, hp, hl, this]
  | _ => simp [entries?, unfoldWithin]

section Unfolding

variable {heap : Heap} {path : List Nat} {v : Value} {address : Nat}
  {entries : List (Value × Value)}

theorem Value.unfoldWithin_leaf (h : v.entries? heap = none) :
    v.unfoldWithin heap path = .leaf v := by
  rw [unfoldWithin_eq, h]

theorem Value.unfoldWithin_self (h : v.entries? heap = some (address, entries))
    (hp : address ∈ path) : v.unfoldWithin heap path = .self := by
  rw [unfoldWithin_eq, h]
  exact if_pos hp

theorem Value.unfoldWithin_branch (h : v.entries? heap = some (address, entries))
    (hp : address ∉ path) :
    v.unfoldWithin heap path = .branch address (entries.map fun (key, value) =>
      (key.unfoldWithin heap (address :: path), value.unfoldWithin heap (address :: path))) := by
  rw [unfoldWithin_eq, h]
  exact if_neg hp

end Unfolding

/-- The recursion of `unfoldWithin`. What holds for all that a container holds inside it holds for
the container, unless it is inside itself. -/
theorem Value.unfoldWithin_induct {heap : Heap} {motive : List Nat → Value → Prop}
    (leaf : ∀ path v, v.entries? heap = none → motive path v)
    (self : ∀ path v address entries, v.entries? heap = some (address, entries) →
      address ∈ path → motive path v)
    (branch : ∀ path v address entries, v.entries? heap = some (address, entries) →
      address ∉ path →
      (∀ entry ∈ entries, motive (address :: path) entry.1 ∧ motive (address :: path) entry.2) →
      motive path v)
    (path : List Nat) (v : Value) : motive path v := by
  induction hn : heap.unvisited path using Nat.strongRecOn generalizing path v with
  | ind n ih =>
    cases he : v.entries? heap with
    | none => exact leaf path v he
    | some occurrence =>
      obtain ⟨address, entries⟩ := occurrence
      by_cases hp : address ∈ path
      · exact self path v address entries he hp
      · apply branch path v address entries he hp
        intro entry hentry
        have hl := lt_length_of_entries? he (List.ne_nil_of_mem hentry)
        have hlt := heap.unvisited_cons_lt hl hp
        exact ⟨ih _ (hn ▸ hlt) _ _ rfl, ih _ (hn ▸ hlt) _ _ rfl⟩

def Value.unfold (heap : Heap) (v : Value) : Tree := v.unfoldWithin heap []

namespace Tree

mutual

/-- The containers that have entries, in the order in which they are opened. -/
def opened : Tree → List Nat
  | leaf _ | self | branch _ [] => []
  | branch address (entry :: rest) => address :: openedIn (entry :: rest)
  termination_by structural t => t

def openedIn : List (Tree × Tree) → List Nat
  | [] => []
  | (key, value) :: rest => key.opened ++ value.opened ++ openedIn rest
  termination_by structural entries => entries

end

end Tree

end Stencil
