import Mathlib.Data.List.Nodup
import Mathlib.Data.Finset.Card
import Mathlib.Data.Finset.Dedup
import Stencil.Tree.Basic

/-! # Paths through an unfolded heap

A walk goes down through the entries of containers, and can go round a cycle for ever. The tree of a
value has the places of the walks that lead through no container twice. It is cut short where such a
walk comes back to one of its containers, and nowhere else.
-/

namespace Stencil

inductive Side | key | value
  deriving DecidableEq

def Side.of {α : Type} (entry : α × α) : Side → α
  | key => entry.1
  | value => entry.2

@[simp] theorem Side.of_map {α β : Type} (f : α → β) (entry : α × α) (side : Side) :
    side.of (f entry.1, f entry.2) = f (side.of entry) := by
  cases side <;> rfl

structure Step where
  index : Nat
  side : Side
  deriving DecidableEq

/-- Where the steps lead from a value, and the containers that they lead through, the last one
first, in front of those that led to the value. -/
def Value.walk (heap : Heap) (path : List Nat) : List Step → Value → Option (List Nat × Value)
  | [], v => some (path, v)
  | step :: steps, v => do
    let (address, entries) ← v.entries? heap
    let entry ← entries[step.index]?
    (step.side.of entry).walk heap (address :: path) steps

def Tree.at? : List Step → Tree → Option Tree
  | [], t => some t
  | step :: steps, branch _ entries => entries[step.index]?.bind fun entry =>
    (step.side.of entry).at? steps
  | _ :: _, leaf _ | _ :: _, self => none

variable {heap : Heap} {path passed : List Nat} {u v : Value} {steps : List Step}

theorem Value.walk_suffix (h : v.walk heap path steps = some (passed, u)) : path <:+ passed := by
  induction steps generalizing path v with
  | nil =>
    cases h
    exact List.suffix_refl _
  | cons step steps ih =>
    simp only [walk, Option.bind_eq_bind, Option.bind_eq_some_iff] at h
    obtain ⟨⟨address, entries⟩, -, entry, -, h⟩ := h
    exact (List.suffix_cons address path).trans (ih h)

theorem Value.not_nodup_of_walk {address : Nat} (hp : address ∈ path)
    (h : v.walk heap (address :: path) steps = some (passed, u)) : ¬ passed.Nodup := by
  intro hn
  have hs := (walk_suffix h).sublist.nodup hn
  exact (List.nodup_cons.mp hs).1 hp

/-- The places of a tree are those of the walks that lead through no container twice. -/
theorem Tree.at?_unfoldWithin (hn : path.Nodup) :
    (v.unfoldWithin heap path).at? steps = (v.walk heap path steps).bind fun (passed, u) =>
      if passed.Nodup then some (u.unfoldWithin heap passed) else none := by
  induction steps generalizing path v with
  | nil => simp [at?, Value.walk, hn]
  | cons step steps ih =>
    cases he : v.entries? heap with
    | none => simp [Value.unfoldWithin_leaf he, at?, Value.walk, he]
    | some occurrence =>
      obtain ⟨address, entries⟩ := occurrence
      simp only [Value.walk, he, Option.bind_eq_bind, Option.bind_some]
      cases hentry : entries[step.index]? with
      | none =>
        by_cases hp : address ∈ path
        · simp [Value.unfoldWithin_self he hp, at?]
        · simp [Value.unfoldWithin_branch he hp, at?, hentry]
      | some entry =>
        by_cases hp : address ∈ path
        · rw [Value.unfoldWithin_self he hp]
          refine (Option.bind_eq_none_iff.mpr ?_).symm
          rintro ⟨passed, u⟩ h
          exact if_neg (Value.not_nodup_of_walk hp h)
        · rw [Value.unfoldWithin_branch he hp]
          simp only [at?, List.getElem?_map, hentry, Option.map_some, Option.bind_some,
            Side.of_map (Value.unfoldWithin heap (address :: path))]
          exact ih (List.nodup_cons.mpr ⟨hp, hn⟩)

/-- What the end of a path is shown as. A container is cut if it is on the path already, and has all
its entries otherwise. -/
def Tree.Shows (heap : Heap) (passed : List Nat) (u : Value) (t : Tree) : Prop :=
  match u.entries? heap with
  | none => t = leaf u
  | some (address, entries) =>
    if address ∈ passed then t = self
    else ∃ subtrees, t = branch address subtrees ∧ subtrees.length = entries.length

theorem Tree.shows_unfoldWithin : (u.unfoldWithin heap passed).Shows heap passed u := by
  unfold Shows
  split
  · next he => exact Value.unfoldWithin_leaf he
  · next address entries he =>
    split
    · next hp => exact Value.unfoldWithin_self he hp
    · next hp => exact ⟨_, Value.unfoldWithin_branch he hp, List.length_map _⟩

theorem Tree.isSome_at?_unfold_iff : ((v.unfold heap).at? steps).isSome ↔
    ∃ passed u, v.walk heap [] steps = some (passed, u) ∧ passed.Nodup := by
  rw [Value.unfold, at?_unfoldWithin List.nodup_nil]
  cases hw : v.walk heap [] steps with
  | none => simp
  | some last =>
    obtain ⟨passed, u⟩ := last
    by_cases hn : passed.Nodup <;> simp [hn]

theorem Tree.shows_of_at?_unfold {t : Tree} (ht : (v.unfold heap).at? steps = some t)
    (hw : v.walk heap [] steps = some (passed, u)) : t.Shows heap passed u := by
  rw [Value.unfold, at?_unfoldWithin List.nodup_nil, hw, Option.bind_some,
    Option.ite_none_right_eq_some] at ht
  exact Option.some.inj ht.2 ▸ shows_unfoldWithin

namespace Tree

mutual

/-- The number of levels. Containers without entries are shown on the level of what holds them. -/
def height : Tree → Nat
  | leaf _ | self | branch _ [] => 0
  | branch _ (entry :: rest) => heightIn (entry :: rest) + 1
  termination_by structural t => t

def heightIn : List (Tree × Tree) → Nat
  | [] => 0
  | (key, value) :: rest => max (max key.height value.height) (heightIn rest)
  termination_by structural entries => entries

end

theorem heightIn_le_iff {entries : List (Tree × Tree)} {n : Nat} :
    heightIn entries ≤ n ↔ ∀ entry ∈ entries, entry.1.height ≤ n ∧ entry.2.height ≤ n := by
  induction entries with
  | nil => simp [heightIn]
  | cons entry rest ih => simp [heightIn, ih, and_assoc]

theorem mem_openedIn {entries : List (Tree × Tree)} {address : Nat} :
    address ∈ openedIn entries ↔
      ∃ entry ∈ entries, address ∈ entry.1.opened ∨ address ∈ entry.2.opened := by
  induction entries with
  | nil => simp [openedIn]
  | cons entry rest ih => simp [openedIn, ih, or_assoc]

theorem height_branch (address : Nat) {entries : List (Tree × Tree)} (h : entries ≠ []) :
    (branch address entries).height = heightIn entries + 1 := by
  obtain ⟨entry, rest, rfl⟩ := List.exists_cons_of_ne_nil h
  rfl

theorem opened_branch (address : Nat) {entries : List (Tree × Tree)} (h : entries ≠ []) :
    (branch address entries).opened = address :: openedIn entries := by
  obtain ⟨entry, rest, rfl⟩ := List.exists_cons_of_ne_nil h
  rfl

theorem not_mem_path_of_mem_opened {b : Nat} (h : b ∈ (v.unfoldWithin heap path).opened) :
    b ∉ path ∧ b < heap.length := by
  induction path, v using @Value.unfoldWithin_induct heap with
  | leaf path v he => simp [Value.unfoldWithin_leaf he, opened] at h
  | self path v address entries he hp => simp [Value.unfoldWithin_self he hp, opened] at h
  | branch path v address entries he hp ih =>
    by_cases hnil : entries = []
    · simp [Value.unfoldWithin_branch he hp, hnil, opened] at h
    · rw [Value.unfoldWithin_branch he hp, opened_branch _ (by simpa using hnil), List.mem_cons,
        mem_openedIn] at h
      rcases h with rfl | ⟨entry, hentry, h⟩
      · exact ⟨hp, Value.lt_length_of_entries? he hnil⟩
      · obtain ⟨entry, hmem, rfl⟩ := List.mem_map.mp hentry
        have hi : b ∉ address :: path ∧ b < heap.length :=
          h.elim (ih entry hmem).1 (ih entry hmem).2
        exact ⟨fun hb => hi.1 (List.mem_cons_of_mem _ hb), hi.2⟩

theorem height_le_card_opened :
    (v.unfoldWithin heap path).height ≤ (v.unfoldWithin heap path).opened.toFinset.card := by
  induction path, v using @Value.unfoldWithin_induct heap with
  | leaf path v he => simp [Value.unfoldWithin_leaf he, height]
  | self path v address entries he hp => simp [Value.unfoldWithin_self he hp, height]
  | branch path v address entries he hp ih =>
    by_cases hnil : entries = []
    · simp [Value.unfoldWithin_branch he hp, hnil, height]
    · have hne : (entries.map fun entry => (entry.1.unfoldWithin heap (address :: path),
          entry.2.unfoldWithin heap (address :: path))) ≠ [] := by simpa using hnil
      rw [Value.unfoldWithin_branch he hp, height_branch _ hne, opened_branch _ hne,
        List.toFinset_cons, Finset.card_insert_of_notMem, Nat.add_le_add_iff_right,
        heightIn_le_iff]
      · rintro subtrees hsub
        obtain ⟨entry, hentry, rfl⟩ := List.mem_map.mp hsub
        constructor
        · refine (ih entry hentry).1.trans (Finset.card_le_card fun b hb => ?_)
          exact List.mem_toFinset.mpr (mem_openedIn.mpr ⟨_, hsub, .inl (List.mem_toFinset.mp hb)⟩)
        · refine (ih entry hentry).2.trans (Finset.card_le_card fun b hb => ?_)
          exact List.mem_toFinset.mpr (mem_openedIn.mpr ⟨_, hsub, .inr (List.mem_toFinset.mp hb)⟩)
      · rw [List.mem_toFinset, mem_openedIn]
        rintro ⟨subtrees, hsub, h⟩
        obtain ⟨entry, hentry, rfl⟩ := List.mem_map.mp hsub
        have hn : address ∉ address :: path :=
          h.elim (fun h => (not_mem_path_of_mem_opened h).1)
            fun h => (not_mem_path_of_mem_opened h).1
        exact hn (List.mem_cons_self ..)

theorem card_opened_le_length : (v.unfold heap).opened.toFinset.card ≤ heap.length := by
  rw [← List.length_range (n := heap.length), ← List.toFinset_card_of_nodup List.nodup_range]
  apply Finset.card_le_card
  intro b hb
  rw [List.mem_toFinset, List.mem_range]
  exact (not_mem_path_of_mem_opened (List.mem_toFinset.mp hb)).2

end Tree

end Stencil
