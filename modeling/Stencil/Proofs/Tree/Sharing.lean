import Mathlib.Data.List.Forall2
import Mathlib.Logic.Relation
import Stencil.Tree.Pretty

/-! # Sharing and printing

Two heaps can hold alike values, of which one shares containers that the other has apart. If no
container reaches itself, a container is never met on its own path, whether it is shared or not, and
the values are printed alike.
-/

namespace Stencil

open Relation

/-- All values in a container, with the keys of its entries and the members of a set. -/
def Container.contents : Container → List Value
  | sequence _ items => items
  | mapping _ entries => entries.flatMap fun entry => [entry.1, entry.2]
  | set members => members

def Container.emptied : Container → Container
  | sequence kind _ => sequence kind []
  | mapping kind _ => mapping kind []
  | set _ => set []

namespace Heap

def Holds (heap : Heap) (a b : Nat) : Prop := .container b ∈ (heap.at a).contents

/-- No container reaches itself. -/
def Acyclic (heap : Heap) : Prop := ∀ a, ¬ TransGen heap.Holds a a

/-- If the value is a container, then all containers of the path reach it. -/
def Inside (heap : Heap) (path : List Nat) (v : Value) : Prop :=
  ∀ p ∈ path, ∀ a, v = .container a → TransGen heap.Holds p a

variable {heap : Heap} {path : List Nat} {u : Value} {a : Nat}

theorem Inside.cons (h : heap.Inside path (.container a)) (hu : u ∈ (heap.at a).contents) :
    heap.Inside (a :: path) u := by
  rintro p hp b rfl
  rcases List.mem_cons.mp hp with rfl | hp
  · exact .single hu
  · exact (h p hp a rfl).tail hu

theorem Acyclic.not_mem (h : heap.Acyclic) (hi : heap.Inside path (.container a)) : a ∉ path :=
  fun ha => h a (hi a ha a rfl)

theorem acyclic_of_lt (h : ∀ a b, heap.Holds a b → b < a) : heap.Acyclic := by
  intro a ha
  have hlt : ∀ b, TransGen heap.Holds a b → b < a := by
    intro b hb
    induction hb with
    | single hb => exact h _ _ hb
    | tail _ hc ih => exact Nat.lt_trans (h _ _ hc) ih
  exact Nat.lt_irrefl a (hlt a ha)

end Heap

variable {R S : Value → Value → Prop}

/-- The containers are of one kind, and what they hold is related in turn. -/
def Container.Alike (R : Value → Value → Prop) (c c' : Container) : Prop :=
  c.emptied = c'.emptied ∧ List.Forall₂ R c.contents c'.contents

theorem forall₂_imp_of_mem {α β : Type} {R S : α → β → Prop} {as : List α} {bs : List β}
    (h : List.Forall₂ R as bs) (hS : ∀ a ∈ as, ∀ b ∈ bs, R a b → S a b) : List.Forall₂ S as bs := by
  induction h with
  | nil => exact .nil
  | cons hab _ ih =>
    refine .cons (hS _ (by simp) _ (by simp) hab) (ih fun a ha b hb => ?_)
    exact hS a (List.mem_cons_of_mem _ ha) b (List.mem_cons_of_mem _ hb)

theorem forall₂_entries {entries entries' : List (Value × Value)}
    (h : List.Forall₂ R (entries.flatMap fun entry => [entry.1, entry.2])
      (entries'.flatMap fun entry => [entry.1, entry.2])) :
    List.Forall₂ (fun entry entry' => R entry.1 entry'.1 ∧ R entry.2 entry'.2)
      entries entries' := by
  induction entries generalizing entries' with
  | nil =>
    cases entries' with
    | nil => exact .nil
    | cons entry' rest' => cases h
  | cons entry rest ih =>
    cases entries' with
    | nil => cases h
    | cons entry' rest' =>
      simp only [List.flatMap_cons, List.cons_append, List.nil_append, List.forall₂_cons] at h
      exact .cons ⟨h.1, h.2.1⟩ (ih h.2.2)

theorem forall₂_items {items items' : List Value} (hR : ∀ n, R (.int n) (.int n))
    (h : List.Forall₂ R items items') (start : Nat) :
    List.Forall₂ (fun entry entry' => R entry.1 entry'.1 ∧ R entry.2 entry'.2)
      ((items.zipIdx start).map fun (item, i) => (Value.int i, item))
      ((items'.zipIdx start).map fun (item, i) => (Value.int i, item)) := by
  induction h generalizing start with
  | nil => exact .nil
  | cons hab _ ih => exact .cons ⟨hR _, hab⟩ (ih (start + 1))

theorem mapM_eq_mapM {α β γ : Type} {f : α → Except Failure γ} {g : β → Except Failure γ}
    {as : List α} {bs : List β} (h : List.Forall₂ (fun a b => f a = g b) as bs) :
    as.mapM f = bs.mapM g := by
  induction h with
  | nil => rfl
  | cons hab _ ih => rw [List.mapM_cons, List.mapM_cons, hab, ih]

namespace Container.Alike

variable {c c' : Container}

theorem entries? (h : Alike R c c') (hR : ∀ n, R (.int n) (.int n)) :
    (c.entries? = none ∧ c'.entries? = none) ∨ ∃ entries entries',
      c.entries? = some entries ∧ c'.entries? = some entries' ∧
      List.Forall₂ (fun entry entry' => R entry.1 entry'.1 ∧ R entry.2 entry'.2)
        entries entries' := by
  obtain ⟨he, hc⟩ := h
  cases c <;> cases c' <;> cases he
  · exact .inr ⟨_, _, rfl, rfl, forall₂_items hR hc 0⟩
  · exact .inr ⟨_, _, rfl, rfl, forall₂_entries hc⟩
  · exact .inl ⟨rfl, rfl⟩

theorem literal {f g : Value → Except Failure (List Char)}
    (h : Alike (fun v v' => f v = g v') c c') : c.literal f = c'.literal g := by
  obtain ⟨he, hc⟩ := h
  cases c <;> cases c' <;> cases he
  · exact congrArg (· >>= _) (mapM_eq_mapM hc)
  · refine congrArg (· >>= _) (mapM_eq_mapM ((forall₂_entries hc).imp fun entry entry' h => ?_))
    simp only [h.1, h.2]
  · exact congrArg (· >>= _) (mapM_eq_mapM hc)

theorem withoutProxy (h : Alike R c c') : Alike R c.withoutProxy c'.withoutProxy := by
  obtain ⟨he, hc⟩ := h
  cases c <;> cases c' <;> cases he
  · exact ⟨rfl, hc⟩
  · next kind _ _ =>
    cases kind
    · exact ⟨rfl, hc⟩
    · exact ⟨rfl, hc⟩
  · exact ⟨rfl, hc⟩

end Container.Alike

def Value.IsAtom (v : Value) : Prop := ∀ a, v ≠ .container a

/-- Values that are alike down to the given level, below which there is nothing more. -/
def Value.Alike (heap heap' : Heap) : Nat → Value → Value → Prop
  | 0, v, v' => v.IsAtom ∧ v = v'
  | n + 1, v, v' => (v.IsAtom ∧ v = v') ∨ ∃ a a', v = .container a ∧ v' = .container a' ∧
      (heap.at a).Alike (Value.Alike heap heap' n) (heap'.at a')

variable {heap heap' : Heap} {path path' : List Nat} {v v' : Value} {n : Nat}

theorem Value.Alike.of_isAtom (h : v.IsAtom) : v.Alike heap heap' n v := by
  cases n with
  | zero => exact ⟨h, rfl⟩
  | succ n => exact .inl ⟨h, rfl⟩

structure Matched (heap heap' : Heap) (n : Nat) (path path' : List Nat) (v v' : Value) : Prop where
  alike : Value.Alike heap heap' n v v'
  inside : heap.Inside path v
  inside' : heap'.Inside path' v'

theorem Matched.of_alike (h : Value.Alike heap heap' n v v') : Matched heap heap' n [] [] v v' :=
  ⟨h, by simp [Heap.Inside], by simp [Heap.Inside]⟩

theorem Matched.of_isAtom (h : v.IsAtom) : Matched heap heap' n path path' v v :=
  ⟨.of_isAtom h, fun _ _ a ha => (h a ha).elim, fun _ _ a ha => (h a ha).elim⟩

theorem Value.IsAtom.int (i : Int) : (int i).IsAtom := by
  rintro a ⟨⟩

theorem Matched.cases (ha : heap.Acyclic) (ha' : heap'.Acyclic)
    (h : Matched heap heap' n path path' v v') :
    (v.IsAtom ∧ v = v') ∨ ∃ m a a', n = m + 1 ∧ v = .container a ∧ v' = .container a' ∧
      a ∉ path ∧ a' ∉ path' ∧
      (heap.at a).Alike (Matched heap heap' m (a :: path) (a' :: path')) (heap'.at a') := by
  obtain ⟨halike, hi, hi'⟩ := h
  cases n with
  | zero => exact .inl halike
  | succ n =>
    rcases halike with hatom | ⟨a, a', rfl, rfl, he, hc⟩
    · exact .inl hatom
    · refine .inr ⟨n, a, a', rfl, rfl, rfl, ha.not_mem hi, ha'.not_mem hi', he, ?_⟩
      exact forall₂_imp_of_mem hc fun u hu u' hu' h => ⟨h, hi.cons hu, hi'.cons hu'⟩

section Texts

variable (ha : heap.Acyclic) (ha' : heap'.Acyclic)

theorem Value.IsAtom.literalWithin_eq (h : v.IsAtom) (heap heap' : Heap) (path path' : List Nat) :
    v.literalWithin heap path = v.literalWithin heap' path' := by
  cases v with
  | container a => exact (h a rfl).elim
  | _ => rw [literalWithin, literalWithin]

theorem Value.IsAtom.text_eq (h : v.IsAtom) (heap heap' : Heap) : v.text heap = v.text heap' := by
  cases v with
  | container a => exact (h a rfl).elim
  | string s => rfl
  | object typeName text literal => rfl
  | _ => exact h.literalWithin_eq heap heap' [] []

include ha ha'

theorem Matched.literalWithin_eq (h : Matched heap heap' n path path' v v') :
    v.literalWithin heap path = v'.literalWithin heap' path' := by
  induction n using Nat.strongRecOn generalizing path path' v v' with
  | ind n ih =>
    rcases h.cases ha ha' with ⟨hatom, rfl⟩ | ⟨m, a, a', rfl, rfl, rfl, hp, hp', he, hc⟩
    · exact hatom.literalWithin_eq ..
    · rw [Value.literalWithin_container hp, Value.literalWithin_container hp']
      exact Container.Alike.literal ⟨he, hc.imp fun u u' hu => ih m (Nat.lt_succ_self m) hu⟩

theorem Matched.text_eq (h : Matched heap heap' n path path' v v') :
    v.text heap = v'.text heap' := by
  rcases (of_alike h.alike).cases ha ha' with ⟨hatom, rfl⟩ | ⟨m, a, a', rfl, rfl, rfl, -, -, hc⟩
  · exact hatom.text_eq ..
  · have he := hc.withoutProxy
    exact Container.Alike.literal ⟨he.1, he.2.imp fun u u' hu => hu.literalWithin_eq ha ha'⟩

end Texts

theorem Value.IsAtom.entries?_eq_none (h : v.IsAtom) : v.entries? heap = none := by
  cases v with
  | container a => exact (h a rfl).elim
  | _ => rfl

theorem Value.entries?_container {a : Nat} {entries : List (Value × Value)}
    (h : (heap.at a).entries? = some entries) :
    (container a).entries? heap = some (a, entries) := by
  rw [entries?, h]
  rfl

theorem Value.entries?_container_eq_none {a : Nat} (h : (heap.at a).entries? = none) :
    (container a).entries? heap = none := by
  rw [entries?, h]
  rfl

variable (o : PrettyOptions) (order order' : List Nat)

theorem Matched.keyText_eq (ha : heap.Acyclic) (ha' : heap'.Acyclic)
    (h : Matched heap heap' n path path' v v') :
    (v.unfoldWithin heap path).keyText = (v'.unfoldWithin heap' path').keyText := by
  rcases h.cases ha ha' with ⟨hatom, rfl⟩ | ⟨m, a, a', rfl, rfl, rfl, -⟩
  · rw [Value.unfoldWithin_leaf hatom.entries?_eq_none,
      Value.unfoldWithin_leaf hatom.entries?_eq_none]
  · funext text
    rw [Tree.keyText_unfoldWithin (by simp), Tree.keyText_unfoldWithin (by simp)]

theorem Matched.print_eq (ha : heap.Acyclic) (ha' : heap'.Acyclic) (hid : o.showIdentity = false)
    (h : Matched heap heap' n path path' v v') (depth : Int) :
    (v.unfoldWithin heap path).print heap o order depth =
      (v'.unfoldWithin heap' path').print heap' o order' depth := by
  have htext := h.text_eq ha ha'
  induction n using Nat.strongRecOn generalizing path path' v v' depth with
  | ind n ih =>
    rcases h.cases ha ha' with ⟨hatom, rfl⟩ | ⟨m, a, a', rfl, rfl, rfl, hp, hp', hc⟩
    · rw [Value.unfoldWithin_leaf hatom.entries?_eq_none,
        Value.unfoldWithin_leaf hatom.entries?_eq_none]
      exact htext
    · rcases hc.entries? fun i => Matched.of_isAtom (.int i) with
        ⟨he, he'⟩ | ⟨entries, entries', he, he', hentries⟩
      · rw [Value.unfoldWithin_leaf (Value.entries?_container_eq_none he),
          Value.unfoldWithin_leaf (Value.entries?_container_eq_none he')]
        exact htext
      · rw [Value.unfoldWithin_branch (Value.entries?_container he) hp,
          Value.unfoldWithin_branch (Value.entries?_container he') hp']
        by_cases hnil : entries = []
        · obtain rfl : entries' = [] := by
            rw [hnil] at hentries
            exact List.forall₂_nil_left_iff.mp hentries
          rw [hnil]
          rfl
        · have hnil' : entries' ≠ [] := by
            rintro rfl
            exact hnil (List.forall₂_nil_right_iff.mp hentries)
          have side {u u' : Value} (hu : Matched heap heap' m (a :: path) (a' :: path') u u') :=
            ih m (Nat.lt_succ_self m) hu (depth + 1) (hu.text_eq ha ha')
          rw [Tree.print_branch _ _ _ _ _ (by simpa using hnil),
            Tree.print_branch _ _ _ _ _ (by simpa using hnil'), hid]
          refine bind_congr fun padding => congrArg (· >>= _) ?_
          rw [List.mapM_map, List.mapM_map]
          refine mapM_eq_mapM (hentries.imp fun entry entry' he => ?_)
          simp only [Function.comp_apply, Tree.line, side he.1, side he.2, he.1.keyText_eq ha ha']

/-- Without tags alike values are printed alike, if no container reaches itself. -/
theorem Value.Alike.pretty_eq (ha : heap.Acyclic) (ha' : heap'.Acyclic)
    (hid : o.showIdentity = false) (h : v.Alike heap heap' n v') :
    v.pretty heap o = v'.pretty heap' o := by
  rw [pretty, pretty, printed_eq, printed_eq]
  exact (Matched.of_alike h).print_eq o _ _ ha ha' hid o.depth

end Stencil
