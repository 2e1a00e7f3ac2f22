import Mathlib.Data.List.Perm.Basic
import Stencil.Proofs.Tree.Sharing

/-! # Copies without sharing

A deep copy makes a new container for every place where one is met, so that none of them is referred
to twice. What it holds is copied first, and so new containers hold only older ones.
-/

namespace Stencil

def Container.copyWith (copy : Value → StateM Heap Value) : Container → StateM Heap Container
  | sequence kind items => do return sequence kind (← items.mapM copy)
  | mapping kind entries => do
    return mapping kind (← entries.mapM fun entry => do return (← copy entry.1, ← copy entry.2))
  | set members => do return set (← members.mapM copy)

def allocate (c : Container) : StateM Heap Value :=
  modifyGet fun made => (.container made.length, made ++ [c])

/-- A copy of a value inside the containers on the path. A container inside itself has none, and
nothing stands in its place. -/
def Value.copyWithin (heap : Heap) (path : List Nat) : Value → StateM Heap Value
  | .container address =>
    if hp : address ∈ path then return .null
    else if hl : address < heap.length then
      have := heap.unvisited_cons_lt hl hp
      (heap.at address).copyWith (copyWithin heap (address :: path)) >>= allocate
    else allocate (.sequence .list [])
  | v => return v
  termination_by heap.unvisited path

theorem Value.copyWithin_container {heap : Heap} {path : List Nat} {address : Nat}
    (hp : address ∉ path) :
    (container address).copyWithin heap path =
      (heap.at address).copyWith (copyWithin heap (address :: path)) >>= allocate := by
  rw [copyWithin, dif_neg hp]
  by_cases hl : address < heap.length
  · rw [dif_pos hl]
  · rw [dif_neg hl, Heap.at, List.getElem?_eq_none (Nat.le_of_not_lt hl)]
    rfl

def Value.deepCopy (heap : Heap) (v : Value) : Value × Heap := (v.copyWithin heap []).run []

def Value.address? : Value → Option Nat
  | .container address => some address
  | _ => none

def references (values : List Value) : List Nat := values.filterMap Value.address?

/-- No container is referred to twice, by the value or by the containers of the heap. -/
def Heap.Unshared (heap : Heap) (v : Value) : Prop :=
  (references (heap.flatMap Container.contents ++ [v])).Nodup

def Heap.Ordered (heap : Heap) : Prop := ∀ a b, heap.Holds a b → b < a

theorem mem_references {values : List Value} {a : Nat} :
    a ∈ references values ↔ .container a ∈ values := by
  rw [references, List.mem_filterMap]
  constructor
  · rintro ⟨v, hv, ha⟩
    cases v <;> cases ha
    exact hv
  · intro h
    exact ⟨_, h, rfl⟩

@[simp] theorem references_append (values values' : List Value) :
    references (values ++ values') = references values ++ references values' :=
  List.filterMap_append

/-- The values are copied, with a new container for every reference among the copies and in what is
new, and `n` levels of contents. -/
def Copied (heap : Heap) (n : Nat) (values : List Value) (made : Heap) (copies : List Value)
    (made' : Heap) : Prop :=
  ∃ new, made' = made ++ new ∧
    (∀ more, List.Forall₂ (Value.Alike heap (made' ++ more) n) values copies) ∧
    (references (new.flatMap Container.contents ++ copies)).Perm
      (List.range' made.length new.length) ∧
    (made.Ordered → made'.Ordered)

namespace Copied

variable {heap made made' made'' : Heap} {n : Nat} {values values' copies copies' : List Value}

theorem nil : Copied heap n [] made [] made :=
  ⟨[], by simp, fun _ => .nil, by simp [references], id⟩

theorem atom {v : Value} (h : v.IsAtom) : Copied heap n [v] made [v] made := by
  refine ⟨[], by simp, fun _ => .cons (.of_isAtom h) .nil, ?_, id⟩
  cases v with
  | container a => exact (h a rfl).elim
  | _ => simp [references, Value.address?]

theorem append (h : Copied heap n values made copies made')
    (h' : Copied heap n values' made' copies' made'') :
    Copied heap n (values ++ values') made (copies ++ copies') made'' := by
  obtain ⟨new, rfl, halike, hrefs, hord⟩ := h
  obtain ⟨new', rfl, halike', hrefs', hord'⟩ := h'
  refine ⟨new ++ new', by simp, fun more => ?_, ?_, hord' ∘ hord⟩
  · have := halike (new' ++ more)
    rw [← List.append_assoc] at this
    exact List.rel_append this (halike' more)
  · have h := hrefs.append hrefs'
    rw [List.length_append, List.range'_append_1] at h
    rw [List.length_append]
    refine .trans ?_ h
    simp only [List.flatMap_append, references_append, List.append_assoc]
    exact (List.perm_append_comm_assoc ..).append_left _

theorem mapM {copy : Value → StateM Heap Value} (made : Heap)
    (h : ∀ v ∈ values, ∀ made, Copied heap n [v] made [(copy v made).1] (copy v made).2) :
    Copied heap n values made (values.mapM copy made).1 (values.mapM copy made).2 := by
  induction values generalizing made with
  | nil => exact nil
  | cons v values ih =>
    rw [List.mapM_cons]
    exact (h v (by simp) made).append (ih _ fun u hu => h u (by simp [hu]))

theorem mapM_entries {copy : Value → StateM Heap Value} (made : Heap)
    (entries : List (Value × Value))
    (h : ∀ v ∈ entries.flatMap fun entry => [entry.1, entry.2], ∀ made,
      Copied heap n [v] made [(copy v made).1] (copy v made).2) :
    let (entries', made') := (entries.mapM fun entry =>
      (do return (← copy entry.1, ← copy entry.2) : StateM Heap _)) made
    Copied heap n (entries.flatMap fun entry => [entry.1, entry.2]) made
      (entries'.flatMap fun entry => [entry.1, entry.2]) made' := by
  induction entries generalizing made with
  | nil => exact nil
  | cons entry entries ih =>
    rw [List.mapM_cons]
    have hk := h entry.1 (by simp) made
    have hv := h entry.2 (by simp) (copy entry.1 made).2
    exact (hk.append hv).append (ih _ fun u hu => h u (by simp_all))

theorem copyWith {copy : Value → StateM Heap Value} (made : Heap) (c : Container)
    (h : ∀ v ∈ c.contents, ∀ made, Copied heap n [v] made [(copy v made).1] (copy v made).2) :
    c.emptied = (c.copyWith copy made).1.emptied ∧
    Copied heap n c.contents made (c.copyWith copy made).1.contents (c.copyWith copy made).2 := by
  cases c with
  | sequence kind items => exact ⟨rfl, mapM made h⟩
  | mapping kind entries => exact ⟨rfl, mapM_entries made entries h⟩
  | set members => exact ⟨rfl, mapM made h⟩

theorem at_append_length (made more : Heap) (c : Container) :
    Heap.at (made ++ [c] ++ more) made.length = c := by
  simp [Heap.at]

theorem allocate {a : Nat} {c : Container} (he : (heap.at a).emptied = c.emptied)
    (h : Copied heap n (heap.at a).contents made c.contents made') :
    Copied heap (n + 1) [.container a] made [.container made'.length] (made' ++ [c]) := by
  obtain ⟨new, rfl, halike, hrefs, hord⟩ := h
  refine ⟨new ++ [c], by simp, fun more => ?_, ?_, fun hmade => ?_⟩
  · refine .cons (.inr ⟨a, _, rfl, rfl, ?_⟩) .nil
    rw [at_append_length]
    refine ⟨he, ?_⟩
    simpa using halike ([c] ++ more)
  · have hlast : references [.container (made ++ new).length] = [made.length + new.length] := by
      rw [List.length_append]
      rfl
    rw [List.flatMap_append, List.flatMap_singleton, references_append, hlast, List.length_append,
      List.length_singleton, List.range'_1_concat]
    exact hrefs.append_right _
  · -- What the new container holds was copied just now, and so is in front of it.
    have hnew {b : Nat} (hb : b ∈ references c.contents) : b < (made ++ new).length := by
      have := hrefs.mem_iff.mp (by rw [references_append]; exact List.mem_append_right _ hb)
      rw [List.length_append]
      exact (List.mem_range'_1.mp this).2
    intro a b hb
    rw [Heap.Holds, Heap.at] at hb
    rcases Nat.lt_trichotomy a (made ++ new).length with ha | rfl | ha
    · rw [List.getElem?_append_left ha] at hb
      exact hord hmade a b hb
    · rw [List.getElem?_concat_length] at hb
      exact hnew (mem_references.mpr hb)
    · rw [List.getElem?_eq_none (by rw [List.length_append]; exact ha)] at hb
      exact (List.not_mem_nil hb).elim

end Copied

section

variable {heap : Heap} (ha : heap.Acyclic)

include ha

theorem Value.copied_copyWithin {n : Nat} {path : List Nat} {v : Value}
    (hn : heap.unvisited path < n) (hi : heap.Inside path v) (made : Heap) :
    Copied heap n [v] made [(v.copyWithin heap path made).1] (v.copyWithin heap path made).2 := by
  induction n generalizing path v made with
  | zero => cases hn
  | succ n ih =>
    cases v with
    | container a =>
      have hp := ha.not_mem hi
      rw [copyWithin_container hp]
      have hcontents : ∀ u ∈ (heap.at a).contents, ∀ made,
          Copied heap n [u] made [(u.copyWithin heap (a :: path) made).1]
            (u.copyWithin heap (a :: path) made).2 := by
        intro u hu made
        by_cases hl : a < heap.length
        · have := heap.unvisited_cons_lt hl hp
          exact ih (by omega) (hi.cons hu) made
        · rw [Heap.at, List.getElem?_eq_none (Nat.le_of_not_lt hl)] at hu
          exact (List.not_mem_nil hu).elim
      obtain ⟨he, hc⟩ := Copied.copyWith made (heap.at a) hcontents
      exact .allocate he hc
    | _ =>
      rw [copyWithin]
      · exact .atom (by simp [IsAtom])
      · simp

/-- A copy is alike, refers to nothing twice, and reaches nothing from itself. -/
theorem Value.deepCopy_spec (v : Value) :
    (∃ n, v.Alike heap (v.deepCopy heap).2 n (v.deepCopy heap).1) ∧
      (v.deepCopy heap).2.Unshared (v.deepCopy heap).1 ∧ (v.deepCopy heap).2.Acyclic := by
  obtain ⟨new, hnew, halike, hrefs, hord⟩ :=
    copied_copyWithin ha (v := v) (Nat.lt_succ_self (heap.unvisited [])) (by simp [Heap.Inside]) []
  refine ⟨⟨heap.unvisited [] + 1, ?_⟩, ?_, ?_⟩
  · have := halike []
    rw [List.append_nil] at this
    exact (List.forall₂_cons.mp this).1
  · rw [List.nil_append] at hnew
    subst hnew
    exact hrefs.nodup_iff.mpr List.nodup_range'
  · refine Heap.acyclic_of_lt (hord ?_)
    intro a b hb
    simp [Heap.Holds, Heap.at, Container.contents] at hb

end

end Stencil
