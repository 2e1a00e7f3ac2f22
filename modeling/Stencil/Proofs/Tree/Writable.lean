import Stencil.Proofs.Field.Canonical
import Stencil.Proofs.Tree.Limits
import Stencil.Proofs.Tree.Sharing

/-! # Values that can be written

A value has a text if none of its integers has too many digits, whatever holds them. The same goes
for its tree, which shows no other integers but the indices of sequences.
-/

namespace Stencil

namespace Value

/-- The integer is the value or lies in it. A range holds its bounds and its step. -/
inductive HoldsInt (heap : Heap) : Value → Int → Prop
  | int (n : Int) : HoldsInt heap (.int n) n
  | range {start stop step n : Int} (h : n ∈ [start, stop, step]) :
    HoldsInt heap (.range start stop step) n
  | inside {address : Nat} {v : Value} {n : Int} (hv : v ∈ (heap.at address).contents)
    (h : HoldsInt heap v n) : HoldsInt heap (.container address) n

/-- No integer in the value has too many digits. -/
def IsWritable (heap : Heap) (v : Value) : Prop := ∀ n, v.HoldsInt heap n → Readable n.natAbs

variable {heap : Heap}

theorem isWritable_int {n : Int} : (int n).IsWritable heap ↔ Readable n.natAbs := by
  constructor
  · exact fun h => h n (.int n)
  · rintro h m ⟨⟩
    exact h

theorem isWritable_container {address : Nat} : (container address).IsWritable heap ↔
    ∀ v ∈ (heap.at address).contents, v.IsWritable heap := by
  constructor
  · exact fun h v hv n hn => h n (.inside hv hn)
  · intro h n hn
    cases hn with
    | inside hv hn => exact h _ hv n hn

end Value

theorem decimalText_eq_ok {n : Int} (h : Readable n.natAbs) : decimalText n = .ok (intText n) :=
  if_pos (DigitRun.fits_ofNat h)

theorem decimalText_eq_error {n : Int} (h : ¬ Readable n.natAbs) :
    decimalText n = .error (.exceeded .digits) :=
  if_neg fun hl => h ((Nat.length_toDigits_le_iff (by decide) (by decide)).mp hl)

theorem exists_rangeText_eq_ok {start stop step : Int}
    (h : ∀ n ∈ [start, stop, step], Readable n.natAbs) :
    ∃ s, rangeText start stop step = .ok s := by
  have hmapM (ns : List Int) (hns : ns ⊆ [start, stop, step]) :
      ∃ texts, ns.mapM decimalText = .ok texts :=
    exists_mapM_eq_ok fun n hn => ⟨_, decimalText_eq_ok (h n (hns hn))⟩
  obtain ⟨bounds, hbounds⟩ := hmapM [start, stop] (by simp)
  obtain ⟨steps, hsteps⟩ := hmapM [step] (by simp)
  rw [rangeText, hbounds, hsteps]
  split <;> exact ⟨_, rfl⟩

theorem Container.exists_literal_eq_ok {inner : Value → Except Failure (List Char)} {c : Container}
    (h : ∀ v ∈ c.contents, ∃ s, inner v = .ok s) : ∃ s, c.literal inner = .ok s := by
  cases c with
  | sequence kind items =>
    obtain ⟨parts, hparts : items.mapM inner = .ok parts⟩ := exists_mapM_eq_ok h
    exact ⟨_, by rw [literal, hparts]; rfl⟩
  | mapping kind entries =>
    have hentry : ∀ entry ∈ entries, ∃ s, (do
        let key ← inner entry.1
        return key ++ ": ".toList ++ (← inner entry.2) : Except Failure (List Char)) = .ok s := by
      intro entry hentry
      obtain ⟨key, hkey⟩ := h entry.1 (List.mem_flatMap.mpr ⟨entry, hentry, by simp⟩)
      obtain ⟨value, hvalue⟩ := h entry.2 (List.mem_flatMap.mpr ⟨entry, hentry, by simp⟩)
      exact ⟨_, by rw [hkey, hvalue]; rfl⟩
    obtain ⟨parts, hparts⟩ := exists_mapM_eq_ok hentry
    exact ⟨_, by rw [literal, hparts]; rfl⟩
  | set members =>
    obtain ⟨parts, hparts : members.mapM inner = .ok parts⟩ := exists_mapM_eq_ok h
    exact ⟨_, by rw [literal, hparts]; rfl⟩

@[simp] theorem Container.contents_withoutProxy (c : Container) :
    c.withoutProxy.contents = c.contents := by
  rcases c with - | ⟨- | -, -⟩ | - <;> rfl

namespace Value.IsWritable

variable {heap : Heap} {v : Value}

theorem exists_literalWithin_eq_ok (h : v.IsWritable heap) (path : List Nat) :
    ∃ s, v.literalWithin heap path = .ok s := by
  induction hn : heap.unvisited path using Nat.strongRecOn generalizing path v with
  | ind n ih =>
    cases v with
    | container address =>
      by_cases hp : address ∈ path
      · rw [literalWithin, dif_pos hp]
        exact ⟨_, rfl⟩
      · by_cases hl : address < heap.length
        · have hlt := heap.unvisited_cons_lt hl hp
          rw [literalWithin_container hp]
          apply Container.exists_literal_eq_ok
          exact fun u hu => ih _ (hn ▸ hlt) (isWritable_container.mp h u hu) _ rfl
        · rw [literalWithin, dif_neg hp, dif_neg hl]
          exact ⟨_, rfl⟩
    | int n =>
      rw [literalWithin]
      exact ⟨_, decimalText_eq_ok (isWritable_int.mp h)⟩
    | range start stop step =>
      rw [literalWithin]
      exact exists_rangeText_eq_ok fun n hn => h n (.range hn)
    | _ =>
      rw [literalWithin]
      exact ⟨_, rfl⟩

theorem exists_literal_eq_ok (h : v.IsWritable heap) : ∃ s, v.literal heap = .ok s :=
  h.exists_literalWithin_eq_ok []

theorem exists_text_eq_ok (h : v.IsWritable heap) : ∃ s, v.text heap = .ok s := by
  cases v with
  | string s => exact ⟨_, rfl⟩
  | object typeName text literal => exact ⟨_, rfl⟩
  | container address =>
    refine Container.exists_literal_eq_ok fun u hu => ?_
    rw [Container.contents_withoutProxy] at hu
    exact (isWritable_container.mp h u hu).exists_literalWithin_eq_ok _
  | _ => exact h.exists_literal_eq_ok

end Value.IsWritable

/-- No container is so long that an index in it has too many digits. None is in a store whose
addresses are machine words. -/
def Heap.IsWritable (heap : Heap) : Prop := ∀ c ∈ heap, c.contents.length ≤ 10 ^ digitLimit

theorem Heap.IsWritable.at {heap : Heap} (h : heap.IsWritable) (address : Nat) :
    (heap.at address).contents.length ≤ 10 ^ digitLimit := by
  rw [Heap.at]
  cases hc : heap[address]? with
  | none => exact Nat.zero_le _
  | some c => exact h c (List.mem_of_getElem? hc)

namespace Value.IsWritable

variable {heap : Heap} {v : Value} {o : PrettyOptions}

theorem of_entries {address : Nat} {entries : List (Value × Value)} (hheap : heap.IsWritable)
    (h : v.IsWritable heap) (he : v.entries? heap = some (address, entries)) :
    ∀ entry ∈ entries, entry.1.IsWritable heap ∧ entry.2.IsWritable heap := by
  cases v with
  | container a =>
    obtain ⟨es, hes, hpair⟩ := Option.map_eq_some_iff.mp he
    cases hpair
    have hlength := hheap.at address
    have hinside := isWritable_container.mp h
    cases hc : heap.at address with
    | sequence kind items =>
      rw [hc] at hes hlength hinside
      cases hes
      intro entry hentry
      obtain ⟨⟨item, i⟩, hitem, rfl⟩ := List.mem_map.mp hentry
      have hi : i < items.length := List.snd_lt_of_mem_zipIdx hitem
      refine ⟨isWritable_int.mpr ?_, hinside item (List.fst_mem_of_mem_zipIdx hitem)⟩
      rw [Int.natAbs_natCast]
      exact Nat.lt_of_lt_of_le hi hlength
    | mapping kind es =>
      rw [hc] at hes hinside
      cases hes
      intro entry hentry
      exact ⟨hinside _ (List.mem_flatMap.mpr ⟨entry, hentry, by simp⟩),
        hinside _ (List.mem_flatMap.mpr ⟨entry, hentry, by simp⟩)⟩
    | set members =>
      rw [hc] at hes
      cases hes
  | _ => cases he

theorem exists_text_of_mem_leaves (hheap : heap.IsWritable) (h : v.IsWritable heap)
    (path : List Nat) :
    ∀ u ∈ (v.unfoldWithin heap path).leaves, ∃ s, u.text heap = .ok s := by
  induction path, v using @Value.unfoldWithin_induct heap with
  | leaf path v he =>
    rw [Value.unfoldWithin_leaf he]
    intro u hu
    obtain rfl := List.mem_singleton.mp hu
    exact h.exists_text_eq_ok
  | self path v address entries he hp =>
    rw [Value.unfoldWithin_self he hp]
    rintro u ⟨⟩
  | branch path v address entries he hp ih =>
    rw [Value.unfoldWithin_branch he hp]
    intro u hu
    obtain ⟨entry, hentry, hu⟩ := Tree.mem_leavesIn.mp hu
    obtain ⟨entry, hmem, rfl⟩ := List.mem_map.mp hentry
    obtain ⟨hkey, hvalue⟩ := of_entries hheap h he entry hmem
    exact hu.elim ((ih entry hmem).1 hkey u) ((ih entry hmem).2 hvalue u)

theorem exists_pretty_eq_ok (hheap : heap.IsWritable) (h : v.IsWritable heap) (hi : 0 ≤ o.indent)
    (hd : 0 ≤ o.depth) (hr : o.indent * (o.depth + (v.unfold heap).height) ≤ repetitionLimit) :
    ∃ s, v.pretty heap o = .ok s := by
  rw [pretty, printed_eq]
  exact Tree.exists_print_eq_ok _ hi _ hd (h.exists_text_of_mem_leaves hheap []) hr

end Value.IsWritable

end Stencil
