import Stencil.Proofs.Tree.Breaks
import Stencil.Proofs.Tree.Copy

/-! # Printing a heap

The pass over a value ends with the text of the tree that the value unfolds to. Whether containers
are shared or not makes no difference to it, unless one of them reaches itself.
-/

namespace Stencil

/-- The pass ends with the text of the unfolded tree, entry for entry, with the breaks that the
options call for and on request a tag before every container that is opened. The tree has the places
of the walks that lead through no container twice, it is cut exactly where a container is met again
on the way to it, and so it has no more levels than containers. If no container reaches itself, then
a copy in which nothing is shared has the same text. -/
theorem Value.pretty_prints_unfolding (heap : Heap) (v : Value) (o : PrettyOptions)
    (hi : 0 ≤ o.indent) (hd : 0 ≤ o.depth)
    (hdigits : ∀ u ∈ (v.unfold heap).leaves, u.text heap ≠ .error (.exceeded .digits))
    (hroom : o.indent * (o.depth + (v.unfold heap).height) ≤ repetitionLimit) :
    ∃ text, v.pretty heap o = .ok text ∧
      (printValue heap o (v.unfold heap).opened [] o.depth v).run ⟨[], rfl⟩ =
        .ok (text, ⟨[], rfl⟩) ∧
      (v.unfold heap).print heap o (v.unfold heap).opened o.depth = .ok text ∧
      text = (v.unfold heap).layout heap (fun address =>
        if o.showIdentity then (heap.at address).typeName ++ ": 0x<".toList ++
          natText ((v.unfold heap).opened.eraseDups.idxOf address + 1) ++ "> ".toList
        else []) o.breaks o.depth ∧
      (∀ steps, ((v.unfold heap).at? steps).isSome ↔
        ∃ passed u, v.walk heap [] steps = some (passed, u) ∧ passed.Nodup) ∧
      (∀ steps t passed u, (v.unfold heap).at? steps = some t →
        v.walk heap [] steps = some (passed, u) → t.Shows heap passed u) ∧
      (v.unfold heap).height ≤ (v.unfold heap).opened.toFinset.card ∧
      (v.unfold heap).opened.toFinset.card ≤ heap.length ∧
      (heap.Acyclic → o.showIdentity = false →
        (∃ n, v.Alike heap (v.deepCopy heap).2 n (v.deepCopy heap).1) ∧
        (v.deepCopy heap).2.Unshared (v.deepCopy heap).1 ∧
        (v.deepCopy heap).1.pretty (v.deepCopy heap).2 o = .ok text) := by
  have hleaf : ∀ u ∈ (v.unfold heap).leaves, ∃ s, u.text heap = .ok s := by
    intro u hu
    cases ht : u.text heap with
    | ok s => exact ⟨s, rfl⟩
    | error e =>
      have he : e = .exceeded .digits := u.text_failsOnly heap e ht
      exact (hdigits u hu (by rw [ht, he])).elim
  obtain ⟨text, ht⟩ := Tree.exists_print_eq_ok (v.unfold heap).opened hi _ hd hleaf hroom
  have hpretty : v.pretty heap o = .ok text := by rw [pretty, printed_eq, ht]
  refine ⟨text, hpretty, ?_, ht, Tree.eq_layout_of_print ht, fun steps => Tree.isSome_at?_unfold_iff,
    fun steps t passed u => Tree.shows_of_at?_unfold, Tree.height_le_card_opened,
    Tree.card_opened_le_length, fun ha hid => ?_⟩
  · have hrun := printValue_ends heap o (v.unfold heap).opened [] o.depth v ⟨[], rfl⟩
    rw [← unfold, ht] at hrun
    exact hrun
  · obtain ⟨⟨n, halike⟩, hunshared, ha'⟩ := v.deepCopy_spec ha
    refine ⟨⟨n, halike⟩, hunshared, ?_⟩
    rw [← halike.pretty_eq o ha ha' hid, hpretty]

/-- A dictionary holds itself under a tuple, and the tuple again under a name. -/
theorem Value.pretty_prints_cycle :
    let heap : Heap := [.mapping .dict [(.container 1, .container 0),
      (.string ['k'], .container 1)], .sequence .tuple [.int 7]]
    let o : PrettyOptions := { indent := 2 }
    let t := (container 0).unfold heap
    0 ≤ o.indent ∧ 0 ≤ o.depth ∧ (∀ u ∈ t.leaves, u.text heap ≠ .error (.exceeded .digits)) ∧
      o.indent * (o.depth + t.height) ≤ repetitionLimit ∧
      (container 0).pretty heap o = .ok ("\x7b\n" ++
        "  [\x7b\n    [0] = 7,\n  \x7d] = (self),\n" ++
        "  k = \x7b\n    [0] = 7,\n  \x7d,\n" ++
        "\x7d").toList := by
  intro heap o t
  have ht : t = .branch 0 [(.branch 1 [(.leaf (.int 0), .leaf (.int 7))], .self),
      (.leaf (.string ['k']), .branch 1 [(.leaf (.int 0), .leaf (.int 7))])] := by
    simp [t, heap, unfold, unfoldWithin, Heap.at, Container.entries?]
  have h0 : (int 0).text heap = .ok ['0'] := (text_int heap 0).trans rfl
  have h7 : (int 7).text heap = .ok ['7'] := (text_int heap 7).trans rfl
  have hi : 0 ≤ o.indent := by decide
  have hd : 0 ≤ o.depth := by decide
  have hdigits : ∀ u ∈ t.leaves, u.text heap ≠ .error (.exceeded .digits) := by
    rw [ht]
    simp [Tree.leaves, Tree.leavesIn, h0, h7]
  have hroom : o.indent * (o.depth + t.height) ≤ repetitionLimit := by
    rw [ht]
    decide
  obtain ⟨text, h, -, -, hlayout, -⟩ :=
    pretty_prints_unfolding heap (container 0) o hi hd hdigits hroom
  refine ⟨hi, hd, hdigits, hroom, h.trans (congrArg _ (hlayout.trans ?_))⟩
  rw [show (container 0).unfold heap = _ from ht]
  simp [Tree.layout, Tree.layoutRest, Tree.keyText, shown_of_text h0, shown_of_text h7]
  decide

end Stencil
