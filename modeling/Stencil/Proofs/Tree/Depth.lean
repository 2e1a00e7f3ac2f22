import Stencil.Proofs.Tree.Breaks

/-! # Starting depth

A container that is printed from a deeper level has all its lines but the first further to the
right, and is the same otherwise. On one line there is no difference at all.
-/

namespace Stencil

/-- The text with spaces put in behind every line break. -/
def indentLines (n : Nat) (s : List Char) : List Char :=
  s.flatMap fun c => if c = '\n' then c :: List.replicate n ' ' else [c]

section Lines

variable {n : Nat} {s t : List Char}

theorem indentLines_append : indentLines n (s ++ t) = indentLines n s ++ indentLines n t :=
  List.flatMap_append

theorem indentLines_newline : indentLines n ('\n' :: s) =
    '\n' :: (List.replicate n ' ' ++ indentLines n s) := rfl

theorem indentLines_cons {c : Char} (hc : c ≠ '\n') :
    indentLines n (c :: s) = c :: indentLines n s := by
  rw [indentLines, List.flatMap_cons, if_neg hc]
  rfl

theorem indentLines_of_not_mem (h : '\n' ∉ s) : indentLines n s = s := by
  induction s with
  | nil => rfl
  | cons c s ih =>
    obtain ⟨hc, hs⟩ := not_or.mp (mt List.mem_cons.mpr h)
    rw [indentLines_cons (Ne.symm hc), ih hs]

theorem indentLines_lineBreak (m : Nat) :
    indentLines n ('\n' :: List.replicate m ' ') = '\n' :: List.replicate (m + n) ' ' := by
  rw [indentLines_newline, indentLines_of_not_mem (by simp), List.replicate_append_replicate,
    Nat.add_comm]

end Lines

theorem PrettyOptions.breaks_add {o : PrettyOptions} (hi : 0 < o.indent) {depth further : Int}
    (hd : 0 ≤ depth) (hf : 0 ≤ further) :
    let n := (o.indent * further).toNat
    (o.breaks (depth + further)).first = indentLines n (o.breaks depth).first ∧
      (o.breaks (depth + further)).between = indentLines n (o.breaks depth).between ∧
      (o.breaks (depth + further)).last = indentLines n (o.breaks depth).last := by
  intro n
  have hadd {d : Int} (hd : 0 ≤ d) :
      (o.indent * (d + further)).toNat = (o.indent * d).toNat + n := by
    rw [Int.mul_add, Int.toNat_add (Int.mul_nonneg hi.le hd) (Int.mul_nonneg hi.le hf)]
  have hinner : (o.indent * (depth + further + 1)).toNat = (o.indent * (depth + 1)).toNat + n := by
    rw [Int.add_right_comm, hadd (by omega)]
  have hcomma : ',' ≠ '\n' := by decide
  simp only [breaks_of_indent_pos hi, indentLines_cons hcomma, indentLines_lineBreak, hinner, hadd hd,
    and_self]

namespace Tree

theorem indentLines_keyText {n : Nat} {key : Tree} (hkey : ∀ s, key = leaf (.string s) → '\n' ∉ s)
    (text : List Char) :
    indentLines n (key.keyText text) = key.keyText (indentLines n text) := by
  unfold keyText
  split
  · next s => exact indentLines_of_not_mem (hkey s rfl)
  · rw [indentLines_append, indentLines_cons (by decide)]
    rfl

theorem indentLines_entryText {n : Nat} {text text' : Tree → List Char} {entry : Tree × Tree}
    (hkey : indentLines n (text entry.1) = text' entry.1)
    (hvalue : indentLines n (text entry.2) = text' entry.2)
    (hstring : ∀ s, entry.1 = leaf (.string s) → '\n' ∉ s) :
    indentLines n (entryText text entry) = entryText text' entry := by
  have hsign : indentLines n " = ".toList = " = ".toList := indentLines_of_not_mem (by decide)
  rw [entryText, indentLines_append, indentLines_append, indentLines_keyText hstring, hkey, hvalue,
    hsign, entryText]

variable {heap : Heap} {o : PrettyOptions} {tag : Nat → List Char}

theorem indentLines_layoutRest (hi : 0 < o.indent) {further depth : Int} (hf : 0 ≤ further)
    (hd : 0 ≤ depth) {rest : List (Tree × Tree)}
    (h : ∀ entry ∈ rest, indentLines (o.indent * further).toNat
      (entryText (layout heap tag o.breaks (depth + 1)) entry) =
        entryText (layout heap tag o.breaks (depth + further + 1)) entry) :
    indentLines (o.indent * further).toNat (layoutRest heap tag o.breaks depth rest) =
      layoutRest heap tag o.breaks (depth + further) rest := by
  obtain ⟨-, hbetween, hlast⟩ := PrettyOptions.breaks_add hi hd hf
  induction rest with
  | nil =>
    rw [layoutRest, indentLines_append, ← hlast]
    rfl
  | cons entry rest ih =>
    obtain ⟨hentry, hrest⟩ := List.forall_mem_cons.mp h
    rw [layoutRest_cons, layoutRest_cons, indentLines_append, indentLines_append, hentry, ih hrest,
      hbetween]

theorem indentLines_layout (hi : 0 < o.indent) (htag : ∀ address, '\n' ∉ tag address)
    {further : Int} (hf : 0 ≤ further) {t : Tree} {depth : Int} (hd : 0 ≤ depth)
    (hleaf : ∀ v ∈ t.leaves, '\n' ∉ v.shown heap) :
    indentLines (o.indent * further).toNat (t.layout heap tag o.breaks depth) =
      t.layout heap tag o.breaks (depth + further) := by
  induction t using Tree.induct generalizing depth with
  | leaf v => exact indentLines_of_not_mem (hleaf v (List.mem_singleton_self v))
  | self => exact indentLines_of_not_mem (s := "(self)".toList) (by decide)
  | branch address entries ih =>
    have hentry : ∀ entry ∈ entries, indentLines (o.indent * further).toNat
        (entryText (layout heap tag o.breaks (depth + 1)) entry) =
          entryText (layout heap tag o.breaks (depth + further + 1)) entry := by
      intro entry he
      have hleaves (v : Value) (hv : v ∈ entry.1.leaves ∨ v ∈ entry.2.leaves) :=
        hleaf v (mem_leavesIn.mpr ⟨entry, he, hv⟩)
      have hnext : 0 ≤ depth + 1 := by omega
      have hkey := (ih entry he).1 hnext fun v hv => hleaves v (.inl hv)
      have hvalue := (ih entry he).2 hnext fun v hv => hleaves v (.inr hv)
      rw [Int.add_right_comm] at hkey hvalue
      refine indentLines_entryText hkey hvalue fun s hs => ?_
      exact hleaves (.string s) (.inl (hs ▸ List.mem_singleton_self _))
    cases entries with
    | nil => exact indentLines_of_not_mem (s := "\x7b\x7d".toList) (by decide)
    | cons entry rest =>
      obtain ⟨hfirst, hrest⟩ := List.forall_mem_cons.mp hentry
      rw [layout_branch, layout_branch, indentLines_append, indentLines_cons (by decide),
        indentLines_append, indentLines_append, indentLines_of_not_mem (htag address),
        (PrettyOptions.breaks_add hi hd hf).1, hfirst, indentLines_layoutRest hi hf hd hrest]

end Tree

/-- The starting depth is nothing but a shift of the lines. On one line it has no effect. -/
theorem Value.pretty_depth (heap : Heap) (v : Value) (showIdentity : Bool) :
    (∀ depth, v.pretty heap { indent := 0, depth, showIdentity } =
      v.pretty heap { indent := 0, depth := 0, showIdentity }) ∧
    ∀ indent depth text, 0 < indent → 0 ≤ depth →
      (∀ u ∈ (v.unfold heap).leaves, ∀ s, u.text heap = .ok s → '\n' ∉ s) →
      v.pretty heap { indent, depth, showIdentity } = .ok text →
      ∃ unshifted, v.pretty heap { indent, depth := 0, showIdentity } = .ok unshifted ∧
        text = indentLines (indent * depth).toNat unshifted := by
  constructor
  · intro depth
    rw [pretty, pretty, printed_eq, printed_eq]
    apply Tree.print_of_indent_eq_zero { showIdentity } <;> rfl
  · intro indent depth text hi hd hleaf h
    rw [pretty, printed_eq] at h
    have hle : ∀ n, 0 ≤ n → 0 ≤ indent * (0 + n) ∧ indent * (0 + n) ≤ indent * (depth + n) := by
      intro n hn
      rw [Int.zero_add]
      exact ⟨Int.mul_nonneg hi.le hn, Int.mul_le_mul_of_nonneg_left (by omega) hi.le⟩
    obtain ⟨unshifted, hunshifted⟩ :=
      Tree.exists_print_of_le { indent, depth := 0, showIdentity } hle h
    refine ⟨unshifted, ?_, ?_⟩
    · rw [pretty, printed_eq]
      exact hunshifted
    · rw [Tree.eq_layout_of_print h, Tree.eq_layout_of_print hunshifted]
      have htag := PrettyOptions.newline_not_mem_tagOf { indent, depth, showIdentity } heap
        (v.unfold heap).opened
      have hshift := Tree.indentLines_layout (o := { indent, depth, showIdentity }) hi htag hd
        (Int.le_refl 0) fun u hu => not_mem_shown (hleaf u hu)
      rw [Int.zero_add] at hshift
      exact hshift.symm

/-- A dictionary on the second level, under a tuple that is its key. -/
theorem Value.pretty_depth_cycle :
    let heap : Heap :=
      [.mapping .dict [(.container 1, .container 0)], .sequence .tuple [.int 7]]
    let text :=
      "dict: 0x<1> \x7b\n    [tuple: 0x<2> \x7b\n      [0] = 7,\n    \x7d] = (self),\n  \x7d".toList
    (0 : Int) < 2 ∧ (0 : Int) ≤ 1 ∧
      (∀ u ∈ ((container 0).unfold heap).leaves, ∀ s, u.text heap = .ok s → '\n' ∉ s) ∧
      (container 0).pretty heap { indent := 2, depth := 1, showIdentity := true } = .ok text ∧
      ∃ unshifted,
        (container 0).pretty heap { indent := 2, depth := 0, showIdentity := true } =
          .ok unshifted ∧ text = indentLines 2 unshifted := by
  intro heap text
  have ht : (container 0).unfold heap =
      .branch 0 [(.branch 1 [(.leaf (.int 0), .leaf (.int 7))], .self)] := by
    simp [heap, unfold, unfoldWithin, Heap.at, Container.entries?]
  have hleaf : ∀ u ∈ ((container 0).unfold heap).leaves, ∀ s, u.text heap = .ok s → '\n' ∉ s := by
    simp only [ht, Tree.leaves, Tree.leavesIn, List.append_nil, List.cons_append, List.nil_append,
      List.forall_mem_cons, text_int]
    refine ⟨?_, ?_, by simp⟩
    · rintro s ⟨⟩
      decide
    · rintro s ⟨⟩
      decide
  have hpretty :
      (container 0).pretty heap { indent := 2, depth := 1, showIdentity := true } = .ok text := by
    rw [pretty, printed_eq, ht]
    simp only [Tree.print, Tree.printEntries, text_int]
    decide +kernel
  exact ⟨by decide, by decide, hleaf, hpretty,
    (pretty_depth heap (container 0) true).2 2 1 text (by decide) (by decide) hleaf hpretty⟩

end Stencil
