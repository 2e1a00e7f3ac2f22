import Stencil.Proofs.Tree.Breaks

/-! # Lines joined

The lines of an indented text can be joined again. A comma before a closing brace is dropped, any
other comma at the end of a line gets a space, and what comes out is the text on one line.
-/

namespace Stencil

/-- The text without its line breaks and the spaces behind them. A comma before a line break is left
out if a closing brace comes next, and gets a space otherwise. What counts is where the commas are in
the given text, so that one that is left out leaves the comma before it alone. -/
def joinLines : List Char → List Char
  | ',' :: '\n' :: s =>
    let next := s.dropWhile (· = ' ')
    if next.head? = some '\x7d' then joinLines next else ',' :: ' ' :: joinLines next
  | '\n' :: s => joinLines (s.dropWhile (· = ' '))
  | c :: s => c :: joinLines s
  | [] => []
  termination_by s => s.length
  decreasing_by
    all_goals
      have := (List.dropWhile_sublist (l := s) (· = ' ')).length_le
      simp only [List.length_cons]
      omega

theorem joinLines_cons {c : Char} {s : List Char} (hc : c ≠ '\n')
    (hs : c = ',' → s.head? ≠ some '\n') : joinLines (c :: s) = c :: joinLines s := by
  rw [joinLines]
  · rintro s' rfl rfl
    exact hs rfl rfl
  · exact fun h => hc h

theorem dropWhile_replicate_append (n : Nat) {s : List Char} (hs : s.head? ≠ some ' ') :
    (List.replicate n ' ' ++ s).dropWhile (· = ' ') = s := by
  rw [List.dropWhile_append_of_pos fun c hc => decide_eq_true (List.eq_of_mem_replicate hc)]
  cases s with
  | nil => rfl
  | cons c s => exact List.dropWhile_cons_of_neg (by simpa using hs)

variable {s t : List Char} {n : Nat}

theorem joinLines_lineBreak (hs : s.head? ≠ some ' ') :
    joinLines ('\n' :: (List.replicate n ' ' ++ s)) = joinLines s := by
  rw [joinLines, dropWhile_replicate_append n hs]

theorem joinLines_between (hs : s.head? ≠ some ' ') (hclose : s.head? ≠ some '\x7d') :
    joinLines (',' :: '\n' :: (List.replicate n ' ' ++ s)) = ',' :: ' ' :: joinLines s := by
  rw [joinLines, dropWhile_replicate_append n hs]
  exact if_neg hclose

theorem joinLines_last :
    joinLines (',' :: '\n' :: (List.replicate n ' ' ++ '\x7d' :: s)) = joinLines ('\x7d' :: s) := by
  rw [joinLines, dropWhile_replicate_append n (by simp)]
  exact if_pos rfl

/-- Neither the spaces of a line nor a closing brace are mixed up with what begins the text. -/
def BeginsLine (s : List Char) : Prop :=
  s ≠ [] ∧ s.head? ≠ some ' ' ∧ s.head? ≠ some '\x7d'

theorem BeginsLine.append (h : BeginsLine s) (t : List Char) : BeginsLine (s ++ t) := by
  obtain ⟨c, s, rfl⟩ := List.exists_cons_of_ne_nil h.1
  exact ⟨List.cons_ne_nil c _, h.2⟩

/-- Joining the lines of the one text gives the other, whatever follows on the same line. -/
def Joins (s joined : List Char) : Prop :=
  ∀ rest : List Char, rest.head? ≠ some '\n' → joinLines (s ++ rest) = joined ++ joinLines rest

namespace Joins

variable {s' t' : List Char}

theorem eq (h : Joins s s') : joinLines s = s' := by
  have := h [] (by simp)
  rwa [List.append_nil, joinLines, List.append_nil] at this

theorem append (hs : Joins s s') (ht : Joins t t') (hhead : t.head? ≠ some '\n') :
    Joins (s ++ t) (s' ++ t') := by
  intro rest hrest
  have hnext : (t ++ rest).head? ≠ some '\n' := by
    cases t with
    | nil => exact hrest
    | cons c t => exact hhead
  rw [List.append_assoc, hs _ hnext, ht _ hrest, List.append_assoc]

theorem cons {c : Char} (hc : c ≠ '\n') (hcomma : c ≠ ',') (hs : Joins s s') :
    Joins (c :: s) (c :: s') := by
  intro rest hrest
  rw [List.cons_append, joinLines_cons hc fun h => (hcomma h).elim, hs _ hrest, List.cons_append]

theorem of_not_mem (h : '\n' ∉ s) : Joins s s := by
  intro rest hrest
  induction s with
  | nil => rfl
  | cons c s ih =>
    obtain ⟨hc, hs⟩ := not_or.mp (mt List.mem_cons.mpr h)
    have hnext : (s ++ rest).head? ≠ some '\n' := by
      cases s with
      | nil => exact hrest
      | cons d s => exact fun hd => hs (by simp_all)
    rw [List.cons_append, joinLines_cons (Ne.symm hc) fun _ => hnext, ih hs, List.cons_append]

theorem lineBreak (hs : Joins s s') (hline : BeginsLine s) :
    Joins ('\n' :: (List.replicate n ' ' ++ s)) s' := by
  intro rest hrest
  rw [List.cons_append, List.append_assoc, joinLines_lineBreak (hline.append rest).2.1, hs _ hrest]

theorem between (hs : Joins s s') (hline : BeginsLine s) :
    Joins (',' :: '\n' :: (List.replicate n ' ' ++ s)) (',' :: ' ' :: s') := by
  intro rest hrest
  obtain ⟨-, hspace, hclose⟩ := hline.append rest
  rw [List.cons_append, List.cons_append, List.append_assoc, joinLines_between hspace hclose,
    hs _ hrest]
  rfl

theorem last (hs : Joins ('\x7d' :: s) s') :
    Joins (',' :: '\n' :: (List.replicate n ' ' ++ '\x7d' :: s)) s' := by
  intro rest hrest
  rw [List.cons_append, List.cons_append, List.append_assoc, List.cons_append, joinLines_last]
  exact hs rest hrest

end Joins

namespace Tree

def string? : Tree → Option (List Char)
  | leaf (.string s) => some s
  | _ => none

theorem string?_eq_some_iff {t : Tree} {s : List Char} :
    t.string? = some s ↔ t = leaf (.string s) := by
  constructor
  · intro h
    unfold string? at h
    split at h <;> cases h
    rfl
  · rintro rfl
    rfl

mutual

def textKeys : Tree → List (List Char)
  | leaf _ | self => []
  | branch _ entries => textKeysIn entries
  termination_by structural t => t

def textKeysIn : List (Tree × Tree) → List (List Char)
  | [] => []
  | (key, value) :: rest => key.string?.toList ++ key.textKeys ++ value.textKeys ++ textKeysIn rest
  termination_by structural entries => entries

end

theorem mem_textKeysIn {entries : List (Tree × Tree)} {s : List Char} :
    s ∈ textKeysIn entries ↔ ∃ entry ∈ entries, entry.1 = leaf (.string s) ∨
      s ∈ entry.1.textKeys ∨ s ∈ entry.2.textKeys := by
  induction entries with
  | nil => simp [textKeysIn]
  | cons entry rest ih => simp [textKeysIn, ih, string?_eq_some_iff, or_assoc]

variable {heap : Heap} (o o' : PrettyOptions) {tag : Nat → List Char}

theorem joins_keyText {key : Tree} {text text' : List Char} (h : Joins text text')
    (hkey : ∀ s, key = leaf (.string s) → '\n' ∉ s) :
    Joins (key.keyText text) (key.keyText text') := by
  unfold keyText
  split
  · next s => exact .of_not_mem (hkey s rfl)
  · exact (h.append (.of_not_mem (by decide)) (by decide)).cons (by decide) (by decide)

theorem joins_entryText {text text' : Tree → List Char} {entry : Tree × Tree}
    (hkey : Joins (text entry.1) (text' entry.1)) (hvalue : Joins (text entry.2) (text' entry.2))
    (hstring : ∀ s, entry.1 = leaf (.string s) → '\n' ∉ s) :
    Joins (entryText text entry) (entryText text' entry) := by
  have hsign : Joins (" = ".toList ++ text entry.2) (" = ".toList ++ text' entry.2) :=
    ((hvalue.cons (by decide) (by decide)).cons (by decide) (by decide)).cons (by decide)
      (by decide)
  unfold entryText
  rw [List.append_assoc, List.append_assoc]
  exact (joins_keyText hkey hstring).append hsign (by simp)

theorem beginsLine_entryText {entry : Tree × Tree} (text : Tree → List Char)
    (hkey : ∀ s, entry.1 = leaf (.string s) → BeginsLine s) :
    BeginsLine (entryText text entry) := by
  unfold entryText keyText
  rw [List.append_assoc]
  split
  · next s hs => exact (hkey s hs).append _
  · exact ⟨List.cons_ne_nil _ _, by simp, by simp⟩

theorem joins_layoutRest (hi : 0 < o.indent) (hi' : o'.indent = 0) {depth depth' : Int}
    {rest : List (Tree × Tree)}
    (h : ∀ entry ∈ rest, Joins (entryText (layout heap tag o.breaks (depth + 1)) entry)
        (entryText (layout heap tag o'.breaks (depth' + 1)) entry) ∧
      BeginsLine (entryText (layout heap tag o.breaks (depth + 1)) entry)) :
    Joins (layoutRest heap tag o.breaks depth rest) (layoutRest heap tag o'.breaks depth' rest) ∧
      (layoutRest heap tag o.breaks depth rest).head? = some ',' := by
  have hbreaks := PrettyOptions.breaks_of_indent_pos hi depth
  have hbreaks' := PrettyOptions.breaks_of_indent_eq_zero hi' depth'
  induction rest with
  | nil =>
    rw [layoutRest, layoutRest, hbreaks, hbreaks']
    exact ⟨.last (.of_not_mem (by decide)), rfl⟩
  | cons entry rest ih =>
    obtain ⟨⟨htext, hline⟩, hrest⟩ := List.forall_mem_cons.mp h
    obtain ⟨hjoins, hhead⟩ := ih hrest
    rw [layoutRest_cons, layoutRest_cons, hbreaks, hbreaks', List.append_assoc, List.append_assoc]
    exact ⟨.between (htext.append hjoins (by simp [hhead])) (hline.append _), rfl⟩

theorem joins_layout (hi : 0 < o.indent) (hi' : o'.indent = 0)
    (htag : ∀ address, '\n' ∉ tag address) {t : Tree} (depth depth' : Int)
    (hleaf : ∀ v ∈ t.leaves, '\n' ∉ v.shown heap) (hkey : ∀ s ∈ t.textKeys, BeginsLine s) :
    Joins (t.layout heap tag o.breaks depth) (t.layout heap tag o'.breaks depth') := by
  induction t using Tree.induct generalizing depth depth' with
  | leaf v => exact .of_not_mem (hleaf v (List.mem_singleton_self v))
  | self => exact .of_not_mem (s := "(self)".toList) (by decide)
  | branch address entries ih =>
    have hentry : ∀ entry ∈ entries,
        Joins (entryText (layout heap tag o.breaks (depth + 1)) entry)
          (entryText (layout heap tag o'.breaks (depth' + 1)) entry) ∧
        BeginsLine (entryText (layout heap tag o.breaks (depth + 1)) entry) := by
      intro entry he
      have hleaves (v : Value) (hv : v ∈ entry.1.leaves ∨ v ∈ entry.2.leaves) :=
        hleaf v (mem_leavesIn.mpr ⟨entry, he, hv⟩)
      have hkeys (s : List Char) (hs : entry.1 = leaf (.string s) ∨ s ∈ entry.1.textKeys ∨
          s ∈ entry.2.textKeys) := hkey s (mem_textKeysIn.mpr ⟨entry, he, hs⟩)
      have hfirst := (ih entry he).1 (depth + 1) (depth' + 1) (fun v hv => hleaves v (.inl hv))
        fun s hs => hkeys s (.inr (.inl hs))
      have hsecond := (ih entry he).2 (depth + 1) (depth' + 1) (fun v hv => hleaves v (.inr hv))
        fun s hs => hkeys s (.inr (.inr hs))
      refine ⟨joins_entryText hfirst hsecond fun s hs => ?_,
        beginsLine_entryText _ fun s hs => hkeys s (.inl hs)⟩
      exact hleaves (.string s) (.inl (hs ▸ List.mem_singleton_self _))
    cases entries with
    | nil => exact .of_not_mem (s := "\x7b\x7d".toList) (by decide)
    | cons entry rest =>
      obtain ⟨⟨htext, hline⟩, hrest⟩ := List.forall_mem_cons.mp hentry
      obtain ⟨hjoins, hhead⟩ := joins_layoutRest o o' hi hi' hrest
      rw [layout_branch, layout_branch, PrettyOptions.breaks_of_indent_pos hi,
        PrettyOptions.breaks_of_indent_eq_zero hi', List.append_assoc, List.append_assoc]
      refine (Joins.of_not_mem (htag address)).append ?_ (by simp)
      apply Joins.cons (by decide) (by decide)
      exact .lineBreak (htext.append hjoins (by simp [hhead])) (hline.append _)

end Tree

/-- The indented text and the text on one line agree. When the lines of the one are joined, it is
the other, unless a text key looks like the beginning of a line to the reader of the lines. -/
theorem Value.pretty_joinLines (heap : Heap) (v : Value) (showIdentity : Bool)
    {indent depth : Int} (hi : 0 < indent) (hd : 0 ≤ depth)
    (hleaf : ∀ u ∈ (v.unfold heap).leaves, ∀ s, u.text heap = .ok s → '\n' ∉ s)
    (hkey : ∀ s ∈ (v.unfold heap).textKeys,
      s ≠ [] ∧ s.head? ≠ some ' ' ∧ s.head? ≠ some '\x7d')
    {text : List Char} (h : v.pretty heap { indent, depth, showIdentity } = .ok text)
    (depth' : Int) :
    v.pretty heap { indent := 0, depth := depth', showIdentity } = .ok (joinLines text) := by
  rw [pretty, printed_eq] at h ⊢
  have hle : ∀ n, 0 ≤ n → 0 ≤ 0 * (depth + n) ∧ 0 * (depth + n) ≤ indent * (depth + n) := by
    intro n hn
    rw [Int.zero_mul]
    exact ⟨Int.le_refl 0, Int.mul_nonneg hi.le (by omega)⟩
  obtain ⟨flat, hflat⟩ :=
    Tree.exists_print_of_le { indent := 0, depth := depth', showIdentity } hle h
  have hdepth : (v.unfold heap).print heap { indent := 0, depth := depth', showIdentity }
      (v.unfold heap).opened depth' = .ok flat :=
    (Tree.print_of_indent_eq_zero _ rfl rfl rfl depth).trans hflat
  have htag := PrettyOptions.newline_not_mem_tagOf { indent, depth, showIdentity } heap
    (v.unfold heap).opened
  have hjoins := Tree.joins_layout { indent, depth, showIdentity }
    { indent := 0, depth := depth', showIdentity } hi rfl htag depth depth'
    (fun u hu => not_mem_shown (hleaf u hu)) hkey
  refine hdepth.trans (congrArg Except.ok ?_)
  rw [Tree.eq_layout_of_print hdepth, Tree.eq_layout_of_print h]
  exact hjoins.eq.symm

/-- A comma at the end of a text is none of the layout. -/
theorem Value.pretty_joinLines_cycle :
    let heap : Heap := [.mapping .dict [(.container 1, .container 0),
      (.string ['k'], .string ['a', ','])], .sequence .tuple [.int 7]]
    let text := "\x7b\n    [\x7b\n      [0] = 7,\n    \x7d] = (self),\n    k = a,,\n  \x7d".toList
    (0 : Int) < 2 ∧ (0 : Int) ≤ 1 ∧
      (∀ u ∈ ((container 0).unfold heap).leaves, ∀ s, u.text heap = .ok s → '\n' ∉ s) ∧
      (∀ s ∈ ((container 0).unfold heap).textKeys,
        s ≠ [] ∧ s.head? ≠ some ' ' ∧ s.head? ≠ some '\x7d') ∧
      (container 0).pretty heap { indent := 2, depth := 1 } = .ok text ∧
      (container 0).pretty heap {} = .ok (joinLines text) := by
  intro heap text
  have ht : (container 0).unfold heap =
      .branch 0 [(.branch 1 [(.leaf (.int 0), .leaf (.int 7))], .self),
        (.leaf (.string ['k']), .leaf (.string ['a', ',']))] := by
    simp [heap, unfold, unfoldWithin, Heap.at, Container.entries?]
  have hleaf : ∀ u ∈ ((container 0).unfold heap).leaves, ∀ s, u.text heap = .ok s → '\n' ∉ s := by
    simp only [ht, Tree.leaves, Tree.leavesIn, List.append_nil, List.cons_append, List.nil_append,
      List.forall_mem_cons, text_int, text_string]
    refine ⟨?_, ?_, ?_, ?_, by simp⟩
    all_goals
      rintro s ⟨⟩
      decide
  have hkey : ∀ s ∈ ((container 0).unfold heap).textKeys,
      s ≠ [] ∧ s.head? ≠ some ' ' ∧ s.head? ≠ some '\x7d' := by
    rw [ht]
    decide
  have hpretty : (container 0).pretty heap { indent := 2, depth := 1 } = .ok text := by
    rw [pretty, printed_eq, ht]
    simp only [Tree.print, Tree.printEntries, text_int]
    decide +kernel
  exact ⟨by decide, by decide, hleaf, hkey, hpretty,
    pretty_joinLines heap (container 0) false (by decide) (by decide) hleaf hkey hpretty 0⟩

end Stencil
