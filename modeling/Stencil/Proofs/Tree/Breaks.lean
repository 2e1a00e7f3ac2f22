import Stencil.Proofs.Tree.Limits
import Stencil.Proofs.Tree.Sharing

/-! # Breaks in a printed tree

A printed tree is made of texts and of breaks, which stand behind the opening brace of a container,
between its entries and before its closing brace. The indentation and the level show in the breaks
alone.
-/

namespace Stencil

structure Breaks where
  first : List Char
  between : List Char
  last : List Char

/-- The breaks in a container on a level. -/
def PrettyOptions.breaks (o : PrettyOptions) (depth : Int) : Breaks :=
  let inner := List.replicate (o.indent * (depth + 1)).toNat ' '
  let outer := List.replicate (o.indent * depth).toNat ' '
  if 0 < o.indent then ⟨'\n' :: inner, ',' :: '\n' :: inner, ',' :: '\n' :: outer⟩
  else ⟨inner, ',' :: ' ' :: inner, outer⟩

theorem PrettyOptions.breaks_of_indent_pos {o : PrettyOptions} (h : 0 < o.indent) (depth : Int) :
    o.breaks depth = ⟨'\n' :: List.replicate (o.indent * (depth + 1)).toNat ' ',
      ',' :: '\n' :: List.replicate (o.indent * (depth + 1)).toNat ' ',
      ',' :: '\n' :: List.replicate (o.indent * depth).toNat ' '⟩ :=
  if_pos h

theorem PrettyOptions.breaks_of_indent_eq_zero {o : PrettyOptions} (h : o.indent = 0)
    (depth : Int) : o.breaks depth = ⟨[], ", ".toList, []⟩ := by
  simp [breaks, h]

def PrettyOptions.tagOf (o : PrettyOptions) (heap : Heap) (order : List Nat) (address : Nat) :
    List Char :=
  if o.showIdentity then tag heap order address else []

theorem Container.newline_not_mem_typeName (c : Container) : '\n' ∉ c.typeName := by
  have hsequence (kind : SequenceKind) : '\n' ∉ kind.name := by cases kind <;> decide
  have hmapping (kind : MappingKind) : '\n' ∉ kind.name := by cases kind <;> decide
  have hset : '\n' ∉ "set".toList := by decide
  rcases c with ⟨kind, -⟩ | ⟨kind, -⟩ | -
  · exact hsequence kind
  · exact hmapping kind
  · exact hset

theorem PrettyOptions.newline_not_mem_tagOf (o : PrettyOptions) (heap : Heap) (order : List Nat)
    (address : Nat) : '\n' ∉ o.tagOf heap order address := by
  have hnumber (n : Nat) : '\n' ∉ natText n := by
    intro h
    cases Nat.isDigit_of_mem_toDigits (by decide) (by decide) h
  unfold tagOf tag
  split
  · simp [Container.newline_not_mem_typeName, hnumber]
  · exact List.not_mem_nil

@[simp] theorem Value.text_string (heap : Heap) (s : List Char) : (string s).text heap = .ok s :=
  rfl

@[simp] theorem Value.text_int (heap : Heap) (n : Int) : (int n).text heap = decimalText n := by
  simp only [text, literal, literalWithin]

def Value.shown (heap : Heap) (v : Value) : List Char := (v.text heap).toOption.getD []

theorem Value.shown_of_text {heap : Heap} {v : Value} {s : List Char} (h : v.text heap = .ok s) :
    v.shown heap = s := by
  rw [shown, h]
  rfl

theorem Value.not_mem_shown {heap : Heap} {v : Value} {c : Char}
    (h : ∀ s, v.text heap = .ok s → c ∉ s) : c ∉ v.shown heap := by
  unfold shown
  cases ht : v.text heap with
  | error e => exact List.not_mem_nil
  | ok s => exact h s ht

theorem eq_replicate_of_spaces {n : Int} {s : List Char} (h : spaces n = .ok s) :
    s = List.replicate n.toNat ' ' := by
  unfold spaces at h
  split at h
  · cases h
  · unfold repeated at h
    split at h
    · cases h
      exact List.flatten_replicate_singleton
    · cases h

theorem le_limit_of_spaces {n : Int} {s : List Char} (h : spaces n = .ok s) :
    n ≤ repetitionLimit := by
  unfold spaces at h
  split at h
  · cases h
  · unfold repeated at h
    split at h
    · omega
    · cases h

theorem PrettyOptions.enclose_eq (o : PrettyOptions) (depth : Int) (head l : List Char)
    (ls : List (List Char)) :
    let padding := List.replicate (o.indent * (depth + 1)).toNat ' '
    let closing := List.replicate (o.indent * depth).toNat ' '
    o.enclose head closing ((padding ++ l) :: ls.map (padding ++ ·)) =
      head ++ '\x7b' :: ((o.breaks depth).first ++ l ++
        (ls.flatMap ((o.breaks depth).between ++ ·) ++ ((o.breaks depth).last ++ ['\x7d']))) := by
  intro padding closing
  unfold enclose breaks
  split <;> simp [intercalate_cons, List.flatMap_map, padding, closing]

namespace Tree

def entryText (text : Tree → List Char) (entry : Tree × Tree) : List Char :=
  entry.1.keyText (text entry.1) ++ " = ".toList ++ text entry.2

section Layout

variable (heap : Heap) (tag : Nat → List Char) (breaks : Int → Breaks)

mutual

/-- The text of a tree on a level, with the given tags and breaks. -/
def layout (depth : Int) : Tree → List Char
  | leaf v => v.shown heap
  | self => "(self)".toList
  | branch _ [] => "\x7b\x7d".toList
  | branch address ((key, value) :: rest) =>
    tag address ++ '\x7b' :: ((breaks depth).first ++
      (key.keyText (layout (depth + 1) key) ++ " = ".toList ++ layout (depth + 1) value) ++
      layoutRest depth rest)
  termination_by structural t => t

def layoutRest (depth : Int) : List (Tree × Tree) → List Char
  | [] => (breaks depth).last ++ ['\x7d']
  | (key, value) :: rest =>
    (breaks depth).between ++
      (key.keyText (layout (depth + 1) key) ++ " = ".toList ++ layout (depth + 1) value) ++
      layoutRest depth rest
  termination_by structural entries => entries

end

theorem layout_branch (depth : Int) (address : Nat) (entry : Tree × Tree)
    (rest : List (Tree × Tree)) :
    (branch address (entry :: rest)).layout heap tag breaks depth =
      tag address ++ '\x7b' :: ((breaks depth).first ++
        entryText (layout heap tag breaks (depth + 1)) entry ++
        layoutRest heap tag breaks depth rest) := rfl

theorem layoutRest_cons (depth : Int) (entry : Tree × Tree) (rest : List (Tree × Tree)) :
    layoutRest heap tag breaks depth (entry :: rest) =
      (breaks depth).between ++ entryText (layout heap tag breaks (depth + 1)) entry ++
        layoutRest heap tag breaks depth rest := rfl

theorem layoutRest_eq (depth : Int) (entries : List (Tree × Tree)) :
    layoutRest heap tag breaks depth entries =
      (entries.map (entryText (layout heap tag breaks (depth + 1)))).flatMap
        ((breaks depth).between ++ ·) ++ ((breaks depth).last ++ ['\x7d']) := by
  induction entries with
  | nil => rfl
  | cons entry rest ih =>
    simp only [layoutRest_cons, ih, List.map_cons, List.flatMap_cons, List.append_assoc]

end Layout

section Print

variable {heap : Heap} {o : PrettyOptions} {order : List Nat} {depth : Int} {s : List Char}

theorem line_eq_ok_iff {padding : List Char} {text : Tree → Except Failure (List Char)}
    {entry : Tree × Tree} : line padding text entry = .ok s ↔ ∃ key value,
      text entry.1 = .ok key ∧ text entry.2 = .ok value ∧
      s = padding ++ (entry.1.keyText key ++ " = ".toList ++ value) := by
  unfold line
  cases text entry.1 with
  | error e => simp [bind, Except.bind]
  | ok key =>
    cases text entry.2 with
    | error e => simp [bind, Except.bind]
    | ok value => simp [bind, Except.bind, pure, Except.pure, eq_comm]

theorem print_branch_eq_ok_iff {address : Nat} {entries : List (Tree × Tree)} (h : entries ≠ []) :
    (branch address entries).print heap o order depth = .ok s ↔ ∃ padding lines closing,
      spaces (o.indent * (depth + 1)) = .ok padding ∧
      entries.mapM (line padding (print heap o order (depth + 1))) = .ok lines ∧
      spaces (o.indent * depth) = .ok closing ∧
      o.enclose (o.tagOf heap order address) closing lines = s := by
  rw [print_branch _ _ _ _ _ h]
  simp only [bind_eq_ok_iff, pure, Except.pure, Except.ok.injEq, PrettyOptions.tagOf]
  constructor
  · rintro ⟨padding, hp, lines, hl, closing, hc, hs⟩
    exact ⟨padding, lines, closing, hp, hl, hc, hs⟩
  · rintro ⟨padding, lines, closing, hp, hl, hc, hs⟩
    exact ⟨padding, hp, lines, hl, closing, hc, hs⟩

/-- What is printed is the layout with the breaks that the options call for. -/
theorem eq_layout_of_print {t : Tree} (h : t.print heap o order depth = .ok s) :
    s = t.layout heap (o.tagOf heap order) o.breaks depth := by
  induction t using Tree.induct generalizing depth s with
  | leaf v => exact (Value.shown_of_text h).symm
  | self => cases h; rfl
  | branch address entries ih =>
    cases entries with
    | nil => cases h; rfl
    | cons entry rest =>
      obtain ⟨padding, lines, closing, hp, hl, hc, rfl⟩ :=
        (print_branch_eq_ok_iff (List.cons_ne_nil entry rest)).mp h
      let text := entryText (layout heap (o.tagOf heap order) o.breaks (depth + 1))
      have hline : ∀ e ∈ entry :: rest, ∀ l,
          line padding (print heap o order (depth + 1)) e = .ok l → l = padding ++ text e := by
        intro e he l hl
        obtain ⟨key, value, hkey, hvalue, rfl⟩ := line_eq_ok_iff.mp hl
        simp only [text, entryText, ← (ih e he).1 hkey, ← (ih e he).2 hvalue]
      have hlines : lines = (padding ++ text entry) :: (rest.map text).map (padding ++ ·) := by
        rw [eq_map_of_mapM_eq_ok hl hline, List.map_cons, List.map_map]
        rfl
      rw [hlines, eq_replicate_of_spaces hp, eq_replicate_of_spaces hc, layout_branch, layoutRest_eq]
      exact o.enclose_eq depth _ _ _

theorem exists_text_of_print {t : Tree} (h : t.print heap o order depth = .ok s) :
    ∀ v ∈ t.leaves, ∃ s, v.text heap = .ok s := by
  induction t using Tree.induct generalizing depth s with
  | leaf v =>
    intro u hu
    exact ⟨s, List.mem_singleton.mp hu ▸ h⟩
  | self => exact fun u hu => (List.not_mem_nil hu).elim
  | branch address entries ih =>
    by_cases hnil : entries = []
    · rw [hnil]
      exact fun u hu => (List.not_mem_nil hu).elim
    · obtain ⟨padding, lines, closing, -, hl, -⟩ := (print_branch_eq_ok_iff hnil).mp h
      intro u hu
      obtain ⟨entry, he, hu⟩ := mem_leavesIn.mp hu
      obtain ⟨l, hline⟩ := exists_of_mapM_eq_ok hl entry he
      obtain ⟨key, value, hkey, hvalue, -⟩ := line_eq_ok_iff.mp hline
      exact hu.elim ((ih entry he).1 hkey u) ((ih entry he).2 hvalue u)

theorem exists_print_of_le {t : Tree} (o' : PrettyOptions) {depth' : Int}
    (hle : ∀ n, 0 ≤ n → 0 ≤ o'.indent * (depth' + n) ∧
      o'.indent * (depth' + n) ≤ o.indent * (depth + n))
    (h : t.print heap o order depth = .ok s) :
    ∃ s, t.print heap o' order depth' = .ok s := by
  induction t using Tree.induct generalizing depth depth' s with
  | leaf v => exact ⟨s, h⟩
  | self => exact ⟨_, rfl⟩
  | branch address entries ih =>
    by_cases hnil : entries = []
    · rw [hnil]
      exact ⟨_, rfl⟩
    · obtain ⟨padding, lines, closing, hp, hl, hc, -⟩ := (print_branch_eq_ok_iff hnil).mp h
      have hnext : ∀ n, 0 ≤ n → 0 ≤ o'.indent * (depth' + 1 + n) ∧
          o'.indent * (depth' + 1 + n) ≤ o.indent * (depth + 1 + n) := by
        intro n hn
        rw [Int.add_assoc, Int.add_assoc]
        exact hle (1 + n) (by omega)
      have hspaces {m n : Int} {s : List Char} (h : spaces m = .ok s) (hn : 0 ≤ n ∧ n ≤ m) :
          ∃ s, spaces n = .ok s :=
        exists_spaces_eq_ok hn.1 (Int.le_trans hn.2 (le_limit_of_spaces h))
      obtain ⟨padding', hp'⟩ := hspaces hp (hle 1 (by decide))
      obtain ⟨closing', hc'⟩ := hspaces hc (by simpa using hle 0 (by decide))
      have hlines : ∃ lines, entries.mapM (line padding' (print heap o' order (depth' + 1))) =
          .ok lines := by
        apply exists_mapM_eq_ok
        intro entry he
        obtain ⟨l, hline⟩ := exists_of_mapM_eq_ok hl entry he
        obtain ⟨key, value, hkey, hvalue, -⟩ := line_eq_ok_iff.mp hline
        obtain ⟨key', hkey'⟩ := (ih entry he).1 hnext hkey
        obtain ⟨value', hvalue'⟩ := (ih entry he).2 hnext hvalue
        exact ⟨_, line_eq_ok_iff.mpr ⟨key', value', hkey', hvalue', rfl⟩⟩
      obtain ⟨lines', hl'⟩ := hlines
      exact ⟨_, (print_branch_eq_ok_iff hnil).mpr ⟨_, _, _, hp', hl', hc', rfl⟩⟩

theorem print_of_indent_eq_zero {t : Tree} (o' : PrettyOptions) (hi : o.indent = 0)
    (hi' : o'.indent = 0) (hid : o.showIdentity = o'.showIdentity) (depth' : Int) :
    t.print heap o order depth = t.print heap o' order depth' := by
  induction t using Tree.induct generalizing depth depth' with
  | leaf v => rfl
  | self => rfl
  | branch address entries ih =>
    by_cases hnil : entries = []
    · rw [hnil]
      rfl
    · have hlines (padding : List Char) :
          entries.mapM (line padding (print heap o order (depth + 1))) =
            entries.mapM (line padding (print heap o' order (depth' + 1))) := by
        refine mapM_eq_mapM (List.forall₂_same.mpr fun entry he => ?_)
        rw [line, line, (ih entry he).1 (depth' + 1), (ih entry he).2 (depth' + 1)]
      have henclose : o.enclose = o'.enclose := by
        funext head closing lines
        rw [PrettyOptions.enclose, PrettyOptions.enclose, hi, hi']
      rw [print_branch _ _ _ _ _ hnil, print_branch _ _ _ _ _ hnil]
      simp only [hlines, henclose, hid, hi, hi', Int.zero_mul]

end Print

end Tree

end Stencil
