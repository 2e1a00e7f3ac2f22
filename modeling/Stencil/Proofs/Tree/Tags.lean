import Stencil.Proofs.Tree.Breaks

/-! # Identity tags

The text with tags is the text without, with a tag put in before each brace that opens a container
with entries. The containers are opened in the order of the tags, and a container has one number
wherever it is opened.
-/

namespace Stencil

/-- The brace begins a container with entries, as nothing stands between the braces of an empty one.
-/
def Opens (c : Char) (s : List Char) : Prop := c = '\x7b' ∧ s.head? ≠ some '\x7d'

instance (c : Char) (s : List Char) : Decidable (Opens c s) :=
  inferInstanceAs (Decidable (c = '\x7b' ∧ s.head? ≠ some '\x7d'))

/-- The text with one tag after the other directly before the braces of containers with entries. -/
def insertTags : List (List Char) → List Char → List Char
  | _, [] => []
  | tags, c :: s =>
    if Opens c s then tags.headD [] ++ c :: insertTags tags.tail s else c :: insertTags tags s

def openings : List Char → List (List Char)
  | [] => []
  | c :: s => if Opens c s then (c :: s) :: openings s else openings s

theorem insertTags_cons {c : Char} {s : List Char} (h : ¬ Opens c s) (tags : List (List Char)) :
    insertTags tags (c :: s) = c :: insertTags tags s :=
  if_neg h

theorem openings_cons {c : Char} {s : List Char} (h : ¬ Opens c s) :
    openings (c :: s) = openings s :=
  if_neg h

/-- The second text is the first one with the tags of the containers that it opens in this order,
whatever follows. Each of them is shown from its brace on. -/
structure Tagged (shows : List Char → Nat → Prop) (tag : Nat → List Char)
    (plain tagged : List Char) (opened : List Nat) : Prop where
  insert : ∀ tags rest,
    insertTags (opened.map tag ++ tags) (plain ++ rest) = tagged ++ insertTags tags rest
  openings : ∀ rest, ∃ texts, openings (plain ++ rest) = texts ++ openings rest ∧
    List.Forall₂ shows texts opened

namespace Tagged

variable {shows : List Char → Nat → Prop} {tag : Nat → List Char} {s s' t t' : List Char}
  {opened opened' : List Nat}

theorem nil : Tagged shows tag [] [] [] where
  insert _ _ := rfl
  openings _ := ⟨[], rfl, .nil⟩

theorem cons {c : Char} (hc : ∀ rest, ¬ Opens c (s ++ rest)) (h : Tagged shows tag s s' opened) :
    Tagged shows tag (c :: s) (c :: s') opened where
  insert tags rest := by
    rw [List.cons_append, insertTags_cons (hc rest), h.insert]
    rfl
  openings rest := by
    rw [List.cons_append, openings_cons (hc rest)]
    exact h.openings rest

theorem of_not_mem (h : '\x7b' ∉ s) : Tagged shows tag s s [] := by
  induction s with
  | nil => exact nil
  | cons c s ih =>
    obtain ⟨hc, hs⟩ := not_or.mp (mt List.mem_cons.mpr h)
    exact (ih hs).cons fun rest ho => hc ho.1.symm

theorem append (h : Tagged shows tag s s' opened) (h' : Tagged shows tag t t' opened') :
    Tagged shows tag (s ++ t) (s' ++ t') (opened ++ opened') where
  insert tags rest := by
    rw [List.map_append, List.append_assoc, List.append_assoc, h.insert, h'.insert,
      List.append_assoc]
  openings rest := by
    obtain ⟨texts, htexts, hshows⟩ := h.openings (t ++ rest)
    obtain ⟨texts', htexts', hshows'⟩ := h'.openings rest
    refine ⟨texts ++ texts', ?_, List.rel_append hshows hshows'⟩
    rw [List.append_assoc, htexts, htexts', List.append_assoc]

theorem opening {address : Nat} (hs : ∀ rest, (s ++ rest).head? ≠ some '\x7d')
    (hshows : ∀ rest, shows ('\x7b' :: (s ++ rest)) address) (h : Tagged shows tag s s' opened) :
    Tagged shows tag ('\x7b' :: s) (tag address ++ '\x7b' :: s') (address :: opened) where
  insert tags rest := by
    have ho : Opens '\x7b' (s ++ rest) := ⟨rfl, hs rest⟩
    rw [List.cons_append, insertTags, if_pos ho, List.append_assoc, List.cons_append, ← h.insert]
    rfl
  openings rest := by
    have ho : Opens '\x7b' (s ++ rest) := ⟨rfl, hs rest⟩
    obtain ⟨texts, htexts, hforall⟩ := h.openings rest
    refine ⟨('\x7b' :: (s ++ rest)) :: texts, ?_, .cons (hshows rest) hforall⟩
    rw [List.cons_append, Stencil.openings, if_pos ho, htexts]
    rfl

theorem empty : Tagged shows tag "\x7b\x7d".toList "\x7b\x7d".toList [] := by
  have hclosing : Tagged shows tag ['\x7d'] ['\x7d'] [] := of_not_mem (by decide)
  exact hclosing.cons fun rest ho => ho.2 rfl

theorem eq (h : Tagged shows tag s s' opened) : insertTags (opened.map tag) s = s' := by
  have hinsert := h.insert [] []
  rwa [List.append_nil, List.append_nil, insertTags, List.append_nil] at hinsert

theorem forall₂ (h : Tagged shows tag s s' opened) :
    List.Forall₂ shows (Stencil.openings s) opened := by
  obtain ⟨texts, htexts, hforall⟩ := h.openings []
  rw [List.append_nil, Stencil.openings, List.append_nil] at htexts
  rwa [htexts]

end Tagged

theorem PrettyOptions.mem_breaks (o : PrettyOptions) (depth : Int) :
    let b := o.breaks depth
    ∀ c ∈ b.first ++ b.between ++ b.last, c ∈ " ,\n".toList := by
  unfold breaks
  split
  all_goals
    simp only [List.forall_mem_append, List.forall_mem_cons]
    simp +contextual [List.mem_replicate]

theorem PrettyOptions.tagOf_of_plain {o : PrettyOptions} (h : o.showIdentity = false) (heap : Heap)
    (order : List Nat) : o.tagOf heap order = fun _ => [] := by
  funext address
  rw [tagOf, h]
  rfl

theorem Value.eq_container_of_entries? {heap : Heap} {v : Value} {address : Nat}
    {entries : List (Value × Value)} (h : v.entries? heap = some (address, entries)) :
    v = container address := by
  cases v with
  | container a =>
    obtain ⟨_, -, heq⟩ := Option.map_eq_some_iff.mp h
    rw [(Prod.mk.inj heq).1]
  | _ => cases h

namespace Tree

variable {heap : Heap} {shows : List Char → Nat → Prop} {tag : Nat → List Char}
  {o : PrettyOptions} {order : List Nat} {depth : Int}

theorem head?_entryText_append {text : Tree → List Char} {entry : Tree × Tree}
    (hkey : ∀ s, entry.1 = leaf (.string s) → '\x7d' ∉ s) (rest : List Char) :
    (entryText text entry ++ rest).head? ≠ some '\x7d' := by
  unfold entryText keyText
  split
  · next s hs =>
    have hclear := hkey s hs
    cases s with
    | nil => simp
    | cons c s =>
      rintro ⟨⟩
      exact hclear (List.mem_cons_self ..)
  · simp

theorem tagged_keyText {key : Tree} {text text' : List Char}
    (h : Tagged shows tag text text' key.opened)
    (hkey : ∀ s, key = leaf (.string s) → '\x7b' ∉ s) :
    Tagged shows tag (key.keyText text) (key.keyText text') key.opened := by
  have hopening : Tagged shows tag ['['] ['['] [] := .of_not_mem (by decide)
  have hclosing : Tagged shows tag [']'] [']'] [] := .of_not_mem (by decide)
  unfold keyText
  split
  · next s => exact .of_not_mem (hkey s rfl)
  · have hkey := (hopening.append h).append hclosing
    rwa [List.append_nil] at hkey

theorem tagged_entryText {text text' : Tree → List Char} {entry : Tree × Tree}
    (hkey : Tagged shows tag (text entry.1) (text' entry.1) entry.1.opened)
    (hvalue : Tagged shows tag (text entry.2) (text' entry.2) entry.2.opened)
    (hstring : ∀ s, entry.1 = leaf (.string s) → '\x7b' ∉ s) :
    Tagged shows tag (entryText text entry) (entryText text' entry)
      (entry.1.opened ++ entry.2.opened) := by
  have hsign : Tagged shows tag " = ".toList " = ".toList [] := .of_not_mem (by decide)
  have hentry := ((tagged_keyText hkey hstring).append hsign).append hvalue
  rwa [List.append_nil] at hentry

theorem tagged_layoutRest {rest : List (Tree × Tree)}
    (h : ∀ entry ∈ rest, Tagged shows tag
      (entryText (layout heap (fun _ => []) o.breaks (depth + 1)) entry)
      (entryText (layout heap tag o.breaks (depth + 1)) entry)
      (entry.1.opened ++ entry.2.opened)) :
    Tagged shows tag (layoutRest heap (fun _ => []) o.breaks depth rest)
      (layoutRest heap tag o.breaks depth rest) (openedIn rest) := by
  have hbreaks := o.mem_breaks depth
  simp only [List.forall_mem_append] at hbreaks
  obtain ⟨⟨-, hbetween⟩, hlast⟩ := hbreaks
  have hbrace : '\x7b' ∉ " ,\n".toList := by decide
  induction rest with
  | nil =>
    refine .of_not_mem fun hmem => ?_
    rcases List.mem_append.mp hmem with hmem | hmem
    · exact hbrace (hlast _ hmem)
    · exact absurd hmem (by decide)
  | cons entry rest ih =>
    obtain ⟨hentry, hrest⟩ := List.forall_mem_cons.mp h
    have hbreak : Tagged shows tag (o.breaks depth).between (o.breaks depth).between [] :=
      .of_not_mem fun hmem => hbrace (hbetween _ hmem)
    exact (hbreak.append hentry).append (ih hrest)

theorem tagged_layout_branch {address : Nat} {entries : List (Tree × Tree)}
    (hentries : ∀ entry ∈ entries, Tagged shows tag
      (entryText (layout heap (fun _ => []) o.breaks (depth + 1)) entry)
      (entryText (layout heap tag o.breaks (depth + 1)) entry)
      (entry.1.opened ++ entry.2.opened) ∧ ∀ s, entry.1 = leaf (.string s) → '\x7d' ∉ s)
    (hshows : ∀ rest, shows
      ((branch address entries).layout heap (fun _ => []) o.breaks depth ++ rest) address) :
    Tagged shows tag ((branch address entries).layout heap (fun _ => []) o.breaks depth)
      ((branch address entries).layout heap tag o.breaks depth)
      (branch address entries).opened := by
  cases entries with
  | nil => exact .empty
  | cons entry rest =>
    obtain ⟨⟨hentry, hstring⟩, hrest⟩ := List.forall_mem_cons.mp hentries
    have hbreaks := o.mem_breaks depth
    simp only [List.forall_mem_append] at hbreaks
    obtain ⟨⟨hfirst, -⟩, -⟩ := hbreaks
    have hbreak : Tagged shows tag (o.breaks depth).first (o.breaks depth).first [] :=
      .of_not_mem fun hmem => absurd (hfirst _ hmem) (by decide)
    have hbody := (hbreak.append hentry).append (tagged_layoutRest fun e he => (hrest e he).1)
    apply hbody.opening
    · intro s
      cases hf : (o.breaks depth).first with
      | nil =>
        rw [List.nil_append, List.append_assoc]
        exact head?_entryText_append hstring _
      | cons c f =>
        rintro ⟨⟩
        exact absurd (hfirst '\x7d' (by rw [hf]; exact List.mem_cons_self ..)) (by decide)
    · exact hshows

def ShowsContainer (heap : Heap) (o : PrettyOptions) (order : List Nat) (text : List Char)
    (address : Nat) : Prop :=
  ∃ path depth s, ((Value.container address).unfoldWithin heap path).print heap o order depth =
    .ok s ∧ s <+: text

/-- Without tags and with them a tree has texts of which the second is the first one with the tags
of the containers in their order. -/
theorem tagged_layout (hid : o.showIdentity = false) {path : List Nat} {v : Value} {s : List Char}
    (hprint : (v.unfoldWithin heap path).print heap o order depth = .ok s)
    (hclear : ∀ u ∈ (v.unfoldWithin heap path).leaves,
      '\x7b' ∉ u.shown heap ∧ '\x7d' ∉ u.shown heap) :
    Tagged (ShowsContainer heap o order) tag
      ((v.unfoldWithin heap path).layout heap (fun _ => []) o.breaks depth)
      ((v.unfoldWithin heap path).layout heap tag o.breaks depth)
      (v.unfoldWithin heap path).opened := by
  induction path, v using @Value.unfoldWithin_induct heap generalizing depth s with
  | leaf path v he =>
    rw [Value.unfoldWithin_leaf he] at hclear ⊢
    exact .of_not_mem (hclear v (List.mem_singleton_self v)).1
  | self path v address entries he hp =>
    rw [Value.unfoldWithin_self he hp]
    exact .of_not_mem (s := "(self)".toList) (by decide)
  | branch path v address entries he hp ih =>
    obtain rfl := Value.eq_container_of_entries? he
    have hshown := eq_layout_of_print hprint
    rw [PrettyOptions.tagOf_of_plain hid] at hshown
    have hcontainer := hprint
    rw [Value.unfoldWithin_branch he hp] at hprint hclear hshown ⊢
    refine tagged_layout_branch (fun subtrees hsub => ?_) fun rest =>
      ⟨path, depth, s, hcontainer, rest, congrArg (· ++ rest) hshown⟩
    have hclear (u : Value) (hu : u ∈ subtrees.1.leaves ∨ u ∈ subtrees.2.leaves) :=
      hclear u (mem_leavesIn.mpr ⟨subtrees, hsub, hu⟩)
    have hstring (s : List Char) (hs : subtrees.1 = leaf (.string s)) :=
      hclear (.string s) (.inl (hs ▸ List.mem_singleton_self _))
    obtain ⟨_, lines, _, -, hlines, -⟩ :=
      (print_branch_eq_ok_iff (List.ne_nil_of_mem hsub)).mp hprint
    obtain ⟨_, hline⟩ := exists_of_mapM_eq_ok hlines subtrees hsub
    obtain ⟨key, value, hkey, hvalue, -⟩ := line_eq_ok_iff.mp hline
    obtain ⟨entry, hmem, rfl⟩ := List.mem_map.mp hsub
    constructor
    · apply tagged_entryText _ _ fun s hs => (hstring s hs).1
      · exact (ih entry hmem).1 hkey fun u hu => hclear u (.inl hu)
      · exact (ih entry hmem).2 hvalue fun u hu => hclear u (.inr hu)
    · exact fun s hs => (hstring s hs).2

end Tree

/-- Identity tags add identity and nothing else. The text with tags is the text without, with a tag
before each brace that opens a container with entries. The tag has the type of the container that is
shown from there on, and a number that no other container has. -/
theorem Value.pretty_insertTags (heap : Heap) (v : Value) {indent depth : Int} (hi : 0 ≤ indent)
    (hd : 0 ≤ depth)
    (hleaf : ∀ u ∈ (v.unfold heap).leaves, ∀ s, u.text heap = .ok s →
      '\x7b' ∉ s ∧ '\x7d' ∉ s) :
    let plain := v.pretty heap { indent, depth }
    let tagged := v.pretty heap { indent, depth, showIdentity := true }
    let opened := (v.unfold heap).opened
    ((∃ text, plain = .ok text) ↔ ∃ text, tagged = .ok text) ∧
    ∀ text, plain = .ok text → ∃ number : Nat → Nat,
      (∀ a ∈ opened, ∀ b ∈ opened, number a = number b ↔ a = b) ∧
      tagged = .ok (insertTags (opened.map fun a => (heap.at a).typeName ++ ": 0x<".toList ++
        natText (number a) ++ "> ".toList) text) ∧
      List.Forall₂ (Tree.ShowsContainer heap { indent, depth } opened) (openings text) opened := by
  intro plain tagged opened
  have hrange (n : Int) (hn : 0 ≤ n) :
      0 ≤ indent * (depth + n) ∧ indent * (depth + n) ≤ indent * (depth + n) :=
    ⟨Int.mul_nonneg hi (by omega), Int.le_refl _⟩
  have hplain : plain = (v.unfold heap).print heap { indent, depth } opened depth :=
    printed_eq heap _ _ v
  have htagged : tagged =
      (v.unfold heap).print heap { indent, depth, showIdentity := true } opened depth :=
    printed_eq heap _ _ v
  rw [hplain, htagged]
  constructor
  · constructor
    · rintro ⟨text, h⟩
      exact Tree.exists_print_of_le { indent, depth, showIdentity := true } hrange h
    · rintro ⟨text, h⟩
      exact Tree.exists_print_of_le { indent, depth } hrange h
  · intro text h
    obtain ⟨text', h'⟩ := Tree.exists_print_of_le { indent, depth, showIdentity := true } hrange h
    have hlayout : Tagged (Tree.ShowsContainer heap { indent, depth } opened) (tag heap opened) text
        ((v.unfold heap).layout heap (tag heap opened) (PrettyOptions.breaks { indent, depth })
          depth) opened := by
      rw [Tree.eq_layout_of_print h, PrettyOptions.tagOf_of_plain rfl]
      exact Tree.tagged_layout rfl h fun u hu => ⟨not_mem_shown fun s hs => (hleaf u hu s hs).1,
        not_mem_shown fun s hs => (hleaf u hu s hs).2⟩
    refine ⟨fun a => opened.eraseDups.idxOf a + 1, fun a ha b hb => ?_, ?_, ?_⟩
    · rw [Nat.add_right_cancel_iff, List.idxOf_inj (List.mem_eraseDups.mpr ha)]
    · rw [h', Tree.eq_layout_of_print h']
      exact congrArg Except.ok hlayout.eq.symm
    · exact hlayout.forall₂

/-- A tuple is opened twice, as a key and as a value, and an empty list and a cycle have no tags. -/
theorem Value.pretty_insertTags_cycle :
    let heap : Heap := [.mapping .dict [(.container 1, .container 0), (.string ['k'], .container 1),
      (.string [], .container 2)], .sequence .tuple [.int 7], .sequence .list []]
    let plain := "\x7b[\x7b[0] = 7\x7d] = (self), k = \x7b[0] = 7\x7d,  = \x7b\x7d\x7d".toList
    let tagged := ("dict: 0x<1> \x7b[tuple: 0x<2> \x7b[0] = 7\x7d] = (self), " ++
      "k = tuple: 0x<2> \x7b[0] = 7\x7d,  = \x7b\x7d\x7d").toList
    (0 : Int) ≤ 0 ∧ (∀ u ∈ ((container 0).unfold heap).leaves, ∀ s, u.text heap = .ok s →
      '\x7b' ∉ s ∧ '\x7d' ∉ s) ∧
      (container 0).pretty heap {} = .ok plain ∧
      (container 0).pretty heap { showIdentity := true } = .ok tagged ∧
      ∃ number : Nat → Nat, tagged = insertTags ([0, 1, 1].map fun a =>
        (heap.at a).typeName ++ ": 0x<".toList ++ natText (number a) ++ "> ".toList) plain := by
  intro heap plain tagged
  have ht : (container 0).unfold heap =
      .branch 0 [(.branch 1 [(.leaf (.int 0), .leaf (.int 7))], .self),
        (.leaf (.string ['k']), .branch 1 [(.leaf (.int 0), .leaf (.int 7))]),
        (.leaf (.string []), .branch 2 [])] := by
    simp [heap, unfold, unfoldWithin, Heap.at, Container.entries?]
  have hleaf : ∀ u ∈ ((container 0).unfold heap).leaves, ∀ s, u.text heap = .ok s →
      '\x7b' ∉ s ∧ '\x7d' ∉ s := by
    simp only [ht, Tree.leaves, Tree.leavesIn, List.append_nil, List.cons_append, List.nil_append,
      List.forall_mem_cons, text_int, text_string]
    refine ⟨?_, ?_, ?_, ?_, ?_, ?_, by simp⟩
    all_goals
      rintro s ⟨⟩
      decide
  have hplain : (container 0).pretty heap {} = .ok plain := by
    rw [pretty, printed_eq, ht]
    simp only [Tree.print, Tree.printEntries, text_int]
    decide +kernel
  have htagged : (container 0).pretty heap { showIdentity := true } = .ok tagged := by
    rw [pretty, printed_eq, ht]
    simp only [Tree.print, Tree.printEntries, text_int]
    decide +kernel
  have hopened : ((container 0).unfold heap).opened = [0, 1, 1] := by
    rw [ht]
    rfl
  have hzero : (0 : Int) ≤ 0 := Int.le_refl 0
  obtain ⟨number, -, hinsert, -⟩ :=
    (pretty_insertTags heap (container 0) hzero hzero hleaf).2 plain hplain
  refine ⟨hzero, hleaf, hplain, htagged, number, ?_⟩
  rw [hopened] at hinsert
  exact Except.ok.inj (htagged.symm.trans hinsert)

end Stencil
