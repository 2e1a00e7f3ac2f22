import Stencil.Proofs.Field.Parts
import Stencil.Proofs.Tree.Breaks
import Stencil.Proofs.Tree.Path

/-! # Entry trees

What a value shows on one line is a tree of entries with texts at its leaves. If the texts keep
clear of braces, brackets, commas, equality signs and spaces, the tree can be read off the line.
-/

namespace Stencil

mutual

inductive EntryTree
  | leaf (text : List Char)
  | branch (entries : List (EntryKey × EntryTree))

inductive EntryKey
  | verbatim (s : List Char)
  | bracketed (tree : EntryTree)

end

theorem EntryTree.induct {motive : EntryTree → Prop} (leaf : ∀ s, motive (leaf s))
    (branch : ∀ entries, (∀ entry ∈ entries, (∀ t, entry.1 = .bracketed t → motive t) ∧
      motive entry.2) → motive (branch entries)) (e : EntryTree) : motive e := by
  refine @EntryTree.rec motive (fun key => ∀ t, key = .bracketed t → motive t)
    (fun entries => ∀ entry ∈ entries, (∀ t, entry.1 = .bracketed t → motive t) ∧ motive entry.2)
    (fun entry => (∀ t, entry.1 = .bracketed t → motive t) ∧ motive entry.2) leaf branch
    ?verbatim ?bracketed ?nil ?cons ?entry e
  case verbatim => rintro s t ⟨⟩
  case bracketed => rintro t ht t' ⟨⟩; exact ht
  case nil => exact fun entry h => (List.not_mem_nil h).elim
  case cons => exact fun entry entries hentry ih => List.forall_mem_cons.mpr ⟨hentry, ih⟩
  case entry => exact fun key value hkey hvalue => ⟨hkey, hvalue⟩

mutual

def EntryTree.text : EntryTree → List Char
  | .leaf s => s
  | .branch [] => "\x7b\x7d".toList
  | .branch ((key, value) :: rest) =>
    '\x7b' :: (key.text ++ " = ".toList ++ value.text ++ textRest rest)
  termination_by structural e => e

def EntryKey.text : EntryKey → List Char
  | .verbatim s => s
  | .bracketed t => '[' :: t.text ++ [']']
  termination_by structural key => key

def textRest : List (EntryKey × EntryTree) → List Char
  | [] => ['\x7d']
  | (key, value) :: rest => ", ".toList ++ (key.text ++ " = ".toList ++ value.text) ++ textRest rest
  termination_by structural entries => entries

end

mutual

def EntryTree.texts : EntryTree → List (List Char)
  | .leaf s => [s]
  | .branch entries => textsIn entries
  termination_by structural e => e

def EntryKey.texts : EntryKey → List (List Char)
  | .verbatim s => [s]
  | .bracketed t => t.texts
  termination_by structural key => key

def textsIn : List (EntryKey × EntryTree) → List (List Char)
  | [] => []
  | (key, value) :: rest => key.texts ++ value.texts ++ textsIn rest
  termination_by structural entries => entries

end

def entryLine (entry : EntryKey × EntryTree) : List Char :=
  entry.1.text ++ " = ".toList ++ entry.2.text

namespace EntryTree

theorem text_branch_cons (entry : EntryKey × EntryTree) (rest : List (EntryKey × EntryTree)) :
    (branch (entry :: rest)).text = '\x7b' :: (entryLine entry ++ textRest rest) := rfl

theorem textRest_cons (entry : EntryKey × EntryTree) (rest : List (EntryKey × EntryTree)) :
    textRest (entry :: rest) = ", ".toList ++ entryLine entry ++ textRest rest := rfl

end EntryTree

def layoutChars : List Char := "\x7b\x7d[],= ".toList

def IsClear (s : List Char) : Prop := ∀ c ∈ s, c ∉ layoutChars

def EntryTree.IsClear (e : EntryTree) : Prop := ∀ s ∈ e.texts, Stencil.IsClear s

def EntryKey.IsClear (key : EntryKey) : Prop := ∀ s ∈ key.texts, Stencil.IsClear s

theorem eq_of_clear_append {s s' rest rest' : List Char} (hs : IsClear s) (hs' : IsClear s')
    (hrest : Avoids (· ∉ layoutChars) rest) (hrest' : Avoids (· ∉ layoutChars) rest')
    (h : s ++ rest = s' ++ rest') : s = s' ∧ rest = rest' := by
  have hnil {t rest rest' : List Char} (ht : IsClear t) (hrest : Avoids (· ∉ layoutChars) rest)
      (h : rest = t ++ rest') : t = [] := by
    cases t with
    | nil => rfl
    | cons c t =>
      rw [h, List.cons_append, avoids_cons] at hrest
      exact (hrest (ht c (List.mem_cons_self ..))).elim
  rcases List.append_eq_append_iff.mp h with ⟨t, rfl, ht⟩ | ⟨t, rfl, ht⟩
  · obtain rfl := hnil (fun c hc => hs' c (List.mem_append_right _ hc)) hrest ht
    exact ⟨(List.append_nil s).symm, ht⟩
  · obtain rfl := hnil (fun c hc => hs c (List.mem_append_right _ hc)) hrest' ht
    exact ⟨List.append_nil s', ht.symm⟩

def EndsTree (c : Char) : Prop := c ∈ ",]\x7d".toList

instance (c : Char) : Decidable (EndsTree c) := by unfold EndsTree; infer_instance

namespace EntryTree

/-- No other tree begins the same line, whatever follows the two. -/
def Decodable (e : EntryTree) : Prop :=
  ∀ (e' : EntryTree) (rest rest' : List Char), e.IsClear → e'.IsClear →
    Avoids (¬ EndsTree ·) rest → Avoids (¬ EndsTree ·) rest' →
    e.text ++ rest = e'.text ++ rest' → e = e' ∧ rest = rest'

theorem isClear_leaf {s : List Char} : (leaf s).IsClear ↔ Stencil.IsClear s := by
  simp [IsClear, texts]

theorem isClear_branch {entries : List (EntryKey × EntryTree)} :
    (branch entries).IsClear ↔ ∀ entry ∈ entries, entry.1.IsClear ∧ entry.2.IsClear := by
  unfold IsClear EntryKey.IsClear
  rw [texts]
  induction entries with
  | nil => simp [textsIn]
  | cons entry rest ih =>
    rw [textsIn, List.forall_mem_append, List.forall_mem_append, ih, List.forall_mem_cons]

theorem exists_text_branch (entries : List (EntryKey × EntryTree)) :
    ∃ t, (branch entries).text = '\x7b' :: t := by
  cases entries with
  | nil => exact ⟨_, rfl⟩
  | cons entry rest => exact ⟨_, rfl⟩

theorem leaf_append_ne_brace {s rest t : List Char} (hs : Stencil.IsClear s)
    (hrest : Avoids (¬ EndsTree ·) rest) : s ++ rest ≠ '\x7b' :: t := by
  rintro h
  cases s with
  | nil =>
    rw [List.nil_append] at h
    rw [h, avoids_cons] at hrest
    exact hrest (by decide)
  | cons c s =>
    cases h
    exact hs '\x7b' (List.mem_cons_self ..) (by decide)

theorem avoids_textRest (entries : List (EntryKey × EntryTree)) (rest : List Char) :
    Avoids (¬ EndsTree ·) (textRest entries ++ rest) := by
  cases entries with
  | nil => exact avoids_cons.mpr (by decide)
  | cons entry entries => exact avoids_cons.mpr (by decide)

theorem entryLine_append_ne_brace {entry : EntryKey × EntryTree} (h : entry.1.IsClear)
    (s t : List Char) : entryLine entry ++ s ≠ '\x7d' :: t := by
  obtain ⟨key, value⟩ := entry
  rintro heq
  cases key with
  | verbatim k =>
    cases k with
    | nil => cases heq
    | cons c k =>
      cases heq
      exact h _ (List.mem_singleton_self _) '\x7d' (List.mem_cons_self ..) (by decide)
  | bracketed e => cases heq

theorem eq_of_key_append {key key' : EntryKey} {rest rest' : List Char}
    (ih : ∀ e, key = .bracketed e → e.Decodable) (hclear : key.IsClear) (hclear' : key'.IsClear)
    (h : key.text ++ ' ' :: rest = key'.text ++ ' ' :: rest') : key = key' ∧ rest = rest' := by
  have hspace (rest : List Char) : Avoids (· ∉ layoutChars) (' ' :: rest) :=
    avoids_cons.mpr (by decide)
  have hbracket {k rest t : List Char} (hk : Stencil.IsClear k) : k ++ ' ' :: rest ≠ '[' :: t := by
    intro heq
    cases k with
    | nil => cases heq
    | cons c k =>
      cases heq
      exact hk '[' (List.mem_cons_self ..) (by decide)
  cases key with
  | verbatim k =>
    have hk : Stencil.IsClear k := hclear k (List.mem_singleton_self k)
    cases key' with
    | verbatim k' =>
      obtain ⟨rfl, hrest⟩ := eq_of_clear_append hk (hclear' k' (List.mem_singleton_self k'))
        (hspace rest) (hspace rest') h
      exact ⟨rfl, List.tail_eq_of_cons_eq hrest⟩
    | bracketed e' => exact (hbracket hk h).elim
  | bracketed e =>
    cases key' with
    | verbatim k' => exact (hbracket (hclear' k' (List.mem_singleton_self k')) h.symm).elim
    | bracketed e' =>
      have hclose (rest : List Char) : Avoids (¬ EndsTree ·) (']' :: rest) :=
        avoids_cons.mpr (by decide)
      have htext : e.text ++ ']' :: ' ' :: rest = e'.text ++ ']' :: ' ' :: rest' := by
        simpa [EntryKey.text] using h
      obtain ⟨rfl, hrest⟩ := ih e rfl e' _ _ hclear hclear' (hclose _) (hclose _) htext
      exact ⟨rfl, by simpa using hrest⟩

theorem eq_of_entryLine_append {entry entry' : EntryKey × EntryTree} {rest rest' : List Char}
    (ih : (∀ e, entry.1 = .bracketed e → e.Decodable) ∧ entry.2.Decodable)
    (hclear : entry.1.IsClear ∧ entry.2.IsClear) (hclear' : entry'.1.IsClear ∧ entry'.2.IsClear)
    (hrest : Avoids (¬ EndsTree ·) rest) (hrest' : Avoids (¬ EndsTree ·) rest')
    (h : entryLine entry ++ rest = entryLine entry' ++ rest') : entry = entry' ∧ rest = rest' := by
  obtain ⟨key, value⟩ := entry
  obtain ⟨key', value'⟩ := entry'
  simp only [entryLine, List.append_assoc] at h
  obtain ⟨rfl, hvalue⟩ := eq_of_key_append ih.1 hclear.1 hclear'.1 h
  have hvalue : "= ".toList ++ (value.text ++ rest) = "= ".toList ++ (value'.text ++ rest') :=
    hvalue
  obtain ⟨rfl, htail⟩ := ih.2 value' rest rest' hclear.2 hclear'.2 hrest hrest'
    (List.append_cancel_left hvalue)
  exact ⟨rfl, htail⟩

theorem eq_of_textRest_append {entries entries' : List (EntryKey × EntryTree)}
    {rest rest' : List Char}
    (ih : ∀ entry ∈ entries, (∀ e, entry.1 = .bracketed e → e.Decodable) ∧ entry.2.Decodable)
    (hclear : ∀ entry ∈ entries, entry.1.IsClear ∧ entry.2.IsClear)
    (hclear' : ∀ entry ∈ entries', entry.1.IsClear ∧ entry.2.IsClear)
    (h : textRest entries ++ rest = textRest entries' ++ rest') :
    entries = entries' ∧ rest = rest' := by
  induction entries generalizing entries' with
  | nil =>
    cases entries' with
    | nil => exact ⟨rfl, List.tail_eq_of_cons_eq h⟩
    | cons entry' entries' => cases h
  | cons entry entries ihrest =>
    cases entries' with
    | nil => cases h
    | cons entry' entries' =>
      rw [List.forall_mem_cons] at ih hclear hclear'
      simp only [textRest_cons, List.append_assoc] at h
      obtain ⟨rfl, htail⟩ := eq_of_entryLine_append ih.1 hclear.1 hclear'.1
        (avoids_textRest entries rest) (avoids_textRest entries' rest') (List.append_cancel_left h)
      obtain ⟨rfl, hrest⟩ := ihrest ih.2 hclear.2 hclear'.2 htail
      exact ⟨rfl, hrest⟩

theorem decodable (e : EntryTree) : e.Decodable := by
  -- What follows is left open, since the entries of a branch are followed by one another.
  induction e using EntryTree.induct with
  | leaf s =>
    intro e' rest rest' hclear hclear' hrest hrest' h
    have hs := isClear_leaf.mp hclear
    cases e' with
    | leaf s' =>
      have hlayout : ∀ c, c ∉ layoutChars → ¬ EndsTree c := by
        unfold layoutChars EndsTree
        simp only [String.reduceToList, List.mem_cons, not_or]
        tauto
      obtain ⟨rfl, hrest⟩ := eq_of_clear_append hs (isClear_leaf.mp hclear') (hrest.mono hlayout)
        (hrest'.mono hlayout) h
      exact ⟨rfl, hrest⟩
    | branch entries' =>
      obtain ⟨t, ht⟩ := exists_text_branch entries'
      rw [ht] at h
      exact (leaf_append_ne_brace hs hrest h).elim
  | branch entries ih =>
    intro e' rest rest' hclear hclear' hrest hrest' h
    cases e' with
    | leaf s' =>
      obtain ⟨t, ht⟩ := exists_text_branch entries
      rw [ht] at h
      exact (leaf_append_ne_brace (isClear_leaf.mp hclear') hrest' h.symm).elim
    | branch entries' =>
      rw [isClear_branch] at hclear hclear'
      cases entries with
      | nil =>
        cases entries' with
        | nil => exact ⟨rfl, List.append_cancel_left h⟩
        | cons entry' entries' =>
          rw [text_branch_cons, List.cons_append, List.append_assoc] at h
          have hfirst' := (hclear' entry' (List.mem_cons_self ..)).1
          exact (entryLine_append_ne_brace hfirst' _ _ (List.tail_eq_of_cons_eq h).symm).elim
      | cons entry entries =>
        rw [text_branch_cons, List.cons_append, List.append_assoc] at h
        cases entries' with
        | nil =>
          have hfirst := (hclear entry (List.mem_cons_self ..)).1
          exact (entryLine_append_ne_brace hfirst _ _ (List.tail_eq_of_cons_eq h)).elim
        | cons entry' entries' =>
          rw [text_branch_cons, List.cons_append, List.append_assoc] at h
          rw [List.forall_mem_cons] at ih hclear hclear'
          obtain ⟨rfl, htail⟩ := eq_of_entryLine_append ih.1 hclear.1 hclear'.1
            (avoids_textRest entries rest) (avoids_textRest entries' rest')
            (List.tail_eq_of_cons_eq h)
          obtain ⟨rfl, hrest⟩ := eq_of_textRest_append ih.2 hclear.2 hclear'.2 htail
          exact ⟨rfl, hrest⟩

end EntryTree

namespace Tree

def entryKey : Tree → EntryTree → EntryKey
  | leaf (.string s), _ => .verbatim s
  | _, e => .bracketed e

variable (heap : Heap)

mutual

/-- A tree that is cut short has no entry tree. -/
def entryTree? : Tree → Option EntryTree
  | leaf v => (v.text heap).toOption.map .leaf
  | self => none
  | branch _ entries => (entriesIn? entries).map .branch
  termination_by structural t => t

def entriesIn? : List (Tree × Tree) → Option (List (EntryKey × EntryTree))
  | [] => some []
  | (key, value) :: rest => do
    let keyTree ← key.entryTree?
    let valueTree ← value.entryTree?
    let entries ← entriesIn? rest
    return (key.entryKey keyTree, valueTree) :: entries
  termination_by structural entries => entries

end

variable {heap}

theorem entryTree?_leaf {v : Value} {e : EntryTree} :
    (leaf v).entryTree? heap = some e ↔ ∃ s, v.text heap = .ok s ∧ e = .leaf s := by
  rw [entryTree?]
  cases v.text heap with
  | error f => simp [Except.toOption]
  | ok s => simp [Except.toOption, eq_comm]

theorem forall₂_of_entriesIn? {entries : List (Tree × Tree)} {es : List (EntryKey × EntryTree)}
    (h : entriesIn? heap entries = some es) : List.Forall₂ (fun entry e => ∃ key,
      entry.1.entryTree? heap = some key ∧ e.1 = entry.1.entryKey key ∧
      entry.2.entryTree? heap = some e.2) entries es := by
  induction entries generalizing es with
  | nil => cases h; exact .nil
  | cons entry rest ih =>
    simp only [entriesIn?, Option.bind_eq_bind, Option.bind_eq_some_iff, Option.pure_def,
      Option.some.injEq] at h
    obtain ⟨key, hkey, value, hvalue, es, hes, rfl⟩ := h
    exact .cons ⟨key, hkey, rfl, hvalue⟩ (ih hes)

theorem exists_entriesIn? {entries : List (Tree × Tree)}
    (h : ∀ entry ∈ entries, (∃ key, entry.1.entryTree? heap = some key) ∧
      ∃ value, entry.2.entryTree? heap = some value) :
    ∃ es, entriesIn? heap entries = some es := by
  induction entries with
  | nil => exact ⟨[], rfl⟩
  | cons entry rest ih =>
    obtain ⟨⟨⟨key, hkey⟩, ⟨value, hvalue⟩⟩, hrest⟩ := List.forall_mem_cons.mp h
    obtain ⟨es, hes⟩ := ih hrest
    exact ⟨_, by rw [entriesIn?, hkey, hvalue, hes]; rfl⟩

theorem exists_entryTree?_branch (address : Nat) {entries : List (Tree × Tree)}
    (h : ∀ entry ∈ entries, (∃ key, entry.1.entryTree? heap = some key) ∧
      ∃ value, entry.2.entryTree? heap = some value) :
    ∃ e, (branch address entries).entryTree? heap = some e := by
  obtain ⟨es, hes⟩ := exists_entriesIn? h
  exact ⟨.branch es, by rw [entryTree?, hes]; rfl⟩

theorem text_entryKey (t : Tree) (e : EntryTree) : (t.entryKey e).text = t.keyText e.text := by
  by_cases hs : ∃ s, t = leaf (.string s)
  · obtain ⟨s, rfl⟩ := hs
    rfl
  · rw [entryKey.eq_2 t e fun s h => hs ⟨s, h⟩, keyText.eq_2 t _ fun s h => hs ⟨s, h⟩]
    rfl

/-- Without tags and indentation the layout is the text of the entry tree. -/
theorem layout_eq_text {tag : Nat → List Char} {breaks : Int → Breaks}
    (htag : ∀ address, tag address = []) (hbreaks : ∀ depth, breaks depth = ⟨[], ", ".toList, []⟩)
    {t : Tree} {e : EntryTree} (h : t.entryTree? heap = some e) (depth : Int) :
    t.layout heap tag breaks depth = e.text := by
  induction t using Tree.induct generalizing e depth with
  | leaf v =>
    obtain ⟨s, hs, rfl⟩ := entryTree?_leaf.mp h
    exact Value.shown_of_text hs
  | self => cases h
  | branch address entries ih =>
    obtain ⟨es, hes, rfl⟩ := Option.map_eq_some_iff.mp h
    have hlines : List.Forall₂ (fun entry e =>
        entryText (layout heap tag breaks (depth + 1)) entry = entryLine e) entries es := by
      refine forall₂_imp_of_mem (forall₂_of_entriesIn? hes) fun entry hentry e _ he => ?_
      obtain ⟨key, hkey, heq, hvalue⟩ := he
      rw [entryText, (ih entry hentry).1 hkey, (ih entry hentry).2 hvalue, entryLine, heq,
        text_entryKey]
    have hrest {entries : List (Tree × Tree)} {es : List (EntryKey × EntryTree)}
        (h : List.Forall₂ (fun entry e =>
          entryText (layout heap tag breaks (depth + 1)) entry = entryLine e) entries es) :
        layoutRest heap tag breaks depth entries = textRest es := by
      induction h with
      | nil => rw [layoutRest, hbreaks]; rfl
      | cons hline _ ih => rw [layoutRest_cons, hbreaks, hline, ih]; rfl
    cases hlines with
    | nil => rfl
    | cons hline hlines =>
      rw [layout_branch, htag, hbreaks, hline, hrest hlines]
      rfl

theorem isClear_entryKey {t : Tree} {e : EntryTree} (h : t.entryTree? heap = some e)
    (he : e.IsClear) : (t.entryKey e).IsClear := by
  by_cases hs : ∃ s, t = leaf (.string s)
  · obtain ⟨s, rfl⟩ := hs
    cases h
    exact he
  · rw [entryKey.eq_2 t e fun s h => hs ⟨s, h⟩]
    exact he

theorem isClear_of_entryTree? {t : Tree} {e : EntryTree} (h : t.entryTree? heap = some e)
    (hclear : ∀ v ∈ t.leaves, ∀ s, v.text heap = .ok s → IsClear s) : e.IsClear := by
  induction t using Tree.induct generalizing e with
  | leaf v =>
    obtain ⟨s, hs, rfl⟩ := entryTree?_leaf.mp h
    exact EntryTree.isClear_leaf.mpr (hclear v (List.mem_singleton_self v) s hs)
  | self => cases h
  | branch address entries ih =>
    obtain ⟨es, hes, rfl⟩ := Option.map_eq_some_iff.mp h
    have hentries : List.Forall₂ (fun e (_ : Tree × Tree) => (e.1.IsClear ∧ e.2.IsClear) ∧ True)
        es entries := by
      refine (forall₂_imp_of_mem (forall₂_of_entriesIn? hes) fun entry hentry e _ he => ?_).flip
      obtain ⟨key, hkey, heq, hvalue⟩ := he
      have hside (v : Value) (hv) := hclear v (mem_leavesIn.mpr ⟨entry, hentry, hv⟩)
      have hkeyClear := (ih entry hentry).1 hkey fun v hv => hside v (.inl hv)
      have hvalueClear := (ih entry hentry).2 hvalue fun v hv => hside v (.inr hv)
      exact ⟨⟨heq ▸ isClear_entryKey hkey hkeyClear, hvalueClear⟩, trivial⟩
    exact EntryTree.isClear_branch.mpr ((List.forall₂_and_left _ _).mp hentries).1

end Tree

namespace Value

/-- No walk from the value comes back to a container of the path, nor to one that it leads
through. -/
def IsAcyclicWithin (heap : Heap) (path : List Nat) (v : Value) : Prop :=
  ∀ steps passed u address entries, v.walk heap path steps = some (passed, u) →
    u.entries? heap = some (address, entries) → address ∉ passed

/-- No container in the value is inside itself. -/
def IsAcyclic (heap : Heap) (v : Value) : Prop := v.IsAcyclicWithin heap []

/-- The entry tree of a value that is acyclic. -/
def entryTree? (heap : Heap) (v : Value) : Option EntryTree := (v.unfold heap).entryTree? heap

variable {heap : Heap} {path : List Nat} {v : Value}

theorem mem_contents_of_entries? {address : Nat} {entries : List (Value × Value)}
    {entry : Value × Value} (h : v.entries? heap = some (address, entries))
    (hentry : entry ∈ entries) (side : Side) : v = container address ∧
      ((side.of entry).IsAtom ∨ side.of entry ∈ (heap.at address).contents) := by
  cases v with
  | container a =>
    obtain ⟨_, hc, heq⟩ := Option.map_eq_some_iff.mp h
    obtain ⟨rfl, rfl⟩ := Prod.mk.inj heq
    refine ⟨rfl, ?_⟩
    cases hat : heap.at a with
    | sequence kind items =>
      rw [hat] at hc
      cases hc
      obtain ⟨⟨item, i⟩, hitem, rfl⟩ := List.mem_map.mp hentry
      cases side with
      | key => exact .inl (.int i)
      | value => exact .inr (List.fst_mem_of_mem_zipIdx hitem)
    | mapping kind entries =>
      rw [hat] at hc
      cases hc
      refine .inr (List.mem_flatMap.mpr ⟨entry, hentry, ?_⟩)
      cases side <;> simp [Side.of]
    | set members =>
      rw [hat] at hc
      cases hc
  | _ => cases h

theorem isAcyclicWithin_of_inside (ha : heap.Acyclic) (hi : heap.Inside path v) :
    v.IsAcyclicWithin heap path := by
  intro steps
  induction steps generalizing path v with
  | nil =>
    rintro passed u address entries ⟨⟩ he
    cases v with
    | container a =>
      obtain ⟨_, -, heq⟩ := Option.map_eq_some_iff.mp he
      obtain ⟨rfl, -⟩ := Prod.mk.inj heq
      exact ha.not_mem hi
    | _ => cases he
  | cons step steps ih =>
    intro passed u address entries hw he
    simp only [walk, Option.bind_eq_bind, Option.bind_eq_some_iff] at hw
    obtain ⟨⟨a, inner⟩, hv, entry, hentry, hw⟩ := hw
    obtain ⟨rfl, hside⟩ := mem_contents_of_entries? hv (List.mem_of_getElem? hentry) step.side
    refine ih ?_ passed u address entries hw he
    exact hside.elim (fun hatom _ _ b hb => (hatom b hb).elim) hi.cons

theorem isAcyclic_of_acyclic (ha : heap.Acyclic) (v : Value) : v.IsAcyclic heap :=
  isAcyclicWithin_of_inside ha (by simp [Heap.Inside])

theorem IsAcyclicWithin.side {address : Nat} {entries : List (Value × Value)}
    {entry : Value × Value} (h : v.IsAcyclicWithin heap path)
    (he : v.entries? heap = some (address, entries)) (hentry : entry ∈ entries) (side : Side) :
    (side.of entry).IsAcyclicWithin heap (address :: path) := by
  intro steps passed u inner innerEntries hw
  obtain ⟨i, hi⟩ := List.mem_iff_getElem?.mp hentry
  apply h (⟨i, side⟩ :: steps) passed u
  simp only [walk, he, Option.bind_eq_bind, Option.bind_some, hi, hw]

theorem exists_entryTree (h : v.IsAcyclicWithin heap path)
    (htext : ∀ u ∈ (v.unfoldWithin heap path).leaves, ∃ s, u.text heap = .ok s) :
    ∃ e, (v.unfoldWithin heap path).entryTree? heap = some e := by
  induction path, v using @unfoldWithin_induct heap with
  | leaf path v he =>
    rw [unfoldWithin_leaf he] at htext ⊢
    obtain ⟨s, hs⟩ := htext v (List.mem_singleton_self v)
    exact ⟨_, Tree.entryTree?_leaf.mpr ⟨s, hs, rfl⟩⟩
  | self path v address entries he hp => exact (h [] path v address entries rfl he hp).elim
  | branch path v address entries he hp ih =>
    rw [unfoldWithin_branch he hp] at htext ⊢
    apply Tree.exists_entryTree?_branch
    intro subtrees hsub
    obtain ⟨entry, hentry, rfl⟩ := List.mem_map.mp hsub
    have hside (u : Value) (hu) := htext u (Tree.mem_leavesIn.mpr ⟨_, hsub, hu⟩)
    exact ⟨(ih entry hentry).1 (h.side he hentry .key) fun u hu => hside u (.inl hu),
      (ih entry hentry).2 (h.side he hentry .value) fun u hu => hside u (.inr hu)⟩

/-- On one line and without tags, an acyclic value is shown as its entry tree. -/
theorem exists_entryTree_of_pretty {depth : Int} {text : List Char} (hv : v.IsAcyclic heap)
    (h : v.pretty heap { depth } = .ok text) :
    ∃ e, v.entryTree? heap = some e ∧ text = e.text := by
  rw [pretty, printed_eq] at h
  obtain ⟨e, he⟩ := exists_entryTree hv (Tree.exists_text_of_print h)
  refine ⟨e, he, ?_⟩
  rw [Tree.eq_layout_of_print h]
  exact Tree.layout_eq_text (fun _ => rfl) (PrettyOptions.breaks_of_indent_eq_zero rfl) he depth

/-- Values that are shown alike on one line have one entry tree, wherever they lie, if the layout
has its characters for itself. -/
theorem entryTree_eq_of_pretty_eq {heap' : Heap} {w : Value} {depth depth' : Int}
    {text : List Char} (hv : v.IsAcyclic heap) (hw : w.IsAcyclic heap')
    (hvclear : ∀ u ∈ (v.unfold heap).leaves, ∀ s, u.text heap = .ok s → ∀ c ∈ s, c ∉ layoutChars)
    (hwclear : ∀ u ∈ (w.unfold heap').leaves, ∀ s, u.text heap' = .ok s →
      ∀ c ∈ s, c ∉ layoutChars)
    (h : v.pretty heap { depth } = .ok text) (h' : w.pretty heap' { depth := depth' } = .ok text) :
    ∃ e, v.entryTree? heap = some e ∧ w.entryTree? heap' = some e := by
  obtain ⟨e, he, rfl⟩ := exists_entryTree_of_pretty hv h
  obtain ⟨e', he', heq⟩ := exists_entryTree_of_pretty hw h'
  have hnil : Avoids (¬ EndsTree ·) [] := fun c hc => by cases hc
  have heq : e.text ++ [] = e'.text ++ [] := congrArg (· ++ []) heq
  obtain ⟨rfl, -⟩ := e.decodable e' [] [] (Tree.isClear_of_entryTree? he hvclear)
    (Tree.isClear_of_entryTree? he' hwclear) hnil hnil heq
  exact ⟨e, he, he'⟩

/-- Whether a container is shared or copied shows neither in the text nor in the entry tree. -/
theorem entryTree_eq_of_pretty_eq_copy :
    let heap : Heap := [.sequence .tuple [.int 7], .sequence .list [],
      .mapping .dict [(.container 0, .container 0), (.string ['k'], .container 1),
        (.string [], .string [])]]
    let heap' : Heap := [.sequence .tuple [.int 7], .sequence .list [.int 7], .mapping .dict [],
      .mapping .dict [(.container 0, .container 1), (.string ['k'], .container 2),
        (.string [], .string [])]]
    let text := "\x7b[\x7b[0] = 7\x7d] = \x7b[0] = 7\x7d, k = \x7b\x7d,  = \x7d".toList
    (container 2).IsAcyclic heap ∧ (container 3).IsAcyclic heap' ∧
      (∀ u ∈ ((container 2).unfold heap).leaves, ∀ s, u.text heap = .ok s →
        ∀ c ∈ s, c ∉ layoutChars) ∧
      (∀ u ∈ ((container 3).unfold heap').leaves, ∀ s, u.text heap' = .ok s →
        ∀ c ∈ s, c ∉ layoutChars) ∧
      (container 2).pretty heap {} = .ok text ∧ (container 3).pretty heap' {} = .ok text ∧
      ∃ e, (container 2).entryTree? heap = some e ∧ (container 3).entryTree? heap' = some e := by
  intro heap heap' text
  have hacyclic : heap.Acyclic := by
    refine Heap.acyclic_of_lt fun a b hb => ?_
    obtain _ | _ | _ | _ | a := a <;> simp [heap, Heap.Holds, Heap.at, Container.contents] at hb
    omega
  have hacyclic' : heap'.Acyclic := by
    refine Heap.acyclic_of_lt fun a b hb => ?_
    obtain _ | _ | _ | _ | a := a <;> simp [heap', Heap.Holds, Heap.at, Container.contents] at hb
    omega
  have ht : (container 2).unfold heap =
      .branch 2 [(.branch 0 [(.leaf (.int 0), .leaf (.int 7))],
          .branch 0 [(.leaf (.int 0), .leaf (.int 7))]),
        (.leaf (.string ['k']), .branch 1 []), (.leaf (.string []), .leaf (.string []))] := by
    simp [heap, unfold, unfoldWithin, Heap.at, Container.entries?]
  have ht' : (container 3).unfold heap' =
      .branch 3 [(.branch 0 [(.leaf (.int 0), .leaf (.int 7))],
          .branch 1 [(.leaf (.int 0), .leaf (.int 7))]),
        (.leaf (.string ['k']), .branch 2 []), (.leaf (.string []), .leaf (.string []))] := by
    simp [heap', unfold, unfoldWithin, Heap.at, Container.entries?]
  have hclear : ∀ u ∈ ((container 2).unfold heap).leaves, ∀ s, u.text heap = .ok s →
      ∀ c ∈ s, c ∉ layoutChars := by
    simp only [ht, Tree.leaves, Tree.leavesIn, List.append_nil, List.cons_append, List.nil_append,
      List.forall_mem_cons, text_int, text_string]
    refine ⟨?_, ?_, ?_, ?_, ?_, ?_, ?_, by simp⟩
    all_goals
      rintro s ⟨⟩
      decide
  have hclear' : ∀ u ∈ ((container 3).unfold heap').leaves, ∀ s, u.text heap' = .ok s →
      ∀ c ∈ s, c ∉ layoutChars := by
    simp only [ht', Tree.leaves, Tree.leavesIn, List.append_nil, List.cons_append, List.nil_append,
      List.forall_mem_cons, text_int, text_string]
    refine ⟨?_, ?_, ?_, ?_, ?_, ?_, ?_, by simp⟩
    all_goals
      rintro s ⟨⟩
      decide
  have hpretty : (container 2).pretty heap {} = .ok text := by
    rw [pretty, printed_eq, ht]
    simp only [Tree.print, Tree.printEntries, text_int]
    decide +kernel
  have hpretty' : (container 3).pretty heap' {} = .ok text := by
    rw [pretty, printed_eq, ht']
    simp only [Tree.print, Tree.printEntries, text_int]
    decide +kernel
  have hv : (container 2).IsAcyclic heap := isAcyclic_of_acyclic hacyclic _
  have hw : (container 3).IsAcyclic heap' := isAcyclic_of_acyclic hacyclic' _
  exact ⟨hv, hw, hclear, hclear', hpretty, hpretty',
    entryTree_eq_of_pretty_eq hv hw hclear hclear' hpretty hpretty'⟩

end Value

end Stencil
