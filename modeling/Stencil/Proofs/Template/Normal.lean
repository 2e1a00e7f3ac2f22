import Stencil.Proofs.Field.Canonical
import Stencil.Proofs.Template.Append

/-! # Normal forms of templates

A template that can be read to its end has a normal form, in which every brace of its literal text is
doubled and every field has its canonical text. The normal form holds the same literal text and the
same fields, since braces pair up within each unit of it, and so it is rendered alike. It is its own
normal form.
-/

namespace Stencil

def escapeBrace (c : Char) : List Char := if isBrace c then [c, c] else [c]

def Content.text : Content → List Char
  | literal s => s.flatMap escapeBrace
  | field f => f.text
  | failure _ => []

def normalForm (template : List Char) : List Char :=
  (pieces 0 template).flatMap (·.content.text)

def glueContents (text : List Char) : List Content → List Content
  | .literal text' :: rest => .literal (text ++ text') :: rest
  | contents => .literal text :: contents

section Contents

variable {heap : Heap} {args : List Value} {registry : Registry}

theorem contents_glue (offset : Nat) (source text : List Char) (ps : List Piece) :
    (glue offset source text ps).map Piece.content =
      glueContents text (ps.map Piece.content) := by
  rcases ps with - | ⟨⟨offset', source', content⟩, ps⟩
  · rfl
  · cases content <;> rfl

theorem texts_glue (offset : Nat) (source text : List Char) (ps : List Piece) :
    (glue offset source text ps).flatMap (·.content.text) =
      text.flatMap escapeBrace ++ ps.flatMap (·.content.text) := by
  unfold glue
  split
  · simp [Content.text]
  · rfl

theorem Piece.isReadable_of_content {p q : Piece} (h : p.content = q.content) :
    p.isReadable = q.isReadable := by
  rw [isReadable, isReadable, h]

theorem result_runPiece_of_content {p q : Piece} (h : p.content = q.content) (next : Nat) :
    (runPiece heap args registry p).result next = (runPiece heap args registry q).result next := by
  simp only [runPiece, h]
  cases q.content with
  | literal s => rfl
  | field f => simp only [Run.result_bind, Run.result_note]
  | failure e => rfl

theorem result_runPieces_of_contents {ps qs : List Piece}
    (h : ps.map Piece.content = qs.map Piece.content) (next : Nat) :
    (runPieces heap args registry ps).result next =
      (runPieces heap args registry qs).result next := by
  induction ps generalizing qs next with
  | nil =>
    obtain rfl := List.map_eq_nil_iff.mp h.symm
    rfl
  | cons p ps ih =>
    obtain ⟨q, qs, rfl, hq, hqs⟩ := List.map_eq_cons_iff.mp h.symm
    rw [result_runPieces_cons, result_runPieces_cons, result_runPiece_of_content hq.symm]
    simp only [ih hqs.symm]

end Contents

theorem pieces_escapeBrace (offset : Nat) (c : Char) (s : List Char) :
    ∃ next, pieces offset (escapeBrace c ++ s) =
      glue offset (escapeBrace c) [c] (pieces next s) := by
  unfold escapeBrace
  split
  · next hc => exact ⟨_, pieces_doubled offset hc s⟩
  · next hc => exact ⟨_, pieces_plain offset (isPlain_of_not_isBrace hc s)⟩

theorem contents_pieces_escapeBrace {s : List Char} {contents : List Content}
    (h : ∀ offset, (pieces offset s).map Piece.content = contents) (offset : Nat) (c : Char) :
    (pieces offset (escapeBrace c ++ s)).map Piece.content = glueContents [c] contents := by
  obtain ⟨next, hpieces⟩ := pieces_escapeBrace offset c s
  rw [hpieces, contents_glue, h]

theorem contents_pieces_texts {s : List Char} {offset : Nat}
    (hw : ∀ p ∈ pieces offset s, p.isReadable) (offset' : Nat) :
    (pieces offset' ((pieces offset s).flatMap (·.content.text))).map Piece.content =
      (pieces offset s).map Piece.content := by
  induction s using cut_induct generalizing offset offset' with
  | nil => rw [pieces_nil, List.flatMap_nil, pieces_nil]
  | doubled c s hc ih =>
    rw [pieces_doubled offset hc, forall_isReadable_glue_iff] at hw
    rw [pieces_doubled offset hc, texts_glue, contents_glue, List.flatMap_singleton]
    exact contents_pieces_escapeBrace (fun offset' => ih hw offset') offset' c
  | plain c s hc ih =>
    rw [pieces_plain offset hc, forall_isReadable_glue_iff] at hw
    rw [pieces_plain offset hc, texts_glue, contents_glue, List.flatMap_singleton]
    exact contents_pieces_escapeBrace (fun offset' => ih hw offset') offset' c
  | field f s hz hf ih =>
    rw [pieces_field offset f hz hf] at hw ⊢
    obtain ⟨form, hformz, hformf, htext, hfield⟩ := f.wellFormed.exists_form hf.readable
    rw [List.flatMap_cons, Content.text, ← htext, pieces_field offset' form hformz hformf,
      List.map_cons, List.map_cons, hfield, ih fun p hp => hw p (List.mem_cons_of_mem _ hp)]
  | unreadable s fault ho h =>
    rw [pieces_unreadable offset ho h] at hw
    exact absurd (hw _ (List.mem_singleton_self _)) Bool.false_ne_true

/-- The normal form of a template holds what the template holds, and can be read to its end too. Any
renderers make the same of both, text or failure, and the normal form is its own. -/
theorem Walkable.contents_normalForm {t : List Char} (h : Walkable t) :
    Walkable (normalForm t) ∧
    (pieces 0 (normalForm t)).map Piece.content = (pieces 0 t).map Piece.content ∧
    (∀ (heap : Heap) (args : List Value) (registry : Registry),
      registry.format heap args (normalForm t) = registry.format heap args t) ∧
    normalForm (normalForm t) = normalForm t := by
  have hcontents : (pieces 0 (normalForm t)).map Piece.content = (pieces 0 t).map Piece.content :=
    contents_pieces_texts h 0
  refine ⟨?_, hcontents, ?_, ?_⟩
  · intro p hp
    have hmem : p.content ∈ (pieces 0 t).map Piece.content :=
      hcontents ▸ List.mem_map_of_mem hp
    obtain ⟨q, hq, hqp⟩ := List.mem_map.mp hmem
    rw [← Piece.isReadable_of_content hqp]
    exact h q hq
  · intro heap args registry
    rw [Registry.format_eq, Registry.format_eq, result_runPieces_of_contents hcontents]
  · have htexts (t : List Char) :
        normalForm t = ((pieces 0 t).map Piece.content).flatMap Content.text := by
      rw [List.flatMap_map, normalForm]
    rw [htexts, hcontents, ← htexts]

/-- Braces next to fields, a flag without an alignment, and a colon without options. -/
theorem Walkable.contents_normalForm_lone_braces :
    let t := "\x7b00:08.\x7b\x7dX\x7d\x7d \x7d\x7d\x7b\x7b\x7b:\x7d\x7d".toList
    let normal := "\x7b0:0=08.\x7b\x7dX\x7d\x7d\x7d \x7d\x7d\x7b\x7b\x7b\x7d\x7d\x7d".toList
    Walkable t ∧ normalForm t = normal ∧ normalForm normal = normal ∧
      (Registry.standard).format [] [.int 7] normal = (Registry.standard).format [] [.int 7] t := by
  intro t normal
  have hw : Walkable t := by
    unfold Walkable
    decide +kernel
  have hnormal : normalForm t = normal := by decide +kernel
  obtain ⟨-, -, hformat, hagain⟩ := contents_normalForm hw
  exact ⟨hw, hnormal, hnormal ▸ hagain, hnormal ▸ hformat [] [.int 7] Registry.standard⟩

end Stencil
