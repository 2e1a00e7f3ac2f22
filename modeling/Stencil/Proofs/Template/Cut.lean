import Stencil.Proofs.Field.Reading
import Stencil.Template

/-! # Cutting a template into units

The literal text of a template consists of units, which are single characters and doubled braces. A
template is cut from the left into such units and fields, until there is a field that cannot be
read. The pieces are what comes of it when neighbouring units are glued together.
-/

namespace Stencil

def isBrace (c : Char) : Prop := c = '\x7b' ∨ c = '\x7d'

instance (c : Char) : Decidable (isBrace c) := by unfold isBrace; infer_instance

def IsPlain (c : Char) (s : List Char) : Prop :=
  c ≠ '\x7b' ∧ (c = '\x7d' → s.head? ≠ some '\x7d')

/-- A brace that is not doubled opens a field. -/
def OpensField (s : List Char) : Prop := ∃ t, s = '\x7b' :: t ∧ t.head? ≠ some '\x7b'

theorem isPlain_of_not_isBrace {c : Char} (hc : ¬ isBrace c) (s : List Char) : IsPlain c s :=
  ⟨fun h => hc (.inl h), fun h => absurd (.inr h) hc⟩

theorem literal_doubled {c : Char} (hc : isBrace c) (s : List Char) :
    literal (c :: c :: s) = (c :: (literal s).1, (literal s).2) := by
  rcases hc with rfl | rfl <;> rfl

theorem literal_plain {c : Char} {s : List Char} (h : IsPlain c s) :
    literal (c :: s) = (c :: (literal s).1, (literal s).2) := by
  obtain ⟨hc, hs⟩ := h
  apply literal.eq_5 c s (fun t h _ => hc h) hc
  rintro t h rfl
  exact hs h rfl

theorem literal_of_opensField {s : List Char} (h : OpensField s) : literal s = ([], s) := by
  obtain ⟨t, rfl, ht⟩ := h
  apply literal.eq_3
  rintro u rfl
  exact ht rfl

/-- Every text ends, or begins with a unit, a field, or a brace that opens no field. -/
theorem cut_induct {motive : List Char → Prop} (nil : motive [])
    (doubled : ∀ c s, isBrace c → motive s → motive (c :: c :: s))
    (plain : ∀ c s, IsPlain c s → motive s → motive (c :: s))
    (field : ∀ (f : FieldForm) s, f.ZeroIsFlag → f.Fits → motive s → motive (f.text ++ s))
    (unreadable : ∀ s fault, OpensField s → Reader.field s = .error fault → motive s)
    (s : List Char) : motive s := by
  induction hn : s.length using Nat.strongRecOn generalizing s with
  | ind n ih =>
    subst hn
    cases s with
    | nil => exact nil
    | cons c s =>
      by_cases hd : isBrace c ∧ s.head? = some c
      · obtain ⟨t, rfl⟩ := List.head?_eq_some_iff.mp hd.2
        exact doubled c t hd.1 (ih _ (by simp only [List.length_cons]; omega) t rfl)
      · by_cases hc : c = '\x7b'
        · have ho : OpensField (c :: s) := ⟨s, by rw [hc], fun h => hd ⟨.inl hc, hc ▸ h⟩⟩
          cases hr : Reader.field (c :: s) with
          | error fault => exact unreadable _ fault ho hr
          | ok result =>
            obtain ⟨f, hz, hf, hs, -⟩ := Reader.exists_of_field hr
            have hlt := Reader.length_lt_of_field hr
            rw [hs]
            exact field f _ hz hf (ih _ hlt _ rfl)
        · refine plain c s ⟨hc, fun h hs => hd ⟨.inr h, h ▸ hs⟩⟩ (ih _ (by simp) s rfl)

theorem FieldForm.opensField (f : FieldForm) (s : List Char) : OpensField (f.text ++ s) := by
  have ht : Avoids (· = '\x7b') (partText DigitRun.text f.position ++
      (partText (':' :: SpecForm.text ·) f.spec ++ '\x7d' :: s)) := by
    refine .append ?_ (.append ?_ (avoids_cons.mpr (by decide)))
    · cases f.position with
      | none => simp [partText, Avoids]
      | some run =>
        rintro c hc rfl
        exact absurd (run.isDigit _ (List.mem_of_mem_head? hc)) (by decide)
    · cases f.spec with
      | none => simp [partText, Avoids]
      | some g => exact avoids_cons.mpr (by decide)
  exact ⟨_, by simp [FieldForm.text], fun h => ht _ h rfl⟩

theorem literal_suffix (s : List Char) : (literal s).2 <:+ s := by
  induction s using cut_induct with
  | nil => exact List.suffix_rfl
  | doubled c s hc ih =>
    rw [literal_doubled hc]
    exact (ih.trans (List.suffix_cons c s)).trans (List.suffix_cons c (c :: s))
  | plain c s hc ih =>
    rw [literal_plain hc]
    exact ih.trans (List.suffix_cons c s)
  | field f s =>
    rewrite [literal_of_opensField (f.opensField s)]
    exact List.suffix_rfl
  | unreadable s fault ho =>
    rewrite [literal_of_opensField ho]
    exact List.suffix_rfl

theorem length_literal_le (s : List Char) : (literal s).2.length ≤ s.length :=
  (literal_suffix s).length_le

/-- Literal text in front of pieces. It becomes part of the first one, if that is literal too. -/
def glue (offset : Nat) (source text : List Char) : List Piece → List Piece
  | ⟨_, source', .literal text'⟩ :: rest =>
    ⟨offset, source ++ source', .literal (text ++ text')⟩ :: rest
  | pieces => ⟨offset, source, .literal text⟩ :: pieces

theorem forall_glue_iff {q : Piece → Prop} (hq : ∀ p t, p.content = .literal t → q p) {offset : Nat}
    {source text : List Char} {ps : List Piece} :
    (∀ p ∈ glue offset source text ps, q p) ↔ ∀ p ∈ ps, q p := by
  have hl (o : Nat) (s t : List Char) : q ⟨o, s, .literal t⟩ := hq _ t rfl
  unfold glue
  split <;> simp [hl]

variable {s : List Char} (offset : Nat)

theorem pieces_nil : pieces offset [] = [] := by
  rw [pieces, if_pos rfl]

theorem pieces_unreadable {fault : Fault} (ho : OpensField s) (h : Reader.field s = .error fault) :
    pieces offset s = [⟨offset, [], .failure (fault.toFailure offset s)⟩] := by
  have hne : s ≠ [] := by
    obtain ⟨t, rfl, -⟩ := ho
    exact List.cons_ne_nil _ _
  rw [pieces, if_neg hne, literal_of_opensField ho]
  simp only [Nat.lt_irrefl, if_false]
  split
  · next hf => rw [hf] at h; cases h
  · next hf => rw [hf] at h; cases h; rfl

theorem pieces_field (f : FieldForm) (hz : f.ZeroIsFlag) (hf : f.Fits) (s : List Char) :
    pieces offset (f.text ++ s) =
      ⟨offset, f.text, .field f.field⟩ :: pieces (offset + f.text.length) s := by
  have hr := Reader.field_text hz hf s
  have hne : f.text ++ s ≠ [] := by simp [FieldForm.text]
  rw [pieces, if_neg hne, literal_of_opensField (f.opensField s)]
  simp only [Nat.lt_irrefl, if_false]
  split
  · next h =>
    rw [hr] at h
    cases h
    simp
  · next h => rw [hr] at h; cases h

theorem glue_pieces_of_opensField (source text : List Char) (offset' : Nat) (h : OpensField s) :
    glue offset source text (pieces offset' s) =
      ⟨offset, source, .literal text⟩ :: pieces offset' s := by
  induction s using cut_induct with
  | nil =>
    obtain ⟨t, ht, -⟩ := h
    cases ht
  | doubled c s hc =>
    obtain ⟨t, ht, hd⟩ := h
    cases ht
    exact absurd rfl hd
  | plain c s hc =>
    obtain ⟨t, ht, -⟩ := h
    cases ht
    exact absurd rfl hc.1
  | field f s hz hf => rw [pieces_field offset' f hz hf, glue]; simp
  | unreadable s fault ho hr => rw [pieces_unreadable offset' ho hr, glue]; simp

theorem opensField_of_length_literal (hne : s ≠ []) (h : s.length ≤ (literal s).2.length) :
    OpensField s := by
  induction s using cut_induct with
  | nil => exact absurd rfl hne
  | doubled c s hc =>
    have := length_literal_le s
    simp only [literal_doubled hc, List.length_cons] at h
    omega
  | plain c s hc =>
    have := length_literal_le s
    simp only [literal_plain hc, List.length_cons] at h
    omega
  | field f s => exact f.opensField s
  | unreadable s fault ho => exact ho

/-- What is literal in front is glued to the pieces of what follows. -/
theorem pieces_glue {source text : List Char} (hne : source ≠ [])
    (h : literal (source ++ s) = (text ++ (literal s).1, (literal s).2)) :
    pieces offset (source ++ s) = glue offset source text (pieces (offset + source.length) s) := by
  have hpos := List.length_pos_iff.mpr hne
  have hle := length_literal_le s
  have hsize : (source ++ s).length - (literal s).2.length =
      source.length + (s.length - (literal s).2.length) := by
    rw [List.length_append]
    omega
  rw [pieces, if_neg (by simp [hne]), h]
  simp only [hsize]
  rw [if_pos (by rw [List.length_append]; omega)]
  by_cases hs : s = []
  · subst hs
    simp [pieces_nil, literal, glue]
  · by_cases hlt : (literal s).2.length < s.length
    · rw [pieces.eq_def (offset + source.length) s, if_neg hs]
      simp only [if_pos hlt, glue, Nat.add_assoc]
      rw [List.take_append, List.take_of_length_le (by omega), Nat.add_sub_cancel_left]
    · have ho := opensField_of_length_literal hs (Nat.le_of_not_lt hlt)
      rw [glue_pieces_of_opensField offset source text _ ho, literal_of_opensField ho]
      simp

theorem pieces_doubled {c : Char} (hc : isBrace c) (s : List Char) :
    pieces offset (c :: c :: s) = glue offset [c, c] [c] (pieces (offset + 2) s) := by
  have hne : [c, c] ≠ [] := List.cons_ne_nil _ _
  exact pieces_glue offset hne (literal_doubled hc s)

theorem pieces_plain {c : Char} (h : IsPlain c s) :
    pieces offset (c :: s) = glue offset [c] [c] (pieces (offset + 1) s) := by
  have hne : [c] ≠ [] := List.cons_ne_nil _ _
  exact pieces_glue offset hne (literal_plain h)

def literalUnits : List Char → List (List Char)
  | [] => []
  | [c] => [[c]]
  | c :: d :: rest =>
    if isBrace c ∧ d = c then [c, d] :: literalUnits rest else [c] :: literalUnits (d :: rest)

def Piece.units (p : Piece) : List (List Char) :=
  match p.content with
  | .literal _ => literalUnits p.source
  | .field _ | .failure _ => [p.source]

theorem literalUnits_doubled {c : Char} (hc : isBrace c) (s : List Char) :
    literalUnits (c :: c :: s) = [c, c] :: literalUnits s :=
  if_pos ⟨hc, rfl⟩

theorem literalUnits_plain {c : Char} (h : IsPlain c s) :
    literalUnits (c :: s) = [c] :: literalUnits s := by
  cases s with
  | nil => rfl
  | cons d s =>
    apply if_neg
    rintro ⟨rfl | rfl, rfl⟩
    · exact h.1 rfl
    · exact h.2 rfl rfl

@[simp] theorem sources_glue (source text : List Char) (ps : List Piece) :
    (glue offset source text ps).flatMap Piece.source = source ++ ps.flatMap Piece.source := by
  unfold glue
  split <;> simp

theorem sources_pieces_prefix (s : List Char) : (pieces offset s).flatMap Piece.source <+: s := by
  induction s using cut_induct generalizing offset with
  | nil => simp [pieces_nil]
  | doubled c s hc ih =>
    rw [pieces_doubled offset hc, sources_glue]
    exact List.prefix_append_right_inj _ |>.mpr (ih _)
  | plain c s hc ih =>
    rw [pieces_plain offset hc, sources_glue]
    exact List.prefix_append_right_inj _ |>.mpr (ih _)
  | field f s hz hf ih =>
    rw [pieces_field offset f hz hf, List.flatMap_cons]
    exact List.prefix_append_right_inj _ |>.mpr (ih _)
  | unreadable s fault ho h => simp [pieces_unreadable offset ho h]

theorem IsPlain.of_prefix {c : Char} {t : List Char} (h : IsPlain c s) (ht : t <+: s) :
    IsPlain c t := by
  refine ⟨h.1, fun hc ht' => h.2 hc ?_⟩
  obtain ⟨u, rfl⟩ := ht
  rw [List.head?_append, ht', Option.some_or]

theorem units_pieces_plain {c : Char} (h : IsPlain c s) :
    (pieces offset (c :: s)).flatMap Piece.units =
      [c] :: (pieces (offset + 1) s).flatMap Piece.units := by
  have hp := sources_pieces_prefix (offset + 1) s
  rw [pieces_plain offset h]
  unfold glue
  split
  · next source text rest he =>
    rw [he, List.flatMap_cons] at hp
    have hs := h.of_prefix ((List.prefix_append _ _).trans hp)
    rw [he, List.flatMap_cons, List.flatMap_cons]
    exact congrArg (· ++ _) (literalUnits_plain hs)
  · rfl

theorem units_pieces_doubled {c : Char} (hc : isBrace c) (s : List Char) :
    (pieces offset (c :: c :: s)).flatMap Piece.units =
      [c, c] :: (pieces (offset + 2) s).flatMap Piece.units := by
  rw [pieces_doubled offset hc]
  unfold glue
  split
  · next source text rest he =>
    rw [he, List.flatMap_cons, List.flatMap_cons]
    exact congrArg (· ++ _) (literalUnits_doubled hc source)
  · rw [List.flatMap_cons]
    exact congrArg (· ++ _) (literalUnits_doubled hc [])

end Stencil
