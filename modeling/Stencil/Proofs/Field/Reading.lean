import Stencil.Proofs.Field.Parts

/-! # Reading forms

The reader takes a form off the front of a text and leaves what follows it, whatever that is. What
it accepts begins with a form in which a zero in front of the width is the flag.
-/

namespace Stencil

theorem not_isGlyph_of_isDigit {c : Char} (h : c.isDigit = true) : ¬ isGlyph c := by
  intro hg
  obtain ⟨a, ha⟩ := Option.isSome_iff_exists.mp hg
  rw [Reader.glyph_of_ofGlyph? ha] at h
  cases a <;> simp [Align.glyph] at h

theorem CountForm.not_isGlyph_of_mem_text {n : CountForm} {c : Char} (h : c ∈ n.text) :
    ¬ isGlyph c := by
  have hrun : ∀ {run : DigitRun}, c ∈ run.text → ¬ isGlyph c :=
    fun h => not_isGlyph_of_isDigit (DigitRun.isDigit _ c h)
  cases n with
  | digits run => exact hrun h
  | reference position =>
    simp only [CountForm.text, List.cons_append, List.mem_cons, List.mem_append, List.not_mem_nil,
      or_false] at h
    rcases h with rfl | h | rfl
    · decide
    · cases position with
      | none => simp [partText] at h
      | some run => exact hrun h
    · decide

namespace SpecForm

variable (f : SpecForm) (r : List Char) {p : Char → Prop}

theorem avoids_letterPart (hp : ∀ c ∈ '\x7d' :: typeLetters, ¬ p c) :
    Avoids p (f.letterPart ++ '\x7d' :: r) := by
  refine .append ?_ (avoids_cons.mpr (hp _ List.mem_cons_self))
  unfold letterPart
  cases f.letter with
  | none => simp [partText, Avoids]
  | some c => exact avoids_cons.mpr (hp _ (List.mem_cons_of_mem _ c.2))

theorem avoids_afterWidth (hp : ∀ c ∈ '.' :: '\x7d' :: typeLetters, ¬ p c) :
    Avoids p (f.afterWidth ++ '\x7d' :: r) := by
  rw [afterWidth, List.append_assoc]
  refine .append ?_ (f.avoids_letterPart r fun c hc => hp c (List.mem_cons_of_mem _ hc))
  unfold precisionPart
  cases f.precision with
  | none => simp [partText, Avoids]
  | some n => exact avoids_cons.mpr (hp _ List.mem_cons_self)

theorem avoids_afterZero (hd : ∀ c, c.isDigit = true → ¬ p c)
    (hp : ∀ c ∈ '\x7b' :: '.' :: '\x7d' :: typeLetters, ¬ p c) :
    Avoids p (f.afterZero ++ '\x7d' :: r) := by
  rw [afterZero, List.append_assoc]
  refine .append ?_ (f.avoids_afterWidth r fun c hc => hp c (List.mem_cons_of_mem _ hc))
  unfold widthPart
  cases f.width with
  | none => simp [partText, Avoids]
  | some n =>
    cases n with
    | digits run => exact fun c hc => hd c (run.isDigit c (List.mem_of_mem_head? hc))
    | reference position => exact avoids_cons.mpr (hp _ List.mem_cons_self)

theorem avoids_afterAlternate (hd : ∀ c, c.isDigit = true → ¬ p c)
    (hp : ∀ c ∈ '\x7b' :: '.' :: '\x7d' :: typeLetters, ¬ p c) :
    Avoids p (f.afterAlternate ++ '\x7d' :: r) := by
  rw [afterAlternate, List.append_assoc]
  refine .append ?_ (f.avoids_afterZero r hd hp)
  cases f.zero with
  | false => simp [flagPart, Avoids]
  | true => exact avoids_cons.mpr (hd _ rfl)

theorem avoids_afterSign (hd : ∀ c, c.isDigit = true → ¬ p c)
    (hp : ∀ c ∈ '#' :: '\x7b' :: '.' :: '\x7d' :: typeLetters, ¬ p c) :
    Avoids p (f.afterSign ++ '\x7d' :: r) := by
  rw [afterSign, List.append_assoc]
  refine .append ?_ (f.avoids_afterAlternate r hd fun c hc => hp c (List.mem_cons_of_mem _ hc))
  cases f.alternate with
  | false => simp [flagPart, Avoids]
  | true => exact avoids_cons.mpr (hp _ List.mem_cons_self)

theorem not_isGlyph_of_mem_options {c : Char} (h : c ∈ f.options) : ¬ isGlyph c := by
  simp only [options, afterSign, afterAlternate, afterZero, afterWidth, List.mem_append] at h
  rcases h with h | h | h | h | h | h
  · revert h
    cases f.sign <;> simp [Sign.glyph?] <;> rintro rfl <;> decide
  · simp only [flagPart, List.mem_ite_nil_right, List.mem_singleton] at h
    rw [h.2]; decide
  · simp only [flagPart, List.mem_ite_nil_right, List.mem_singleton] at h
    rw [h.2]; decide
  · revert h
    unfold widthPart
    cases f.width with
    | none => simp [partText]
    | some n => exact CountForm.not_isGlyph_of_mem_text
  · revert h
    unfold precisionPart
    cases f.precision with
    | none => simp [partText]
    | some n =>
      simp only [partText, Option.elim_some, List.mem_cons]
      rintro (rfl | h)
      · decide
      · exact CountForm.not_isGlyph_of_mem_text h
  · revert h
    unfold letterPart
    cases f.letter with
    | none => simp [partText]
    | some d =>
      simp only [partText, Option.elim_some, List.mem_singleton]
      rintro rfl
      exact (by decide : ∀ c ∈ typeLetters, ¬ isGlyph c) _ d.2

theorem avoids_isGlyph_options : Avoids isGlyph (f.options ++ '\x7d' :: r) :=
  .append (fun _ hc => f.not_isGlyph_of_mem_options (List.mem_of_mem_head? hc))
    (avoids_cons.mpr (by decide))

theorem avoids_isFill_or_isGlyph_options :
    Avoids isFill (f.options ++ '\x7d' :: r) ∨ Avoids isGlyph (f.options ++ '\x7d' :: r).tail := by
  cases h : f.options with
  | nil => exact .inl (avoids_cons.mpr (by decide))
  | cons c t =>
    have hb : Avoids isGlyph ('\x7d' :: r) := avoids_cons.mpr (by decide)
    refine .inr (.append (fun d hd => f.not_isGlyph_of_mem_options ?_) hb)
    rw [h]
    exact List.mem_cons_of_mem _ (List.mem_of_mem_head? hd)

open Reader

theorem fillAndAlign_text : fillAndAlign (f.text ++ '\x7d' :: r) =
    ((f.alignment.bind AlignForm.fill).map Subtype.val, f.alignment.map AlignForm.align,
      f.options ++ '\x7d' :: r) := by
  rw [text, List.append_assoc]
  exact fillAndAlign_partText (f.avoids_isGlyph_options r) (f.avoids_isFill_or_isGlyph_options r)

theorem sign_options : Reader.sign (f.options ++ '\x7d' :: r) =
    (f.sign, f.afterSign ++ '\x7d' :: r) := by
  rw [options, List.append_assoc]
  refine sign_glyph (f.avoids_afterSign r ?_ (by decide))
  rintro c hc (rfl | rfl | rfl) <;> simp at hc

theorem flag_afterSign :
    flag '#' (f.afterSign ++ '\x7d' :: r) = (f.alternate, f.afterAlternate ++ '\x7d' :: r) := by
  rw [afterSign, List.append_assoc]
  refine flag_flagPart fun _ => f.avoids_afterAlternate r ?_ (by decide)
  rintro c hc rfl
  simp at hc

theorem flag_afterAlternate (hz : f.ZeroIsFlag) :
    flag '0' (f.afterAlternate ++ '\x7d' :: r) = (f.zero, f.afterZero ++ '\x7d' :: r) := by
  rw [afterAlternate, List.append_assoc]
  apply flag_flagPart
  intro h
  rw [afterZero, List.append_assoc]
  exact .append (fun c hc he => hz h (he ▸ hc)) (f.avoids_afterWidth r (by decide))

theorem count_afterZero (hf : f.Fits) :
    count (f.afterZero ++ '\x7d' :: r) =
      .ok (f.width.map CountForm.count, f.afterWidth ++ '\x7d' :: r) := by
  rw [afterZero, List.append_assoc]
  exact count_partText hf.1 (f.avoids_afterWidth r (by decide))

theorem precision_afterWidth (hf : f.Fits) :
    Reader.precision (f.afterWidth ++ '\x7d' :: r) =
      .ok (f.precision.map CountForm.count, f.letterPart ++ '\x7d' :: r) := by
  rw [afterWidth, List.append_assoc]
  exact precision_partText hf.2 (f.avoids_letterPart r (by decide))

theorem conversion_letterPart :
    conversion (f.letterPart ++ '\x7d' :: r) = (letterConversion f.letter, '\x7d' :: r) :=
  conversion_partText (avoids_cons.mpr (by decide))

theorem spec_eq : f.spec = {
    fill := [if f.zero && (f.alignment.map AlignForm.align).isNone then '0'
      else ((f.alignment.bind AlignForm.fill).map Subtype.val).getD ' ']
    align := if f.zero && (f.alignment.map AlignForm.align).isNone then some .afterSign
      else f.alignment.map AlignForm.align
    sign := f.sign
    alternate := f.alternate
    zeroPad := f.zero
    width := (f.width.map CountForm.count).getD (.literal 0)
    precision := f.precision.map CountForm.count
    conversion := (letterConversion f.letter).1
    case := (letterConversion f.letter).2 } := by
  unfold spec
  cases f.zero <;> cases f.alignment <;> simp

end SpecForm

namespace Reader

variable {s rest : List Char}

theorem spec_text {f : SpecForm} (hz : f.ZeroIsFlag) (hf : f.Fits) (r : List Char) :
    spec (f.text ++ '\x7d' :: r) = .ok (f.spec, '\x7d' :: r) := by
  simp only [spec, f.fillAndAlign_text, f.sign_options, f.flag_afterSign,
    f.flag_afterAlternate r hz, f.count_afterZero r hf, f.precision_afterWidth r hf,
    f.conversion_letterPart, f.spec_eq, bind, Except.bind, pure, Except.pure]

theorem exists_of_spec {x : Spec} (h : spec s = .ok (x, rest)) :
    ∃ f : SpecForm, f.ZeroIsFlag ∧ f.Fits ∧ s = f.text ++ rest ∧ x = f.spec := by
  rcases h₁ : fillAndAlign s with ⟨fill, a, s₁⟩
  rcases h₂ : sign s₁ with ⟨g, s₂⟩
  rcases h₃ : flag '#' s₂ with ⟨alternate, s₃⟩
  rcases h₄ : flag '0' s₃ with ⟨zero, s₄⟩
  simp only [spec, h₁, h₂, h₃, h₄] at h
  obtain ⟨⟨width, s₅⟩, h₅, h⟩ := bind_eq_ok_iff.mp h
  obtain ⟨⟨precision, s₆⟩, h₆, h⟩ := bind_eq_ok_iff.mp h
  rcases h₇ : conversion s₆ with ⟨⟨conversion, case⟩, s₇⟩
  simp only [h₇] at h
  cases h
  obtain ⟨alignForm, rfl, rfl, rfl⟩ := exists_of_fillAndAlign h₁
  obtain rfl := eq_of_sign h₂
  obtain ⟨rfl, -⟩ := eq_of_flag h₃
  obtain ⟨rfl, hz⟩ := eq_of_flag h₄
  obtain ⟨widthForm, rfl, rfl, hw⟩ := exists_of_count h₅
  obtain ⟨precisionForm, rfl, rfl, hp⟩ := exists_of_precision h₆
  obtain ⟨letter, rfl, hl⟩ := exists_of_conversion h₇
  refine ⟨⟨alignForm, g, alternate, zero, widthForm, precisionForm, letter⟩, ?_, ⟨hw, hp⟩, ?_, ?_⟩
  · intro hzero hw
    simp only [SpecForm.widthPart] at hw
    exact hz hzero '0' (by simp [List.head?_append, hw]) rfl
  · simp [SpecForm.text, SpecForm.options, SpecForm.afterSign, SpecForm.afterAlternate,
      SpecForm.afterZero, SpecForm.afterWidth, SpecForm.widthPart, SpecForm.precisionPart,
      SpecForm.letterPart]
  · simp [SpecForm.spec_eq, ← hl]

theorem spec_ne_tooManyDigits (h : DigitRunsWithin digitLimit s) :
    spec s ≠ .error .tooManyDigits := by
  intro he
  have hs : (flag '0' (flag '#' (sign (fillAndAlign s).2.2).2).2).2 <:+ s :=
    (flag_suffix _ _).trans ((flag_suffix _ _).trans ((sign_suffix _).trans
      (fillAndAlign_suffix s)))
  rcases bind_eq_error_iff.mp he with hn | ⟨⟨width, t⟩, hn, he₁⟩
  · exact count_ne_tooManyDigits (h.of_infix hs.isInfix) hn
  · rcases bind_eq_error_iff.mp he₁ with hp | ⟨⟨precision, u⟩, -, he₂⟩
    · exact precision_ne_tooManyDigits (h.of_infix ((count_suffix hn).trans hs).isInfix) hp
    · cases he₂

theorem specAfterColon_partText {f : Option SpecForm} (hz : ∀ s ∈ f, s.ZeroIsFlag)
    (hf : ∀ s ∈ f, s.Fits) (r : List Char) :
    specAfterColon (partText (':' :: SpecForm.text ·) f ++ '\x7d' :: r) =
      .ok ((f.map SpecForm.spec).getD {}, '\x7d' :: r) := by
  cases f with
  | none => rfl
  | some f =>
    have := spec_text (hz f rfl) (hf f rfl) r
    simpa [partText, specAfterColon, flag] using this

theorem exists_of_specAfterColon {x : Spec} (h : specAfterColon s = .ok (x, rest)) :
    ∃ f : Option SpecForm, (∀ s ∈ f, s.ZeroIsFlag) ∧ (∀ s ∈ f, s.Fits) ∧
      s = partText (':' :: SpecForm.text ·) f ++ rest ∧ x = (f.map SpecForm.spec).getD {} := by
  unfold specAfterColon at h
  split at h <;> rename_i hs <;> obtain ⟨rfl, -⟩ := eq_of_flag hs
  · obtain ⟨f, hz, hf, rfl, rfl⟩ := exists_of_spec h
    exact ⟨some f, by simpa using hz, by simpa using hf, rfl, rfl⟩
  · cases h; exact ⟨none, by simp, by simp, rfl, rfl⟩

end Reader

theorem FieldForm.avoids_afterPosition (f : FieldForm) (r : List Char) :
    Avoids (fun c => c.isDigit = true)
      (partText (':' :: SpecForm.text ·) f.spec ++ '\x7d' :: r) := by
  refine .append ?_ (avoids_cons.mpr (by decide))
  cases f.spec with
  | none => simp [partText, Avoids]
  | some s => exact avoids_cons.mpr (by decide)

theorem FieldForm.number_text (f : FieldForm) (hf : f.Fits) (r : List Char) :
    Reader.number (partText DigitRun.text f.position ++
        (partText (':' :: SpecForm.text ·) f.spec ++ '\x7d' :: r)) =
      .ok (f.position.map DigitRun.value,
        partText (':' :: SpecForm.text ·) f.spec ++ '\x7d' :: r) :=
  Reader.number_partText hf.1 (f.avoids_afterPosition r)

namespace Reader

variable {s rest : List Char}

/-- A form in front of any text is read off it. -/
theorem field_text {f : FieldForm} (hz : f.ZeroIsFlag) (hf : f.Fits) (rest : List Char) :
    field (f.text ++ rest) = .ok (f.field, rest) := by
  have hs := specAfterColon_partText hz hf.2 rest
  simp only [FieldForm.text, List.cons_append, List.append_assoc, List.nil_append, field,
    delimiter_cons, f.number_text hf, hs, bind, Except.bind, pure, Except.pure, FieldForm.field]

/-- What is read begins with a form of the field. -/
theorem exists_of_field {x : Field} (h : field s = .ok (x, rest)) :
    ∃ f : FieldForm, f.ZeroIsFlag ∧ f.Fits ∧ s = f.text ++ rest ∧ x = f.field := by
  obtain ⟨s₁, h₁, h⟩ := bind_eq_ok_iff.mp h
  obtain ⟨⟨position, s₂⟩, h₂, h⟩ := bind_eq_ok_iff.mp h
  obtain ⟨⟨spec, s₃⟩, h₃, h⟩ := bind_eq_ok_iff.mp h
  obtain ⟨s₄, h₄, h⟩ := bind_eq_ok_iff.mp h
  cases h
  obtain rfl := eq_cons_of_delimiter h₁
  obtain ⟨p, rfl, rfl, hp⟩ := exists_of_number h₂
  obtain ⟨f, hz, hf, rfl, rfl⟩ := exists_of_specAfterColon h₃
  obtain rfl := eq_cons_of_delimiter h₄
  exact ⟨⟨p, f⟩, hz, ⟨hp, hf⟩, by simp [FieldForm.text], rfl⟩

theorem field_ne_tooManyDigits (h : DigitRunsWithin digitLimit s) :
    field s ≠ .error .tooManyDigits := by
  intro he
  rcases bind_eq_error_iff.mp he with hd | ⟨s₁, h₁, he₁⟩
  · exact delimiter_ne_tooManyDigits hd
  have hs₁ := h.of_infix (delimiter_suffix h₁).isInfix
  rcases bind_eq_error_iff.mp he₁ with hn | ⟨⟨position, s₂⟩, h₂, he₂⟩
  · exact number_ne_tooManyDigits hs₁ hn
  have hs₂ := hs₁.of_infix (number_suffix h₂).isInfix
  rcases bind_eq_error_iff.mp he₂ with hs | ⟨⟨spec, s₃⟩, -, he₃⟩
  · have hf := flag_suffix ':' s₂
    unfold specAfterColon at hs
    split at hs <;> rename_i hc <;> rw [hc] at hf
    · exact spec_ne_tooManyDigits (hs₂.of_infix hf.isInfix) hs
    · cases hs
  · rcases bind_eq_error_iff.mp he₃ with hd | ⟨_, -, he₄⟩
    · exact delimiter_ne_tooManyDigits hd
    · cases he₄

end Reader

end Stencil
