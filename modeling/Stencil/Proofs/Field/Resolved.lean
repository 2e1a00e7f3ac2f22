import Stencil.Proofs.Field.Reading

/-! # Resolved fields

A field is resolved by writing out the index of its argument and the counts that it takes. Nothing
else of its text changes, and so it is read as the same field with the counts in place. In
particular the digits of a width do not look like the flag, since a width of zero is left out.
-/

namespace Stencil

def widthText (n : Nat) : List Char := if n = 0 then [] else natText n

def Count.replacements (text : List Char) : Count → List (List Char)
  | literal _ => []
  | argument _ => [text]

def Spec.replacements (width precision : Nat) (s : Spec) : List (List Char) :=
  s.width.replacements (widthText width) ++
    s.precision.elim [] (Count.replacements (natText precision))

/-- The text with its parts in braces replaced. -/
def replaceReferences (inside : Bool) (texts : List (List Char)) : List Char → List Char
  | [] => []
  | c :: s =>
    if inside then replaceReferences (c ≠ '\x7d') texts s
    else if c = '\x7b' then texts.headD [] ++ replaceReferences true texts.tail s
    else c :: replaceReferences false texts s

/-- The source of a field with an index for its position and texts for its references. -/
def resolvedSource (index : Nat) (texts : List (List Char)) (source : List Char) : List Char :=
  '\x7b' :: natText index ++ replaceReferences false texts (source.tail.dropWhile Char.isDigit)

section Replacing

variable {texts : List (List Char)} {s : List Char}

theorem replaceReferences_append (h : '\x7b' ∉ s) (t : List Char) :
    replaceReferences false texts (s ++ t) = s ++ replaceReferences false texts t := by
  induction s with
  | nil => rfl
  | cons c s ih =>
    rw [List.mem_cons, not_or] at h
    rw [List.cons_append, replaceReferences, if_neg Bool.false_ne_true, if_neg (Ne.symm h.1),
      ih h.2, List.cons_append]

theorem replaceReferences_eq_self (h : '\x7b' ∉ s) : replaceReferences false texts s = s := by
  have hs : replaceReferences false texts (s ++ []) = s ++ replaceReferences false texts [] :=
    replaceReferences_append h []
  simpa [replaceReferences] using hs

theorem replaceReferences_inside (h : '\x7d' ∉ s) (t : List Char) :
    replaceReferences true texts (s ++ '\x7d' :: t) = replaceReferences false texts t := by
  induction s with
  | nil => simp [replaceReferences]
  | cons c s ih =>
    rw [List.mem_cons, not_or] at h
    simp [replaceReferences, Ne.symm h.1, ih h.2]

theorem DigitRun.not_mem_text (run : DigitRun) {c : Char} (h : c.isDigit = false) :
    c ∉ run.text := by
  intro hc
  rw [run.isDigit c hc] at h
  cases h

theorem replaceReferences_reference (position : Option DigitRun) (text t : List Char) :
    replaceReferences false (text :: texts) ((CountForm.reference position).text ++ t) =
      text ++ replaceReferences false texts t := by
  have hp : '\x7d' ∉ partText DigitRun.text position := by
    cases position with
    | none => exact List.not_mem_nil
    | some run => exact run.not_mem_text rfl
  simp only [CountForm.text, replaceReferences, List.cons_append, List.append_assoc,
    List.nil_append, List.headD_cons, List.tail_cons, if_true, Bool.false_eq_true, if_false]
  rw [replaceReferences_inside hp]

end Replacing

def DigitRun.ofNat (n : Nat) : DigitRun :=
  ⟨natText n, Nat.toDigits_ne_nil, fun _ h => Nat.isDigit_of_mem_toDigits (by decide) (by decide) h⟩

@[simp] theorem DigitRun.value_ofNat (n : Nat) : (ofNat n).value = n :=
  Nat.ofDigitChars_ten_toDigits

theorem DigitRun.fits_ofNat {n : Nat} (h : n < 10 ^ digitLimit) : (ofNat n).Fits :=
  (Nat.length_toDigits_le_iff (by decide) (by decide)).mpr h

theorem head?_natText_ne_zero {n : Nat} (h : n ≠ 0) : (natText n).head? ≠ some '0' := by
  induction n using Nat.strongRecOn with
  | ind n ih =>
    by_cases hn : n < 10
    · rw [natText, Nat.toDigits_of_lt_base hn]
      simpa using h
    · have hlt : n / 10 < n := Nat.div_lt_self (Nat.pos_of_ne_zero h) (by decide)
      have := ih (n / 10) hlt (by omega)
      obtain ⟨c, t, ht⟩ := List.exists_cons_of_ne_nil (Nat.toDigits_ne_nil (n := n / 10) (b := 10))
      rw [natText, ht] at this
      rw [natText, Nat.toDigits_of_base_le (by decide) (Nat.le_of_not_lt hn), ht]
      exact this

def widthForm (n : Nat) : Option CountForm := if n = 0 then none else some (.digits (.ofNat n))

def precisionForm (n : Nat) : Option CountForm := some (.digits (.ofNat n))

theorem text_widthForm (n : Nat) : partText CountForm.text (widthForm n) = widthText n := by
  unfold widthForm widthText
  split <;> rfl

def CountForm.resolve (form : Option CountForm) : CountForm → Option CountForm
  | digits run => some (digits run)
  | reference _ => form

def SpecForm.resolve (width precision : Nat) (s : SpecForm) : SpecForm :=
  { s with
    width := s.width.bind (CountForm.resolve (widthForm width))
    precision := s.precision.bind (CountForm.resolve (precisionForm precision)) }

def FieldForm.resolve (index width precision : Nat) (f : FieldForm) : FieldForm :=
  ⟨some (.ofNat index), f.spec.map (SpecForm.resolve width precision)⟩

theorem CountForm.replace_text (n : CountForm) {form : Option CountForm} {text : List Char}
    (h : partText CountForm.text form = text) (texts : List (List Char)) (t : List Char) :
    replaceReferences false (n.count.replacements text ++ texts) (n.text ++ t) =
      partText CountForm.text (n.resolve form) ++ replaceReferences false texts t := by
  cases n with
  | digits run => exact replaceReferences_append (run.not_mem_text rfl) t
  | reference position => exact h ▸ replaceReferences_reference position text t

namespace SpecForm

variable (s : SpecForm) (width precision : Nat) {t : List Char}

theorem not_mem_letterPart : '\x7b' ∉ s.letterPart := by
  unfold letterPart
  cases s.letter with
  | none => exact List.not_mem_nil
  | some c => exact fun h => absurd (List.mem_singleton.mp h ▸ c.2) (by decide)

theorem replace_precisionPart (t : List Char) :
    replaceReferences false (s.spec.precision.elim [] (Count.replacements (natText precision)))
        (s.precisionPart ++ t) =
      (s.resolve width precision).precisionPart ++ replaceReferences false [] t := by
  obtain ⟨alignment, sign, alternate, zero, w, n, letter⟩ := s
  cases n with
  | none => rfl
  | some n =>
    have hform : partText CountForm.text (precisionForm precision) = natText precision := rfl
    have hn := n.replace_text hform [] t
    rw [List.append_nil] at hn
    have hpoint : '\x7b' ∉ ['.'] := by decide
    refine (replaceReferences_append hpoint _).trans ((congrArg ('.' :: ·) hn).trans ?_)
    cases n <;> rfl

theorem replace_widthPart (texts : List (List Char)) (t : List Char) :
    replaceReferences false (s.spec.width.replacements (widthText width) ++ texts)
        (s.widthPart ++ t) =
      (s.resolve width precision).widthPart ++ replaceReferences false texts t := by
  obtain ⟨alignment, sign, alternate, zero, n, p, letter⟩ := s
  cases n with
  | none => rfl
  | some n => exact n.replace_text (text_widthForm width) texts t

theorem not_mem_beforeWidth : '\x7b' ∉ partText AlignForm.text s.alignment ++
    (s.sign.glyph?.toList ++ (flagPart '#' s.alternate ++ flagPart '0' s.zero)) := by
  have ha : '\x7b' ∉ partText AlignForm.text s.alignment := by
    cases s.alignment with
    | none => exact List.not_mem_nil
    | some a =>
      obtain ⟨fill, align⟩ := a
      have hg : align.glyph ≠ '\x7b' := by cases align <;> decide
      cases fill with
      | none => simpa [partText, AlignForm.text] using hg.symm
      | some c => simpa [partText, AlignForm.text] using ⟨c.2.1.symm, hg.symm⟩
  have hs : '\x7b' ∉ s.sign.glyph?.toList := by cases s.sign <;> decide
  have hf : ∀ b, '\x7b' ∉ flagPart '#' b ∧ '\x7b' ∉ flagPart '0' b := by decide
  simp only [List.mem_append, not_or]
  exact ⟨ha, hs, (hf _).1, (hf _).2⟩

theorem replace_text (ht : '\x7b' ∉ t) :
    replaceReferences false (s.spec.replacements width precision) (s.text ++ t) =
      (s.resolve width precision).text ++ t := by
  have hl : '\x7b' ∉ s.letterPart ++ t := by
    rw [List.mem_append, not_or]
    exact ⟨s.not_mem_letterPart, ht⟩
  have htext (s : SpecForm) : s.text ++ t = (partText AlignForm.text s.alignment ++
      (s.sign.glyph?.toList ++ (flagPart '#' s.alternate ++ flagPart '0' s.zero))) ++
      (s.widthPart ++ (s.precisionPart ++ (s.letterPart ++ t))) := by
    simp only [text, options, afterSign, afterAlternate, afterZero, afterWidth, List.append_assoc]
  rw [htext, htext, replaceReferences_append s.not_mem_beforeWidth, Spec.replacements,
    s.replace_widthPart width precision, s.replace_precisionPart width precision,
    replaceReferences_eq_self hl]
  rfl

end SpecForm

namespace FieldForm

variable (f : FieldForm) (index width precision : Nat)

/-- The resolved source is the text of the resolved form. -/
theorem resolvedSource_text :
    resolvedSource index (f.field.spec.replacements width precision) f.text =
      (f.resolve index width precision).text := by
  have hs : replaceReferences false (f.field.spec.replacements width precision)
      (partText (':' :: SpecForm.text ·) f.spec ++ ['\x7d']) =
      partText (':' :: SpecForm.text ·) (f.resolve index width precision).spec ++ ['\x7d'] := by
    obtain ⟨position, spec⟩ := f
    cases spec with
    | none => rfl
    | some s =>
      have hcolon : '\x7b' ∉ [':'] := by decide
      have hbrace : '\x7b' ∉ ['\x7d'] := by decide
      exact (replaceReferences_append hcolon _).trans
        (congrArg (':' :: ·) (s.replace_text width precision hbrace))
  rw [resolvedSource, text, List.cons_append, List.cons_append, List.tail_cons,
    (Reader.digits_partText (f.avoids_afterPosition [])).2, hs]
  rfl

end FieldForm

/-- What a count can come to. A number that is taken may have as many digits as can be read. -/
def Count.Admits (n : Nat) : Count → Prop
  | literal m => n = m
  | argument _ => n < 10 ^ digitLimit

namespace CountForm

variable {n : CountForm} {value : Nat}

theorem fits_resolve {form : Option CountForm} (hn : n.Fits)
    (hform : value < 10 ^ digitLimit → ∀ m ∈ form, m.Fits) (h : n.count.Admits value) :
    ∀ m ∈ n.resolve form, m.Fits := by
  cases n with
  | digits run =>
    rintro m ⟨⟩
    exact hn
  | reference position => exact hform h

theorem fits_widthForm (h : value < 10 ^ digitLimit) : ∀ m ∈ widthForm value, m.Fits := by
  unfold widthForm
  split
  · rintro m ⟨⟩
  · rintro m ⟨⟩
    exact DigitRun.fits_ofNat h

theorem fits_precisionForm (h : value < 10 ^ digitLimit) : ∀ m ∈ precisionForm value, m.Fits := by
  rintro m ⟨⟩
  exact DigitRun.fits_ofNat h

theorem count_resolve_width (h : n.count.Admits value) :
    ((n.resolve (widthForm value)).map count).getD (.literal 0) = .literal value := by
  cases n with
  | digits run => exact congrArg Count.literal h.symm
  | reference position =>
    simp only [resolve, widthForm]
    split
    · next hz => rw [hz]; rfl
    · simp [count]

theorem count_resolve_precision (h : n.count.Admits value) :
    (n.resolve (precisionForm value)).map count = some (.literal value) := by
  cases n with
  | digits run => exact congrArg (some ∘ Count.literal) h.symm
  | reference position => simp [resolve, precisionForm, count]

end CountForm

namespace FieldForm

variable {f : FieldForm} {index width precision : Nat}

theorem zeroIsFlag_resolve (h : f.ZeroIsFlag) : (f.resolve index width precision).ZeroIsFlag := by
  intro s hs hz
  obtain ⟨t, ht, rfl⟩ := Option.map_eq_some_iff.mp hs
  have ht := h t ht hz
  obtain ⟨alignment, sign, alternate, zero, n, p, letter⟩ := t
  rcases n with - | run | position
  · exact ht
  · exact ht
  · simp only [SpecForm.resolve, SpecForm.widthPart, Option.bind_some, CountForm.resolve,
      text_widthForm, widthText]
    split
    · simp
    · next hne => exact head?_natText_ne_zero hne

theorem fits_resolve (hf : f.Fits) (hi : index < 10 ^ digitLimit)
    (hw : f.field.spec.width.Admits width)
    (hp : ∀ n ∈ f.field.spec.precision, n.Admits precision) :
    (f.resolve index width precision).Fits := by
  constructor
  · rintro run ⟨⟩
    exact DigitRun.fits_ofNat hi
  · intro s hs
    obtain ⟨t, ht, rfl⟩ := Option.map_eq_some_iff.mp hs
    obtain ⟨htw, htp⟩ := hf.2 t ht
    obtain ⟨position, spec⟩ := f
    cases ht
    constructor
    · intro m hm
      obtain ⟨n, hn, hm⟩ := Option.bind_eq_some_iff.mp hm
      refine CountForm.fits_resolve (htw n hn) CountForm.fits_widthForm ?_ m hm
      simpa [field, SpecForm.spec, hn] using hw
    · intro m hm
      obtain ⟨n, hn, hm⟩ := Option.bind_eq_some_iff.mp hm
      refine CountForm.fits_resolve (htp n hn) CountForm.fits_precisionForm ?_ m hm
      simpa [field, SpecForm.spec, hn] using hp

end FieldForm

theorem SpecForm.spec_resolve {s : SpecForm} {width precision : Nat}
    (hw : s.spec.width.Admits width) (hp : ∀ n ∈ s.spec.precision, n.Admits precision) :
    (s.resolve width precision).spec = { s.spec with
      width := .literal width
      precision := s.spec.precision.map fun _ => .literal precision } := by
  have hwidth : (s.resolve width precision).spec.width = .literal width := by
    obtain ⟨alignment, sign, alternate, zero, n, p, letter⟩ := s
    cases n with
    | none => exact congrArg Count.literal (Eq.symm hw)
    | some n => exact CountForm.count_resolve_width hw
  have hprecision : (s.resolve width precision).spec.precision =
      s.spec.precision.map fun _ => .literal precision := by
    obtain ⟨alignment, sign, alternate, zero, n, p, letter⟩ := s
    cases p with
    | none => rfl
    | some p => exact CountForm.count_resolve_precision (hp _ rfl)
  rw [← hwidth, ← hprecision]
  rfl

theorem FieldForm.field_resolve {f : FieldForm} {width precision : Nat} (index : Nat)
    (hw : f.field.spec.width.Admits width)
    (hp : ∀ n ∈ f.field.spec.precision, n.Admits precision) :
    (f.resolve index width precision).field = {
      position := some index
      spec := { f.field.spec with
        width := .literal width
        precision := f.field.spec.precision.map fun _ => .literal precision } } := by
  obtain ⟨position, spec⟩ := f
  have hi : (DigitRun.ofNat index).value = index := DigitRun.value_ofNat index
  cases spec with
  | none =>
    obtain rfl : width = 0 := hw
    simp [field, resolve, hi]
  | some s =>
    have hs := SpecForm.spec_resolve (s := s) hw hp
    simp [field, resolve, hi, hs]

end Stencil
