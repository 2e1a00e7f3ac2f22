import Stencil.Proofs.Field.Resolved

/-! # Canonical texts of fields

Every field has a canonical text. Its numbers have no zeros in front, an alignment has its fill before
it, a width of zero is left out, and so are options that say nothing. Whatever stands around it, the
field is read back from this text, and nothing is read that has none.
-/

namespace Stencil

def Count.text : Count → List Char
  | literal n => natText n
  | argument position => '\x7b' :: partText natText position ++ ['\x7d']

/-- A width of zero is no different from none. -/
def Count.widthText (n : Count) : List Char := if n = .literal 0 then [] else n.text

def Spec.text (s : Spec) : List Char :=
  partText (fun a => s.fill ++ [a.glyph]) s.align ++ (s.sign.glyph?.toList ++
    (flagPart '#' s.alternate ++ (flagPart '0' s.zeroPad ++ (s.width.widthText ++
      (partText ('.' :: Count.text ·) s.precision ++ s.letter?.toList)))))

/-- The canonical text of a field, without a colon if there is no option to follow it. -/
def Field.text (f : Field) : List Char :=
  '\x7b' :: partText natText f.position ++
    ((if f.spec = {} then [] else ':' :: f.spec.text) ++ ['\x7d'])

/-- What the options of a field have in common, however they are written. Without an alignment there
is nothing to fill with, and the flag would have set one. -/
structure Spec.WellFormed (s : Spec) : Prop where
  fill : ∃ c, s.fill = [c] ∧ isFill c
  letter : (s.conversion, s.case) = (.standard, .lower) ∨
    ∃ c, Conversion.ofLetter? c = some (s.conversion, s.case)
  unaligned : s.align = none → s.fill = [' '] ∧ s.zeroPad = false

def Field.WellFormed (f : Field) : Prop := f.spec.WellFormed

def Count.numbers : Count → List Nat
  | literal n => [n]
  | argument position => position.toList

def Spec.numbers (s : Spec) : List Nat := s.width.numbers ++ s.precision.elim [] Count.numbers

def Field.numbers (f : Field) : List Nat := f.position.toList ++ f.spec.numbers

/-- A number that has no more digits than can be read. -/
abbrev Readable (n : Nat) : Prop := n < 10 ^ digitLimit

def positionForm (position : Option Nat) : Option DigitRun := position.map .ofNat

theorem text_positionForm (position : Option Nat) :
    partText DigitRun.text (positionForm position) = partText natText position := by
  cases position <;> rfl

theorem value_positionForm (position : Option Nat) :
    (positionForm position).map DigitRun.value = position := by
  cases position <;> simp [positionForm]

theorem fits_positionForm {position : Option Nat} (h : ∀ n ∈ position.toList, Readable n) :
    ∀ run ∈ positionForm position, run.Fits := by
  intro run hrun
  obtain ⟨n, rfl, rfl⟩ := Option.map_eq_some_iff.mp hrun
  exact DigitRun.fits_ofNat (h n (List.mem_singleton_self n))

namespace Count

def form : Count → CountForm
  | literal n => .digits (.ofNat n)
  | argument position => .reference (positionForm position)

variable {n : Count}

theorem text_form (n : Count) : n.form.text = n.text := by
  cases n with
  | literal n => rfl
  | argument position => simp only [form, CountForm.text, text_positionForm, text]

theorem count_form (n : Count) : n.form.count = n := by
  cases n with
  | literal n => simp [form, CountForm.count]
  | argument position => simp only [form, CountForm.count, value_positionForm]

theorem fits_form (h : ∀ m ∈ n.numbers, Readable m) : n.form.Fits := by
  cases n with
  | literal n => exact DigitRun.fits_ofNat (h n (List.mem_singleton_self n))
  | argument position => exact fits_positionForm h

def widthForm (n : Count) : Option CountForm := if n = .literal 0 then none else some n.form

theorem text_widthForm (n : Count) : partText CountForm.text n.widthForm = n.widthText := by
  unfold widthForm widthText
  split
  · rfl
  · exact n.text_form

theorem count_widthForm (n : Count) :
    (n.widthForm.map CountForm.count).getD (.literal 0) = n := by
  unfold widthForm
  split
  · next h => exact h.symm
  · exact n.count_form

theorem fits_widthForm (h : ∀ m ∈ n.numbers, Readable m) : ∀ form ∈ n.widthForm, form.Fits := by
  unfold widthForm
  split
  · rintro form ⟨⟩
  · rintro form ⟨⟩
    exact fits_form h

theorem head?_widthText (n : Count) : n.widthText.head? ≠ some '0' := by
  unfold widthText
  split
  · simp
  · next h =>
    cases n with
    | literal n => exact head?_natText_ne_zero fun hn => h (congrArg Count.literal hn)
    | argument position => simp [text]

end Count

theorem Spec.letter?_of_ofLetter? {s : Spec} {c : Char}
    (h : Conversion.ofLetter? c = some (s.conversion, s.case)) : s.letter? = some c := by
  unfold Conversion.ofLetter? at h
  split at h <;> simp only [Option.some.injEq, Prod.mk.injEq, reduceCtorEq] at h <;>
    simp [letter?, ← h.1, ← h.2, Conversion.letter?]

namespace Spec.WellFormed

variable {s : Spec}

theorem exists_alignForm (h : s.WellFormed) : ∃ form : Option AlignForm,
    partText AlignForm.text form = partText (fun a => s.fill ++ [a.glyph]) s.align ∧
      form.map AlignForm.align = s.align ∧
      [((form.bind AlignForm.fill).map Subtype.val).getD ' '] = s.fill := by
  obtain ⟨c, hfill, hc⟩ := h.fill
  cases ha : s.align with
  | none => exact ⟨none, rfl, rfl, (h.unaligned ha).1.symm⟩
  | some a => exact ⟨some ⟨some ⟨c, hc⟩, a⟩, by rw [hfill]; rfl, rfl, hfill.symm⟩

theorem exists_letter (h : s.WellFormed) : ∃ letter : Option {c : Char // c ∈ typeLetters},
    partText ([·.1]) letter = s.letter?.toList ∧
      letterConversion letter = (s.conversion, s.case) := by
  rcases h.letter with hl | ⟨c, hc⟩
  · rw [Prod.mk.injEq] at hl
    refine ⟨none, ?_, by rw [hl.1, hl.2]; rfl⟩
    simp [partText, letter?, hl.1, hl.2, Conversion.letter?]
  · refine ⟨some ⟨c, Reader.mem_typeLetters hc⟩, ?_, ?_⟩
    · rw [letter?_of_ofLetter? hc]
      rfl
    · simp [letterConversion, hc]

theorem exists_form (h : s.WellFormed) (hn : ∀ n ∈ s.numbers, Readable n) :
    ∃ form : SpecForm, form.ZeroIsFlag ∧ form.Fits ∧ form.text = s.text ∧ form.spec = s := by
  obtain ⟨alignForm, hatext, halign, hfill⟩ := h.exists_alignForm
  obtain ⟨letter, hltext, hletter⟩ := h.exists_letter
  let form : SpecForm := ⟨alignForm, s.sign, s.alternate, s.zeroPad, s.width.widthForm,
    s.precision.map Count.form, letter⟩
  have hptext : form.precisionPart = partText ('.' :: Count.text ·) s.precision := by
    simp only [form, SpecForm.precisionPart]
    cases s.precision with
    | none => rfl
    | some n => exact congrArg ('.' :: ·) n.text_form
  have hprecision : (s.precision.map Count.form).map CountForm.count = s.precision := by
    cases s.precision with
    | none => rfl
    | some n => exact congrArg some n.count_form
  refine ⟨form, ?_, ⟨?_, ?_⟩, ?_, ?_⟩
  · intro _
    rw [SpecForm.widthPart, s.width.text_widthForm]
    exact s.width.head?_widthText
  · exact Count.fits_widthForm fun m hm => hn m (List.mem_append_left _ hm)
  · intro n hform
    obtain ⟨m, hm, rfl⟩ := Option.map_eq_some_iff.mp hform
    refine Count.fits_form fun k hk => hn k (List.mem_append_right _ ?_)
    rw [hm]
    exact hk
  · simp only [SpecForm.text, SpecForm.options, SpecForm.afterSign, SpecForm.afterAlternate,
      SpecForm.afterZero, SpecForm.afterWidth, hptext]
    simp only [form, SpecForm.widthPart, SpecForm.letterPart, hatext, hltext,
      s.width.text_widthForm, text]
  · -- The flag comes with an alignment, so that it does not set one.
    have hflag : ¬ (s.zeroPad = true ∧ alignForm = none) := by
      rintro ⟨hz, rfl⟩
      rw [(h.unaligned halign.symm).2] at hz
      cases hz
    simp only [form, SpecForm.spec, if_neg hflag, hfill, halign, s.width.count_widthForm,
      hprecision, hletter]

end Spec.WellFormed

theorem Field.WellFormed.exists_form {f : Field} (h : f.WellFormed)
    (hn : ∀ n ∈ f.numbers, Readable n) :
    ∃ form : FieldForm, form.ZeroIsFlag ∧ form.Fits ∧ form.text = f.text ∧ form.field = f := by
  have hposition := fits_positionForm fun n hp => hn n (List.mem_append_left _ hp)
  by_cases hs : f.spec = {}
  · refine ⟨⟨positionForm f.position, none⟩, by simp [FieldForm.ZeroIsFlag],
      ⟨hposition, by simp⟩, ?_, ?_⟩
    · rw [FieldForm.text, text, text_positionForm, if_pos hs]
      rfl
    · rw [FieldForm.field, value_positionForm]
      cases f
      exact congrArg (Field.mk _) hs.symm
  · obtain ⟨form, hz, hf, htext, hspec⟩ :=
      Spec.WellFormed.exists_form h fun n hp => hn n (List.mem_append_right _ hp)
    refine ⟨⟨positionForm f.position, some form⟩, by simpa [FieldForm.ZeroIsFlag] using hz,
      ⟨hposition, by simpa using hf⟩, ?_, ?_⟩
    · rw [FieldForm.text, text, text_positionForm, if_neg hs, ← htext]
      rfl
    · rw [FieldForm.field, value_positionForm]
      cases f
      exact congrArg (Field.mk _) hspec

theorem DigitRun.value_lt (run : DigitRun) : run.value < 10 ^ run.text.length := by
  have hlt : ∀ s : List Char, (∀ c ∈ s, c.isDigit = true) →
      Nat.ofDigitChars 10 s 0 < 10 ^ s.length := by
    intro s hs
    induction s with
    | nil => simp
    | cons c s ih =>
      have hc : c.toNat - '0'.toNat ≤ 9 := by
        have hdigit := hs c (List.mem_cons_self ..)
        simp only [Char.isDigit, Bool.and_eq_true, decide_eq_true_eq] at hdigit
        have hle : c.toNat ≤ 57 := hdigit.2
        simp only [Char.reduceToNat]
        omega
      have hrest := ih fun d hd => hs d (List.mem_cons_of_mem _ hd)
      rw [Nat.ofDigitChars_cons, Nat.ofDigitChars_eq_ofDigitChars_zero, List.length_cons,
        Nat.pow_succ, Nat.mul_zero, Nat.zero_add]
      have := Nat.mul_le_mul_left (10 ^ s.length) hc
      omega
  exact hlt run.text run.isDigit

theorem DigitRun.Fits.readable {run : DigitRun} (h : run.Fits) : Readable run.value :=
  Nat.lt_of_lt_of_le run.value_lt (Nat.pow_le_pow_right (by decide) h)

theorem CountForm.Fits.readable {n : CountForm} (h : n.Fits) :
    ∀ m ∈ n.count.numbers, Readable m := by
  cases n with
  | digits run =>
    intro m hm
    obtain rfl := List.mem_singleton.mp hm
    exact DigitRun.Fits.readable h
  | reference position =>
    intro m hm
    obtain ⟨run, hrun, rfl⟩ := Option.map_eq_some_iff.mp (Option.mem_toList.mp hm)
    exact (h run hrun).readable

theorem SpecForm.wellFormed (s : SpecForm) : s.spec.WellFormed where
  fill := by
    unfold spec
    split
    · exact ⟨'0', rfl, by decide⟩
    · refine ⟨_, rfl, ?_⟩
      cases s.alignment.bind AlignForm.fill with
      | none => decide
      | some c => exact c.2
  letter := by
    cases hl : s.letter with
    | none => exact .inl (by rw [spec, hl]; rfl)
    | some c =>
      obtain ⟨x, hx⟩ := Option.isSome_iff_exists.mp (Reader.ofLetter?_isSome c)
      exact .inr ⟨c.1, by simp [spec, hl, letterConversion, hx]⟩
  unaligned := by
    unfold spec
    split
    · rintro ⟨⟩
    · next h =>
      intro ha
      have ha : s.alignment = none := Option.map_eq_none_iff.mp ha
      refine ⟨by rw [ha]; rfl, ?_⟩
      simpa [ha] using h

theorem SpecForm.Fits.readable {s : SpecForm} (h : s.Fits) : ∀ n ∈ s.spec.numbers, Readable n := by
  intro n hn
  rcases List.mem_append.mp hn with hn | hn
  · simp only [spec] at hn
    cases hw : s.width with
    | none =>
      rw [hw] at hn
      obtain rfl := List.mem_singleton.mp hn
      exact Nat.pow_pos (by decide)
    | some w =>
      rw [hw] at hn
      exact (h.1 w hw).readable n hn
  · simp only [spec] at hn
    cases hp : s.precision with
    | none =>
      rw [hp] at hn
      cases hn
    | some p =>
      rw [hp] at hn
      exact (h.2 p hp).readable n hn

theorem FieldForm.wellFormed (f : FieldForm) : f.field.WellFormed := by
  cases hs : f.spec with
  | none =>
    rw [Field.WellFormed, field, hs]
    exact ⟨⟨' ', rfl, by decide⟩, .inl rfl, fun _ => ⟨rfl, rfl⟩⟩
  | some s =>
    rw [Field.WellFormed, field, hs]
    exact s.wellFormed

theorem FieldForm.Fits.readable {f : FieldForm} (h : f.Fits) :
    ∀ n ∈ f.field.numbers, Readable n := by
  intro n hn
  rcases List.mem_append.mp hn with hn | hn
  · obtain ⟨run, hrun, rfl⟩ := Option.map_eq_some_iff.mp (Option.mem_toList.mp hn)
    exact (h.1 run hrun).readable
  · cases hs : f.spec with
    | none =>
      rw [field, hs] at hn
      obtain rfl := List.mem_singleton.mp hn
      exact Nat.pow_pos (by decide)
    | some s =>
      rw [field, hs] at hn
      exact (h.2 s hs).readable n hn

/-- Reading and writing fields are inverse. What is read is well formed, and every well-formed field
is read from its text, which it takes up exactly. -/
theorem Field.readAt_text :
    (∀ start text f n, readAt start text = .ok (f, n) → f.WellFormed) ∧
    ∀ f : Field, f.WellFormed → (∀ n ∈ f.numbers, Readable n) → ∀ before after,
      readAt before.length (before ++ f.text ++ after) = .ok (f, f.text.length) := by
  constructor
  · intro start text f n h
    simp only [readAt] at h
    split at h
    · next x rest hx =>
      cases h
      obtain ⟨form, -, -, -, rfl⟩ := Reader.exists_of_field hx
      exact form.wellFormed
    · cases h
  · intro f h hn before after
    obtain ⟨form, hz, hf, htext, hfield⟩ := h.exists_form hn
    have hread := Reader.field_text hz hf after
    rw [htext, hfield] at hread
    rw [readAt, List.append_assoc, List.drop_left]
    simp [hread]

/-- Every option is given, the fill is an alignment, and the width is a reference. -/
theorem Field.readAt_text_all_options :
    let f : Field := ⟨some 12, {
      fill := ['<'], align := some .afterSign, sign := .space, alternate := true, zeroPad := true
      width := .argument none, precision := some (.literal 0), conversion := .general
      case := .upper }⟩
    f.text = "\x7b12:<= #0\x7b\x7d.0G\x7d".toList ∧
      readAt 2 ("\x7b\x7b".toList ++ f.text ++ "\x7d\x7d".toList) = .ok (f, 15) := by
  intro f
  have h : f.WellFormed := ⟨⟨'<', rfl, by decide⟩, .inr ⟨'G', rfl⟩, by rintro ⟨⟩⟩
  have hn : ∀ n ∈ f.numbers, Readable n := by decide +kernel
  exact ⟨by decide +kernel, readAt_text.2 f h hn "\x7b\x7b".toList "\x7d\x7d".toList⟩

end Stencil
