import Stencil.Proofs.Field.Reading

/-! # The field grammar is unambiguous

Once a zero in front of the width is taken for the flag, a text begins with at most one form, since
the reader finds every part of it with the same rest. A form in which it is taken for a digit has
the text of one in which it is the flag. So a field can be read off a text exactly if the grammar
derives one of its prefixes, and what is read is the field of the only derivation.
-/

namespace Stencil

variable {r r' : List Char}

theorem partText_injective {α : Type} {text : α → List Char} (hi : Function.Injective text)
    (hn : ∀ a, text a ≠ []) : Function.Injective (partText text) := by
  intro a b h
  cases a <;> cases b <;> simp only [partText, Option.elim_none, Option.elim_some] at h
  · rfl
  · exact absurd h.symm (hn _)
  · exact absurd h (hn _)
  · rw [hi h]

theorem positionText_injective : Function.Injective (partText DigitRun.text) :=
  partText_injective (fun _ _ => DigitRun.ext) DigitRun.ne_nil

theorem CountForm.text_ne_nil (n : CountForm) : n.text ≠ [] := by
  cases n with
  | digits run => exact run.ne_nil
  | reference position => simp [CountForm.text]

theorem CountForm.text_injective : Function.Injective CountForm.text := by
  have hne : ∀ (run : DigitRun) position, run.text ≠ (CountForm.reference position).text := by
    intro run position h
    have := run.isDigit '\x7b' (by rw [h]; simp [CountForm.text])
    simp at this
  intro m n h
  cases m with
  | digits run =>
    cases n with
    | digits run' => rw [DigitRun.ext h]
    | reference position => exact absurd h (hne run position)
  | reference position =>
    cases n with
    | digits run => exact absurd h.symm (hne run position)
    | reference position' =>
      simp only [CountForm.text, List.cons_append, List.cons.injEq, true_and] at h
      rw [positionText_injective (List.append_cancel_right h)]

theorem letterPart_injective :
    Function.Injective (partText fun c : {c : Char // c ∈ typeLetters} => [c.1]) :=
  partText_injective (fun _ _ h => Subtype.ext (List.singleton_inj.mp h))
    fun _ => List.cons_ne_nil _ _

theorem alignForm_eq {a b : Option AlignForm}
    (hf : (a.bind AlignForm.fill).map Subtype.val = (b.bind AlignForm.fill).map Subtype.val)
    (ha : a.map AlignForm.align = b.map AlignForm.align) : a = b := by
  cases a with
  | none =>
    cases b with
    | none => rfl
    | some b => cases ha
  | some a =>
    cases b with
    | none => cases ha
    | some b =>
      obtain ⟨fill, a⟩ := a
      obtain ⟨fill', b⟩ := b
      have hf : fill = fill' := Option.map_injective Subtype.val_injective hf
      have ha : a = b := Option.some.inj ha
      rw [hf, ha]

/-- The reader finds the same parts whichever of two forms is taken to stand in front, and leaves
the same text after each. -/
theorem SpecForm.eq_of_text_append_eq {f g : SpecForm} (hf : f.ZeroIsFlag) (hg : g.ZeroIsFlag)
    (hff : f.Fits) (hfg : g.Fits)
    (h : f.text ++ '\x7d' :: r = g.text ++ '\x7d' :: r') : f = g := by
  have h₁ := congrArg Reader.fillAndAlign h
  rw [f.fillAndAlign_text, g.fillAndAlign_text, Prod.mk.injEq, Prod.mk.injEq] at h₁
  have h₂ := congrArg Reader.sign h₁.2.2
  rw [f.sign_options, g.sign_options, Prod.mk.injEq] at h₂
  have h₃ := congrArg (Reader.flag '#') h₂.2
  rw [f.flag_afterSign, g.flag_afterSign, Prod.mk.injEq] at h₃
  have h₄ := congrArg (Reader.flag '0') h₃.2
  rw [f.flag_afterAlternate r hf, g.flag_afterAlternate r' hg, Prod.mk.injEq] at h₄
  have h₅ := congrArg Reader.count h₄.2
  rw [f.count_afterZero r hff, g.count_afterZero r' hfg, Except.ok.injEq, Prod.mk.injEq] at h₅
  have h₆ := congrArg Reader.precision h₅.2
  rw [f.precision_afterWidth r hff, g.precision_afterWidth r' hfg, Except.ok.injEq,
    Prod.mk.injEq] at h₆
  have h₇ := congrArg Reader.conversion h₆.2
  rw [f.conversion_letterPart, g.conversion_letterPart, Prod.mk.injEq] at h₇
  -- What is left after a part is the same, and so the part has the same text.
  have hw : f.widthPart = g.widthPart := by
    have := h₄.2
    rw [afterZero, afterZero, List.append_assoc, List.append_assoc, h₅.2] at this
    exact List.append_cancel_right this
  have hp : f.precisionPart = g.precisionPart := by
    have := h₅.2
    rw [afterWidth, afterWidth, List.append_assoc, List.append_assoc, h₆.2] at this
    exact List.append_cancel_right this
  have hl : f.letterPart = g.letterPart := by
    have := h₆.2
    rw [h₇.2] at this
    exact List.append_cancel_right this
  have ha : f.alignment = g.alignment := alignForm_eq h₁.1 h₁.2.1
  have hw : f.width = g.width :=
    partText_injective CountForm.text_injective CountForm.text_ne_nil hw
  have hp : f.precision = g.precision :=
    partText_injective (fun _ _ h => CountForm.text_injective (List.cons.inj h).2)
      (fun _ => List.cons_ne_nil _ _) hp
  cases f; cases g
  simp_all [letterPart_injective.eq_iff, SpecForm.letterPart]

theorem FieldForm.eq_of_text_append_eq {f g : FieldForm} (hf : f.ZeroIsFlag) (hg : g.ZeroIsFlag)
    (hff : f.Fits) (hfg : g.Fits)
    (h : f.text ++ r = g.text ++ r') : f = g ∧ r = r' := by
  have hr : f.field = g.field ∧ r = r' := by
    have h₁ := congrArg Reader.field h
    rwa [Reader.field_text hf hff, Reader.field_text hg hfg, Except.ok.injEq, Prod.mk.injEq] at h₁
  obtain ⟨-, rfl⟩ := hr
  refine ⟨?_, rfl⟩
  simp only [FieldForm.text, List.cons_append, List.append_assoc, List.cons.injEq, true_and,
    List.nil_append] at h
  have h₂ := congrArg Reader.number h
  rw [f.number_text hff, g.number_text hfg, Except.ok.injEq, Prod.mk.injEq] at h₂
  have hp : f.position = g.position := by
    rw [h₂.2] at h
    exact positionText_injective (List.append_cancel_right h)
  have hs : f.spec = g.spec := by
    have hs := h₂.2
    cases hfs : f.spec with
    | none =>
      cases hgs : g.spec with
      | none => rfl
      | some t => simp [hfs, hgs, partText] at hs
    | some s =>
      cases hgs : g.spec with
      | none => simp [hfs, hgs, partText] at hs
      | some t =>
        simp only [hfs, hgs, partText, Option.elim_some, List.cons_append, List.cons.injEq,
          true_and] at hs
        rw [SpecForm.eq_of_text_append_eq (hf s hfs) (hg t hgs) (hff.2 s hfs) (hfg.2 t hgs) hs]
  cases f; cases g
  simp_all

theorem CountForm.fits {n : CountForm} (h : DigitRunsWithin digitLimit n.text) : n.Fits := by
  cases n with
  | digits run => exact h _ List.infix_rfl run.isDigit
  | reference position =>
    rintro run ⟨⟩
    exact h.left.tail _ List.infix_rfl run.isDigit

theorem SpecForm.fits {f : SpecForm} (h : DigitRunsWithin digitLimit f.text) : f.Fits := by
  have hw := h.right.right.right.right.left
  have hp := h.right.right.right.right.right.left
  constructor
  · intro n hn
    rw [widthPart, hn] at hw
    exact CountForm.fits hw
  · intro n hn
    rw [precisionPart, hn] at hp
    exact CountForm.fits (DigitRunsWithin.tail hp)

theorem FieldForm.fits {f : FieldForm} (h : DigitRunsWithin digitLimit f.text) : f.Fits := by
  have hp := h.left.tail
  have hs := h.right.left
  constructor
  · intro run hrun
    rw [hrun] at hp
    exact hp _ List.infix_rfl run.isDigit
  · intro s hspec
    rw [hspec] at hs
    exact SpecForm.fits (DigitRunsWithin.tail hs)

theorem exists_tail_of_head? {run : DigitRun} {c : Char} (h : run.text.head? = some c) :
    ∃ n : Option DigitRun, run.text = c :: partText DigitRun.text n := by
  obtain ⟨t, ht⟩ := List.head?_eq_some_iff.mp h
  by_cases hn : t = []
  · exact ⟨none, by rw [ht, hn]; rfl⟩
  · have ht' : ∀ d ∈ t, d.isDigit = true :=
      fun d hd => run.isDigit d (by rw [ht]; exact List.mem_cons_of_mem _ hd)
    exact ⟨some ⟨t, hn, ht'⟩, ht⟩

theorem SpecForm.exists_zeroIsFlag (f : SpecForm) :
    ∃ g : SpecForm, g.ZeroIsFlag ∧ g.text = f.text := by
  by_cases hf : f.ZeroIsFlag
  · exact ⟨f, hf, rfl⟩
  · simp only [ZeroIsFlag, not_forall, not_not] at hf
    obtain ⟨hz, hw⟩ := hf
    cases hn : f.width with
    | none => simp [widthPart, hn, partText] at hw
    | some n =>
      cases n with
      | reference position => simp [widthPart, hn, partText, CountForm.text] at hw
      | digits run =>
        have hw : run.text.head? = some '0' := by
          simpa [widthPart, hn, partText, CountForm.text] using hw
        obtain ⟨tail, ht⟩ := exists_tail_of_head? hw
        refine ⟨{ f with zero := true, width := tail.map .digits }, ?_, ?_⟩
        · rintro ⟨⟩
        · have htail :
              partText CountForm.text (tail.map .digits) = partText DigitRun.text tail := by
            cases tail <;> rfl
          simp only [text, options, afterSign, afterAlternate, afterZero, afterWidth, widthPart,
            precisionPart, letterPart, htail, hn, hz, flagPart, if_true]
          simp [partText, CountForm.text, ht]

theorem FieldForm.exists_zeroIsFlag (f : FieldForm) :
    ∃ g : FieldForm, g.ZeroIsFlag ∧ g.text = f.text := by
  obtain ⟨position, spec⟩ := f
  cases spec with
  | none => exact ⟨⟨position, none⟩, by simp [ZeroIsFlag], rfl⟩
  | some s =>
    obtain ⟨t, ht, he⟩ := s.exists_zeroIsFlag
    exact ⟨⟨position, some t⟩, by simpa [ZeroIsFlag] using ht, by simp [text, partText, he]⟩

section Prefixes

variable {s p q : List Char} (hd : DigitRunsWithin digitLimit s)

include hd

theorem exists_form_of_prefix (hp : p <+: s) (h : IsField p) :
    ∃ f : FieldForm, f.ZeroIsFlag ∧ f.text = p ∧ ∃ rest, s = p ++ rest ∧
      Reader.field s = .ok (f.field, rest) := by
  obtain ⟨f, rfl⟩ := h
  obtain ⟨g, hg, he⟩ := f.exists_zeroIsFlag
  obtain ⟨rest, rfl⟩ := hp
  refine ⟨g, hg, he, rest, rfl, ?_⟩
  rw [← he] at hd ⊢
  exact Reader.field_text hg (FieldForm.fits hd.left) rest

/-- The grammar derives at most one prefix of a text. -/
theorem IsField.prefix_unique (hp : p <+: s) (hq : q <+: s) (h : IsField p) (h' : IsField q) :
    p = q := by
  obtain ⟨f, -, -, rest, hs, hr⟩ := exists_form_of_prefix hd hp h
  obtain ⟨g, -, -, rest', hs', hr'⟩ := exists_form_of_prefix hd hq h'
  rw [hr, Except.ok.injEq, Prod.mk.injEq] at hr'
  rw [hs, hr'.2] at hs'
  exact List.append_cancel_right hs'

end Prefixes

theorem FieldForm.two_le_length (f : FieldForm) : 2 ≤ f.text.length := by
  simp [text]
  omega

/-- A field can be read exactly where the grammar derives one, which it then does in one way once a
zero in front of the width is the flag. What is read is the field that this derivation says, over
all of its text, and where there is none the report is that of a malformed field. -/
theorem Field.readAt_reads_derivation (text : List Char) (start : Nat)
    (hd : DigitRunsWithin digitLimit (text.drop start)) :
    ((∃ f n, Field.readAt start text = .ok (f, n)) ↔ ∃ p, p <+: text.drop start ∧ IsField p) ∧
    (∀ p q, p <+: text.drop start → q <+: text.drop start → IsField p → IsField q → p = q) ∧
    (∀ f n, Field.readAt start text = .ok (f, n) →
      2 ≤ n ∧ ∃ p, p <+: text.drop start ∧ p.length = n ∧
        (∃! form : FieldForm, form.ZeroIsFlag ∧ form.text = p) ∧
        ∀ form : FieldForm, form.ZeroIsFlag → form.text = p → f = form.field) ∧
    ∀ e, Field.readAt start text = .error e →
      ∃ wanted found offset, e = .malformedField wanted found offset := by
  refine ⟨⟨?_, ?_⟩, fun p q => IsField.prefix_unique hd, ?_, ?_⟩
  · rintro ⟨f, n, h⟩
    simp only [Field.readAt] at h
    split at h
    · next x rest hx =>
      obtain ⟨form, -, -, hs, -⟩ := Reader.exists_of_field hx
      exact ⟨form.text, ⟨rest, hs.symm⟩, form, rfl⟩
    · cases h
  · rintro ⟨p, hp, h⟩
    obtain ⟨form, -, -, rest, hs, hr⟩ := exists_form_of_prefix hd hp h
    refine ⟨form.field, (text.drop start).length - rest.length, ?_⟩
    simp only [Field.readAt, hr]
  · intro f n h
    simp only [Field.readAt] at h
    split at h
    · next x rest hx =>
      cases h
      obtain ⟨form, hz, hf, hs, rfl⟩ := Reader.exists_of_field hx
      have hn : (text.drop start).length - rest.length = form.text.length := by
        rw [hs, List.length_append, Nat.add_sub_cancel]
      have hu : ∀ form' : FieldForm, form'.ZeroIsFlag → form'.text = form.text → form' = form := by
        intro form' hz' he
        have hf' : form'.Fits := by
          rw [hs, ← he] at hd
          exact FieldForm.fits hd.left
        have hr : form'.text ++ rest = form.text ++ rest := by rw [he]
        exact (FieldForm.eq_of_text_append_eq hz' hz hf' hf hr).1
      refine ⟨hn ▸ form.two_le_length, form.text, ⟨rest, hs.symm⟩, hn.symm,
        ⟨form, ⟨hz, rfl⟩, fun form' h' => hu form' h'.1 h'.2⟩, fun form' hz' he => ?_⟩
      rw [hu form' hz' he]
    · cases h
  · intro e h
    simp only [Field.readAt] at h
    split at h
    · cases h
    · next fault hf =>
      cases h
      cases fault with
      | unexpected wanted rest => exact ⟨_, _, _, rfl⟩
      | tooManyDigits => exact absurd hf (Reader.field_ne_tooManyDigits hd)

/-- The zero is the flag, and the width is a reference. -/
theorem Field.readAt_reads_zero_flag :
    let text := "n = \x7b:0\x7b\x7d.3\x7d\x7b0\x7d".toList
    DigitRunsWithin digitLimit (text.drop 4) ∧ ∃ f n, Field.readAt 4 text = .ok (f, n) := by
  intro text
  have hd : DigitRunsWithin digitLimit (text.drop 4) := .of_length_le (by decide)
  let three : DigitRun := ⟨['3'], by simp, by simp⟩
  let form : FieldForm := ⟨none, some
    { zero := true, width := some (.reference none), precision := some (.digits three) }⟩
  have hp : form.text <+: text.drop 4 := ⟨"\x7b0\x7d".toList, rfl⟩
  exact ⟨hd, (Field.readAt_reads_derivation text 4 hd).1.mpr ⟨form.text, hp, form, rfl⟩⟩

end Stencil
