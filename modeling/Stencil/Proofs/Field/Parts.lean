import Mathlib.Data.List.TakeWhile
import Stencil.Proofs.Field.Form

/-! # Reading the parts of a form

Each part is read off the front of a text if what follows does not look like more of it, and what is
read begins with the text of such a part. Only a run of digits can be too long to be read.
-/

namespace Stencil

/-- No run of digits in the text is longer than the limit. -/
def DigitRunsWithin (limit : Nat) (s : List Char) : Prop :=
  ∀ run, run <:+: s → (∀ c ∈ run, c.isDigit = true) → run.length ≤ limit

namespace DigitRunsWithin

variable {limit : Nat} {s t : List Char}

theorem of_infix (h : DigitRunsWithin limit t) (hs : s <:+: t) : DigitRunsWithin limit s :=
  fun run hr => h run (hr.trans hs)

theorem left (h : DigitRunsWithin limit (s ++ t)) : DigitRunsWithin limit s :=
  h.of_infix (List.prefix_append s t).isInfix

theorem right (h : DigitRunsWithin limit (s ++ t)) : DigitRunsWithin limit t :=
  h.of_infix (List.suffix_append s t).isInfix

theorem tail {c : Char} (h : DigitRunsWithin limit (c :: s)) : DigitRunsWithin limit s :=
  h.of_infix (List.suffix_cons c s).isInfix

theorem of_length_le (h : s.length ≤ limit) : DigitRunsWithin limit s :=
  fun _ hr _ => Nat.le_trans hr.length_le h

end DigitRunsWithin

def isGlyph (c : Char) : Prop := (Align.ofGlyph? c).isSome = true

instance (c : Char) : Decidable (isGlyph c) := by unfold isGlyph; infer_instance

def Avoids (p : Char → Prop) (s : List Char) : Prop := ∀ c ∈ s.head?, ¬ p c

theorem Avoids.mono {p q : Char → Prop} {s : List Char} (h : Avoids p s) (hq : ∀ c, q c → p c) :
    Avoids q s :=
  fun c hc hqc => h c hc (hq c hqc)

theorem Avoids.append {p : Char → Prop} {s t : List Char} (hs : Avoids p s) (ht : Avoids p t) :
    Avoids p (s ++ t) := by
  cases s with
  | nil => exact ht
  | cons c s => exact hs

theorem avoids_cons {p : Char → Prop} {c : Char} {s : List Char} : Avoids p (c :: s) ↔ ¬ p c := by
  simp [Avoids]

namespace Reader

variable {s rest : List Char}

theorem delimiter_cons (c : Char) (rest : List Char) : delimiter c (c :: rest) = .ok rest := by
  simp [delimiter]

theorem flag_flagPart {c : Char} {b : Bool} (h : b = false → Avoids (· = c) rest) :
    flag c (flagPart c b ++ rest) = (b, rest) := by
  cases b with
  | true => simp [flagPart, flag]
  | false =>
    cases rest with
    | nil => rfl
    | cons d rest => simpa [flagPart, flag, Avoids] using h rfl

theorem flag_of_avoids {c : Char} (h : Avoids (· = c) rest) : flag c rest = (false, rest) :=
  flag_flagPart (b := false) fun _ => h

theorem eq_of_flag {c : Char} {b : Bool} (h : flag c s = (b, rest)) :
    s = flagPart c b ++ rest ∧ (b = false → Avoids (· = c) rest) := by
  cases s with
  | nil => cases h; simp [flagPart, Avoids]
  | cons d s =>
    simp only [flag] at h
    split at h
    · next hd => cases h; simp [flagPart, hd]
    · next hd => cases h; simp [flagPart, Avoids, hd]

theorem sign_glyph {g : Sign} (h : Avoids (fun c => c = '+' ∨ c = '-' ∨ c = ' ') rest) :
    sign (g.glyph?.toList ++ rest) = (g, rest) := by
  cases g with
  | unset =>
    cases rest with
    | nil => rfl
    | cons c rest =>
      simp only [avoids_cons, not_or] at h
      simp only [Sign.glyph?, Option.toList_none, List.nil_append, sign]
      split <;> simp_all
  | minus | plus | space => rfl

theorem eq_of_sign {g : Sign} (h : sign s = (g, rest)) : s = g.glyph?.toList ++ rest := by
  unfold sign at h
  split at h <;> cases h <;> rfl

theorem glyph_of_ofGlyph? {c : Char} {a : Align} (h : Align.ofGlyph? c = some a) : c = a.glyph := by
  unfold Align.ofGlyph? at h
  split at h <;> cases h <;> rfl

theorem ofGlyph?_glyph (a : Align) : Align.ofGlyph? a.glyph = some a := by
  cases a <;> rfl

theorem ofLetter?_isSome (c : {c : Char // c ∈ typeLetters}) :
    (Conversion.ofLetter? c.1).isSome = true :=
  (by decide : ∀ c ∈ typeLetters, (Conversion.ofLetter? c).isSome = true) c.1 c.2

theorem mem_typeLetters {c : Char} {x : Conversion × Case} (h : Conversion.ofLetter? c = some x) :
    c ∈ typeLetters := by
  unfold Conversion.ofLetter? at h
  split at h <;> first | decide | cases h

theorem conversion_partText {letter : Option {c : Char // c ∈ typeLetters}}
    (h : Avoids (· ∈ typeLetters) rest) :
    conversion (partText ([·.1]) letter ++ rest) = (letterConversion letter, rest) := by
  cases letter with
  | none =>
    cases rest with
    | nil => rfl
    | cons c rest =>
      have hc : Conversion.ofLetter? c = none := by
        cases hx : Conversion.ofLetter? c with
        | none => rfl
        | some x => exact absurd (mem_typeLetters hx) (avoids_cons.mp h)
      simp [partText, conversion, hc, letterConversion]
  | some c =>
    obtain ⟨x, hx⟩ := Option.isSome_iff_exists.mp (ofLetter?_isSome c)
    simp [partText, conversion, hx, letterConversion]

theorem exists_of_conversion {x : Conversion × Case} (h : conversion s = (x, rest)) :
    ∃ letter : Option {c : Char // c ∈ typeLetters},
      s = partText ([·.1]) letter ++ rest ∧ x = letterConversion letter := by
  cases s with
  | nil => cases h; exact ⟨none, rfl, rfl⟩
  | cons c s =>
    simp only [conversion] at h
    split at h
    · next hx =>
      cases h
      exact ⟨some ⟨c, mem_typeLetters hx⟩, rfl, by simp [letterConversion, hx]⟩
    · cases h; exact ⟨none, rfl, rfl⟩

theorem ofGlyph?_eq_none {c : Char} (h : ¬ isGlyph c) : Align.ofGlyph? c = none := by
  simpa [isGlyph] using h

theorem align_of_avoids (h : Avoids isGlyph s) : align s = (none, s) := by
  cases s with
  | nil => rfl
  | cons c s => simp [align, ofGlyph?_eq_none (avoids_cons.mp h)]

theorem fillAndAlign_partText {a : Option AlignForm} (hg : Avoids isGlyph rest)
    (hf : Avoids isFill rest ∨ Avoids isGlyph rest.tail) :
    fillAndAlign (partText AlignForm.text a ++ rest) =
      ((a.bind AlignForm.fill).map Subtype.val, a.map AlignForm.align, rest) := by
  cases a with
  | none =>
    simp only [partText, Option.elim_none, List.nil_append, Option.bind_none, Option.map_none]
    unfold fillAndAlign
    split
    · next c d rest =>
      rcases hf with hc | hd
      · have hb : c = '\x7b' ∨ c = '\x7d' := by
          simpa only [avoids_cons, isFill, not_and_or, not_not] using hc
        split <;> simp [hb, align_of_avoids hg]
      · simp [ofGlyph?_eq_none (avoids_cons.mp hd), align_of_avoids hg]
    · rw [align_of_avoids hg]
  | some a =>
    obtain ⟨fill, a⟩ := a
    cases fill with
    | some c =>
      have hc : ¬ (c.1 = '\x7b' ∨ c.1 = '\x7d') := not_or.mpr c.2
      simp [partText, AlignForm.text, fillAndAlign, ofGlyph?_glyph, hc]
    | none =>
      cases rest with
      | nil => simp [partText, AlignForm.text, fillAndAlign, align, ofGlyph?_glyph]
      | cons d rest =>
        simp [partText, AlignForm.text, fillAndAlign, align, ofGlyph?_glyph,
          ofGlyph?_eq_none (avoids_cons.mp hg)]

theorem exists_of_fillAndAlign {fill : Option Char} {a : Option Align}
    (h : fillAndAlign s = (fill, a, rest)) :
    ∃ form : Option AlignForm, s = partText AlignForm.text form ++ rest ∧
      fill = (form.bind AlignForm.fill).map Subtype.val ∧ a = form.map AlignForm.align := by
  have halign : ∀ {s}, (none, align s) = (fill, a, rest) →
      ∃ form : Option AlignForm, s = partText AlignForm.text form ++ rest ∧
        fill = (form.bind AlignForm.fill).map Subtype.val ∧ a = form.map AlignForm.align := by
    intro s h
    cases s with
    | nil => cases h; exact ⟨none, rfl, rfl, rfl⟩
    | cons c s =>
      simp only [align] at h
      split at h
      · next b hb =>
        cases h
        exact ⟨some ⟨none, b⟩, by simp [partText, AlignForm.text, glyph_of_ofGlyph? hb], rfl, rfl⟩
      · cases h; exact ⟨none, rfl, rfl, rfl⟩
  unfold fillAndAlign at h
  split at h
  · next c d t =>
    split at h
    · next b hb =>
      split at h
      · exact halign h
      · next hc =>
        cases h
        exact ⟨some ⟨some ⟨c, not_or.mp hc⟩, b⟩,
          by simp [partText, AlignForm.text, glyph_of_ofGlyph? hb], rfl, rfl⟩
    · exact halign h
  · exact halign h

theorem digits_append {s : List Char} (hs : ∀ c ∈ s, c.isDigit = true)
    (hr : Avoids (fun c => c.isDigit = true) rest) :
    (s ++ rest).takeWhile Char.isDigit = s ∧ (s ++ rest).dropWhile Char.isDigit = rest := by
  have hrest : rest.takeWhile Char.isDigit = [] ∧ rest.dropWhile Char.isDigit = rest := by
    cases rest with
    | nil => exact ⟨rfl, rfl⟩
    | cons c rest => simp [avoids_cons.mp hr]
  rw [List.takeWhile_append_of_pos hs, List.dropWhile_append_of_pos hs, hrest.1, hrest.2,
    List.append_nil]
  exact ⟨rfl, rfl⟩

theorem digits_partText {p : Option DigitRun} (hr : Avoids (fun c => c.isDigit = true) rest) :
    (partText DigitRun.text p ++ rest).takeWhile Char.isDigit = partText DigitRun.text p ∧
      (partText DigitRun.text p ++ rest).dropWhile Char.isDigit = rest := by
  cases p with
  | none => exact digits_append nofun hr
  | some run => exact digits_append run.isDigit hr

theorem number_partText {p : Option DigitRun}
    (hf : ∀ run ∈ p, run.Fits) (hr : Avoids (fun c => c.isDigit = true) rest) :
    number (partText DigitRun.text p ++ rest) = .ok (p.map DigitRun.value, rest) := by
  obtain ⟨htake, hdrop⟩ := digits_partText (p := p) hr
  simp only [number, htake, hdrop]
  cases p with
  | none => rfl
  | some run =>
    have hl : run.text.length ≤ digitLimit := hf run rfl
    simp [partText, run.ne_nil, hl, DigitRun.value]

theorem exists_of_number {n : Option Nat} (h : number s = .ok (n, rest)) :
    ∃ p : Option DigitRun, s = partText DigitRun.text p ++ rest ∧ n = p.map DigitRun.value ∧
      ∀ run ∈ p, run.Fits := by
  simp only [number] at h
  split at h
  · cases h; exact ⟨none, rfl, rfl, by simp⟩
  · next hne =>
    split at h
    · next hl =>
      cases h
      refine ⟨some ⟨_, hne, fun c hc => List.mem_takeWhile_imp hc⟩, ?_, rfl, ?_⟩
      · simp [partText, List.takeWhile_append_dropWhile]
      · rintro run ⟨⟩
        exact hl
    · cases h

theorem number_ne_tooManyDigits (h : DigitRunsWithin digitLimit s) :
    number s ≠ .error .tooManyDigits := by
  intro he
  simp only [number] at he
  split at he
  · cases he
  · split at he
    · cases he
    · next hl =>
      exact hl (h _ (List.takeWhile_prefix _).isInfix fun c hc => List.mem_takeWhile_imp hc)

theorem count_partText {n : Option CountForm}
    (hf : ∀ form ∈ n, form.Fits) (hr : Avoids (fun c => c.isDigit = true ∨ c = '\x7b') rest) :
    count (partText CountForm.text n ++ rest) = .ok (n.map CountForm.count, rest) := by
  cases n with
  | none =>
    have hb := flag_of_avoids (c := '\x7b') (hr.mono fun _ => .inr)
    have hn := number_partText (p := none) (by simp) (hr.mono fun _ => .inl)
    simp only [partText, Option.elim_none, List.nil_append] at hn ⊢
    simp only [count, hb, hn]
    rfl
  | some n =>
    have hf : n.Fits := hf n rfl
    cases n with
    | digits run =>
      have hrun : ∀ r ∈ some run, r.Fits := by
        rintro r ⟨⟩
        exact hf
      have hn := number_partText hrun (hr.mono fun _ => .inl)
      have hb : Avoids (· = '\x7b') (partText CountForm.text (some (.digits run)) ++ rest) := by
        obtain ⟨c, t, ht⟩ := List.exists_cons_of_ne_nil run.ne_nil
        have hc := run.isDigit c (by simp [ht])
        simp only [partText, Option.elim_some, CountForm.text, ht, List.cons_append, avoids_cons]
        rintro rfl
        simp at hc
      have := flag_of_avoids hb
      simp only [partText, Option.elim_some, CountForm.text] at hn this ⊢
      simp only [count, this, hn]
      rfl
    | reference p =>
      have hb : Avoids (fun c => c.isDigit = true) ('\x7d' :: rest) := avoids_cons.mpr (by decide)
      have hn := number_partText hf hb
      simp only [partText, Option.elim_some, CountForm.text, List.cons_append, List.append_assoc,
        List.nil_append] at hn ⊢
      simp only [count, flag, if_true, hn, bind, Except.bind, delimiter_cons]
      rfl

theorem exists_of_count {n : Option Count} (h : count s = .ok (n, rest)) :
    ∃ form : Option CountForm, s = partText CountForm.text form ++ rest ∧
      n = form.map CountForm.count ∧ ∀ m ∈ form, m.Fits := by
  unfold count at h
  split at h
  · next t hs =>
    obtain ⟨⟨p, u⟩, hn, h⟩ := bind_eq_ok_iff.mp h
    obtain ⟨v, hd, h⟩ := bind_eq_ok_iff.mp h
    cases h
    obtain ⟨form, rfl, rfl, hf⟩ := exists_of_number hn
    obtain ⟨rfl, -⟩ := eq_of_flag hs
    obtain rfl := eq_cons_of_delimiter hd
    refine ⟨some (.reference form), by simp [partText, CountForm.text, flagPart], rfl, ?_⟩
    rintro m ⟨⟩
    exact hf
  · next t hs =>
    obtain ⟨⟨p, u⟩, hn, h⟩ := bind_eq_ok_iff.mp h
    cases h
    obtain ⟨form, rfl, rfl, hf⟩ := exists_of_number hn
    obtain ⟨rfl, -⟩ := eq_of_flag hs
    cases form with
    | none => exact ⟨none, rfl, rfl, by simp⟩
    | some run =>
      refine ⟨some (.digits run), rfl, rfl, ?_⟩
      rintro m ⟨⟩
      exact hf run rfl

theorem delimiter_ne_tooManyDigits {c : Char} : delimiter c s ≠ .error .tooManyDigits := by
  intro h
  cases s with
  | nil => cases h
  | cons d s =>
    simp only [delimiter] at h
    split at h <;> cases h

theorem count_ne_tooManyDigits (h : DigitRunsWithin digitLimit s) :
    count s ≠ .error .tooManyDigits := by
  intro he
  have hf := flag_suffix '\x7b' s
  unfold count at he
  split at he <;> rename_i hs <;> rw [hs] at hf
  · rcases bind_eq_error_iff.mp he with hn | ⟨_, -, he⟩
    · exact number_ne_tooManyDigits (h.of_infix hf.isInfix) hn
    · rcases bind_eq_error_iff.mp he with hd | ⟨_, -, he⟩
      · exact delimiter_ne_tooManyDigits hd
      · cases he
  · rcases bind_eq_error_iff.mp he with hn | ⟨_, -, he⟩
    · exact number_ne_tooManyDigits (h.of_infix hf.isInfix) hn
    · cases he

theorem precision_partText {n : Option CountForm}
    (hf : ∀ form ∈ n, form.Fits)
    (hr : Avoids (fun c => c.isDigit = true ∨ c = '\x7b' ∨ c = '.') rest) :
    precision (partText ('.' :: CountForm.text ·) n ++ rest) =
      .ok (n.map CountForm.count, rest) := by
  cases n with
  | none =>
    have hb := flag_of_avoids (c := '.') (hr.mono fun _ h => .inr (.inr h))
    simp only [partText, Option.elim_none, List.nil_append, precision, hb]
    rfl
  | some n =>
    have hn := count_partText hf (hr.mono fun _ h => h.imp_right .inl)
    simp only [partText, Option.elim_some, List.cons_append] at hn ⊢
    simp only [precision, flag, if_true, hn, bind, Except.bind]
    rfl

theorem exists_of_precision {n : Option Count} (h : precision s = .ok (n, rest)) :
    ∃ form : Option CountForm, s = partText ('.' :: CountForm.text ·) form ++ rest ∧
      n = form.map CountForm.count ∧ ∀ m ∈ form, m.Fits := by
  unfold precision at h
  split at h <;> rename_i hs <;> obtain ⟨rfl, -⟩ := eq_of_flag hs
  · obtain ⟨⟨m, t⟩, hn, h⟩ := bind_eq_ok_iff.mp h
    obtain ⟨form, rfl, rfl, hf⟩ := exists_of_count hn
    cases form with
    | none => cases h
    | some form => cases h; exact ⟨some form, rfl, rfl, hf⟩
  · cases h; exact ⟨none, rfl, rfl, by simp⟩

theorem precision_ne_tooManyDigits (h : DigitRunsWithin digitLimit s) :
    precision s ≠ .error .tooManyDigits := by
  intro he
  have hf := flag_suffix '.' s
  unfold precision at he
  split at he <;> rename_i hs <;> rw [hs] at hf
  · rcases bind_eq_error_iff.mp he with hn | ⟨⟨m, t⟩, -, he⟩
    · exact count_ne_tooManyDigits (h.of_infix hf.isInfix) hn
    · cases m <;> cases he
  · cases he

end Reader

end Stencil
