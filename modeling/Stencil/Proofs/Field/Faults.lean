import Mathlib.Data.Set.Operations
import Stencil.Proofs.Field.Lookahead
import Stencil.Proofs.Field.Unambiguous

/-! # Where reading a field fails

A malformed field is reported at the first character with which the text no longer begins a field,
and with it what would have gone on with one. Only a fill can be reported too early, since it is
told from any other character by the alignment behind it.
-/

namespace Stencil

variable {s rest : List Char} {wanted : Wanted}

def Wanted.Admits : Wanted → Char → Prop
  | delimiter d, c => c = d
  | countAfterPoint, c => c.isDigit = true ∨ c = '\x7b'

/-- What can be wanted after the part of a field that has been read. -/
def Wanted.IsAfter : Wanted → List Char → Prop
  | delimiter c, s => c = if s = [] then '\x7b' else '\x7d'
  | countAfterPoint, s => s.getLast? = some '.'

theorem Wanted.IsAfter.append_left (h : wanted.IsAfter s) (hs : s ≠ []) (t : List Char) :
    wanted.IsAfter (t ++ s) := by
  cases wanted with
  | delimiter c => simpa [IsAfter, hs] using h
  | countAfterPoint => simp_all [IsAfter, List.getLast?_append]

theorem Wanted.exists_admits (w : Wanted) : ∃ c, w.Admits c := by
  cases w with
  | delimiter d => exact ⟨d, rfl⟩
  | countAfterPoint => exact ⟨'\x7b', .inr rfl⟩

/-- Whether the text is the beginning of a field. -/
def IsViable (s : List Char) : Prop := ∃ p, s <+: p ∧ IsField p

theorem IsViable.of_append {t : List Char} (h : IsViable (s ++ t)) : IsViable s := by
  obtain ⟨p, hp, hfield⟩ := h
  exact ⟨p, (List.prefix_append s t).trans hp, hfield⟩

theorem FieldForm.isViable (f : FieldForm) (h : s <+: f.text) : IsViable s :=
  ⟨f.text, h, f, rfl⟩

def FieldForm.fill (f : FieldForm) : Option Char :=
  ((f.spec.bind SpecForm.alignment).bind AlignForm.fill).map Subtype.val

namespace Reader

theorem number_of_not_fits {run : DigitRun} (h : ¬ run.Fits) (r : List Char) :
    number (run.text ++ r) = .error .tooManyDigits := by
  rw [number_eq, List.takeWhile_append_of_pos run.isDigit, if_neg]
  intro hl
  rw [List.length_append] at hl
  exact h (Nat.le_trans (Nat.le_add_right _ _) hl)

theorem flag_brace_digits (run : DigitRun) (r : List Char) :
    flag '\x7b' (run.text ++ r) = (false, run.text ++ r) := by
  obtain ⟨c, t, ht⟩ := List.exists_cons_of_ne_nil run.ne_nil
  have hc := run.isDigit c (by simp [ht])
  rw [ht]
  refine flag_of_avoids (avoids_cons.mpr ?_)
  rintro rfl
  simp at hc

theorem exists_of_not_forall_mem {α : Type} {p : α → Prop} {part : Option α}
    (h : ¬ ∀ a ∈ part, p a) : ∃ a, part = some a ∧ ¬ p a := by
  simpa using h

theorem count_of_not_fits {n : CountForm} (h : ¬ n.Fits) (r : List Char) :
    count (n.text ++ r) = .error .tooManyDigits := by
  cases n with
  | digits run =>
    simp only [count, CountForm.text, flag_brace_digits, number_of_not_fits h, error_bind]
  | reference position =>
    obtain ⟨run, rfl, hrun⟩ := exists_of_not_forall_mem h
    have hn := number_of_not_fits hrun ('\x7d' :: r)
    simp only [CountForm.text, partText, Option.elim_some, List.cons_append, List.append_assoc,
      List.nil_append, count, flag, if_true, hn, error_bind]

theorem spec_of_not_fits {f : SpecForm} (hz : f.ZeroIsFlag) (h : ¬ f.Fits) (r : List Char) :
    spec (f.text ++ '\x7d' :: r) = .error .tooManyDigits := by
  have hspec (fault : Fault)
      (hcount : count (f.afterZero ++ '\x7d' :: r) = .error fault ∨
        ∃ n, count (f.afterZero ++ '\x7d' :: r) = .ok (n, f.afterWidth ++ '\x7d' :: r) ∧
          precision (f.afterWidth ++ '\x7d' :: r) = .error fault) :
      spec (f.text ++ '\x7d' :: r) = .error fault := by
    simp only [spec, f.fillAndAlign_text, f.sign_options, f.flag_afterSign,
      f.flag_afterAlternate r hz]
    rcases hcount with hcount | ⟨n, hcount, hprecision⟩
    · rw [hcount, error_bind]
    · rw [hcount, ok_bind]
      simp only [hprecision, error_bind]
  apply hspec
  by_cases hw : ∀ n ∈ f.width, n.Fits
  · obtain ⟨n, hn, hf⟩ := exists_of_not_forall_mem fun hp => h ⟨hw, hp⟩
    refine .inr ⟨f.width.map CountForm.count, ?_, ?_⟩
    · rw [SpecForm.afterZero, List.append_assoc]
      exact count_partText hw (f.avoids_afterWidth r (by decide))
    · have hcount := count_of_not_fits hf (f.letterPart ++ '\x7d' :: r)
      simp only [SpecForm.afterWidth, SpecForm.precisionPart, hn, partText, Option.elim_some,
        List.cons_append, List.append_assoc, precision, flag, if_true, hcount, error_bind]
  · obtain ⟨n, hn, hf⟩ := exists_of_not_forall_mem hw
    refine .inl ?_
    rw [SpecForm.afterZero, SpecForm.widthPart, hn, List.append_assoc]
    exact count_of_not_fits hf _

theorem field_of_not_fits {f : FieldForm} (hz : f.ZeroIsFlag) (h : ¬ f.Fits) (r : List Char) :
    field (f.text ++ r) = .error .tooManyDigits := by
  simp only [FieldForm.text, List.cons_append, List.append_assoc, List.nil_append, field,
    delimiter_cons, ok_bind]
  by_cases hp : ∀ run ∈ f.position, run.Fits
  · obtain ⟨spec, hspec, hf⟩ := exists_of_not_forall_mem fun hs => h ⟨hp, hs⟩
    have hs := spec_of_not_fits (hz spec hspec) hf r
    have ha : Avoids (fun c => c.isDigit = true) (':' :: (spec.text ++ '\x7d' :: r)) :=
      avoids_cons.mpr (by decide)
    rw [hspec]
    simp only [partText, Option.elim_some, List.cons_append]
    have hn := number_partText hp ha
    rw [partText] at hn
    rw [hn, ok_bind]
    simp only [specAfterColon, flag, if_true, hs, error_bind]
  · obtain ⟨run, hrun, hf⟩ := exists_of_not_forall_mem hp
    rw [hrun, partText, Option.elim_some, number_of_not_fits hf, error_bind]

theorem field_text_ne_unexpected {f : FieldForm} (hz : f.ZeroIsFlag) (r : List Char) :
    field (f.text ++ r) ≠ .error (.unexpected wanted rest) := by
  by_cases hf : f.Fits
  · rw [field_text hz hf]
    exact nofun
  · rw [field_of_not_fits hz hf]
    exact nofun

def FaultsInside (texts : Set (List Char)) (s : List Char) (wanted : Wanted)
    (rest : List Char) : Prop :=
  ∃ read, s = read ++ rest ∧ read ≠ [] ∧ wanted.IsAfter read ∧
    ∀ c, wanted.Admits c → ∃ t ∈ texts, read ++ [c] <+: t

theorem FaultsInside.append_left {texts texts' : Set (List Char)} {t : List Char}
    (h : FaultsInside texts s wanted rest) (ht : ∀ u ∈ texts, ∃ v ∈ texts', t ++ u <+: v) :
    FaultsInside texts' (t ++ s) wanted rest := by
  obtain ⟨read, rfl, hne, hafter, hwanted⟩ := h
  refine ⟨t ++ read, (List.append_assoc t read rest).symm, by simp [hne],
    hafter.append_left hne t, fun c hc => ?_⟩
  obtain ⟨u, hu, hp⟩ := hwanted c hc
  obtain ⟨v, hv, htu⟩ := ht u hu
  refine ⟨v, hv, List.IsPrefix.trans ?_ htu⟩
  rwa [List.append_assoc, List.prefix_append_right_inj]

theorem FaultsInside.of_closing {texts : Set (List Char)} {read : List Char} (hne : read ≠ [])
    (h : read ++ ['\x7d'] ∈ texts) (rest : List Char) :
    FaultsInside texts (read ++ rest) (.delimiter '\x7d') rest := by
  refine ⟨read, rfl, hne, by simp [Wanted.IsAfter, hne], ?_⟩
  rintro c rfl
  exact ⟨_, h, List.prefix_rfl⟩

theorem number_ne_unexpected : number s ≠ .error (.unexpected wanted rest) := by
  rw [number_eq]
  split <;> exact nofun

theorem eq_of_delimiter_fault {c : Char} {fault : Fault} (h : delimiter c s = .error fault) :
    fault = .unexpected (.delimiter c) s := by
  cases s with
  | nil => cases h; rfl
  | cons d s =>
    simp only [delimiter] at h
    split at h <;> cases h
    rfl

theorem count_faultsInside (h : count s = .error (.unexpected wanted rest)) :
    FaultsInside (Set.range CountForm.text) s wanted rest := by
  unfold count at h
  split at h
  · next hs =>
    obtain ⟨rfl, -⟩ := eq_of_flag hs
    rcases bind_eq_error_iff.mp h with hn | ⟨⟨n, left⟩, hn, h₁⟩
    · exact absurd hn number_ne_unexpected
    obtain ⟨position, rfl, -, -⟩ := exists_of_number hn
    rcases bind_eq_error_iff.mp h₁ with hd | ⟨_, -, h₂⟩
    · cases eq_of_delimiter_fault hd
      have htext : ('\x7b' :: partText DigitRun.text position) ++ ['\x7d'] ∈
          Set.range CountForm.text :=
        ⟨.reference position, rfl⟩
      exact .of_closing (List.cons_ne_nil _ _) htext _
    · cases h₂
  · rcases bind_eq_error_iff.mp h with hn | ⟨_, -, h₁⟩
    · exact absurd hn number_ne_unexpected
    · cases h₁

theorem precision_faultsInside (h : precision s = .error (.unexpected wanted rest)) :
    FaultsInside (Set.range ('.' :: CountForm.text ·)) s wanted rest := by
  unfold precision at h
  split at h <;> rename_i hs <;> obtain ⟨rfl, -⟩ := eq_of_flag hs
  · rcases bind_eq_error_iff.mp h with hn | ⟨⟨n, left⟩, -, h₁⟩
    · refine (count_faultsInside hn).append_left ?_
      rintro _ ⟨n, rfl⟩
      exact ⟨_, ⟨n, rfl⟩, List.prefix_rfl⟩
    · cases n with
      | some n => cases h₁
      | none =>
        cases h₁
        refine ⟨['.'], rfl, List.cons_ne_nil _ _, rfl, ?_⟩
        rintro c (hc | rfl)
        · exact ⟨_, ⟨.digits ⟨[c], List.cons_ne_nil _ _, by simpa using hc⟩, rfl⟩,
            List.prefix_rfl⟩
        · exact ⟨_, ⟨.reference none, rfl⟩, ['\x7d'], rfl⟩
  · cases h

theorem spec_faultsInside (h : spec s = .error (.unexpected wanted rest)) :
    FaultsInside (Set.range SpecForm.text) s wanted rest := by
  rcases h₁ : fillAndAlign s with ⟨fill, a, s₁⟩
  rcases h₂ : sign s₁ with ⟨sign, s₂⟩
  rcases h₃ : flag '#' s₂ with ⟨alternate, s₃⟩
  rcases h₄ : flag '0' s₃ with ⟨zero, s₄⟩
  simp only [spec, h₁, h₂, h₃, h₄] at h
  obtain ⟨alignment, rfl, -, -⟩ := exists_of_fillAndAlign h₁
  obtain rfl := eq_of_sign h₂
  obtain ⟨rfl, -⟩ := eq_of_flag h₃
  obtain ⟨rfl, -⟩ := eq_of_flag h₄
  rcases bind_eq_error_iff.mp h with hn | ⟨⟨n, s₅⟩, h₅, he⟩
  · simp only [← List.append_assoc]
    refine (count_faultsInside hn).append_left ?_
    rintro _ ⟨n, rfl⟩
    refine ⟨_, ⟨{ alignment, sign, alternate, zero, width := some n }, rfl⟩, ?_⟩
    simp [SpecForm.text, SpecForm.options, SpecForm.afterSign, SpecForm.afterAlternate,
      SpecForm.afterZero, SpecForm.afterWidth, SpecForm.widthPart, SpecForm.precisionPart,
      SpecForm.letterPart, partText]
  · obtain ⟨width, rfl, -, -⟩ := exists_of_count h₅
    rcases bind_eq_error_iff.mp he with hp | ⟨_, -, he₁⟩
    · simp only [← List.append_assoc]
      refine (precision_faultsInside hp).append_left ?_
      rintro _ ⟨n, rfl⟩
      refine ⟨_, ⟨{ alignment, sign, alternate, zero, width, precision := some n }, rfl⟩, ?_⟩
      simp [SpecForm.text, SpecForm.options, SpecForm.afterSign, SpecForm.afterAlternate,
        SpecForm.afterZero, SpecForm.afterWidth, SpecForm.widthPart, SpecForm.precisionPart,
        SpecForm.letterPart, partText]
    · cases he₁

theorem field_faultsInside (h : field ('\x7b' :: s) = .error (.unexpected wanted rest)) :
    FaultsInside (Set.range FieldForm.text) ('\x7b' :: s) wanted rest := by
  rw [field, delimiter_cons, ok_bind] at h
  rcases bind_eq_error_iff.mp h with hn | ⟨⟨n, s₁⟩, h₁, he₁⟩
  · exact absurd hn number_ne_unexpected
  obtain ⟨position, rfl, -, -⟩ := exists_of_number h₁
  rw [← List.cons_append]
  rcases bind_eq_error_iff.mp he₁ with hs | ⟨⟨x, s₂⟩, h₂, he₂⟩
  · unfold specAfterColon at hs
    split at hs
    · next hc =>
      obtain ⟨rfl, -⟩ := eq_of_flag hc
      rw [← List.append_assoc]
      refine (spec_faultsInside hs).append_left ?_
      rintro _ ⟨spec, rfl⟩
      refine ⟨_, ⟨{ position, spec := some spec }, rfl⟩, ?_⟩
      simp [FieldForm.text, partText, flagPart]
    · cases hs
  · obtain ⟨spec, -, -, rfl, -⟩ := exists_of_specAfterColon h₂
    rcases bind_eq_error_iff.mp he₂ with hd | ⟨_, -, he₃⟩
    · cases eq_of_delimiter_fault hd
      have htext : ('\x7b' :: partText DigitRun.text position ++
          partText (':' :: SpecForm.text ·) spec) ++ ['\x7d'] ∈ Set.range FieldForm.text :=
        ⟨{ position, spec }, by simp [FieldForm.text]⟩
      rw [← List.append_assoc]
      exact .of_closing (List.cons_ne_nil _ _) htext _
    · cases he₃

theorem fillAfter_of_text {c : Char} {t u : List Char} {f : FieldForm} (rest : List Char)
    (h : field (s ++ c :: t) = .error (.unexpected wanted (rest ++ c :: t)))
    (hf : f.text = s ++ c :: u) : fillAfter BehindColon s c u := by
  by_contra he
  obtain ⟨g, hz, hg⟩ := f.exists_zeroIsFlag
  have hfault := field_looksAtOne.fault he h
  rw [← hf, ← hg, ← List.append_nil g.text] at hfault
  exact field_text_ne_unexpected hz [] hfault

end Reader

theorem FieldForm.fill_eq {f : FieldForm} {c : Char} {u : List Char} (hs : BehindColon s)
    (hc : isFill c) (hu : ¬ Avoids isGlyph u) (hf : f.text = s ++ c :: u) : f.fill = some c := by
  obtain ⟨position, rfl⟩ := hs
  have hcolon : Avoids (fun c => c.isDigit = true) (':' :: c :: u) := avoids_cons.mpr (by decide)
  have hdrop := congrArg (fun s => s.tail.dropWhile Char.isDigit) hf
  simp only [text, List.cons_append, List.append_assoc, List.nil_append, List.tail_cons,
    (Reader.digits_partText (f.avoids_afterPosition [])).2, (Reader.digits_partText hcolon).2]
    at hdrop
  cases hspec : f.spec with
  | none => simp [hspec, partText] at hdrop
  | some spec =>
    rw [hspec, partText, Option.elim_some, List.cons_append, List.cons.injEq] at hdrop
    obtain ⟨d, a, v, rfl, ha⟩ := Reader.exists_glyph_of_not_avoids hu
    have hfill := spec.fillAndAlign_text []
    rw [hdrop.2, Reader.fillAndAlign_of_isFill hc ha, Prod.mk.injEq] at hfill
    rw [fill, hspec]
    exact hfill.1.symm

theorem BehindColon.exists_form (hs : BehindColon s) (spec : SpecForm) :
    ∃ f : FieldForm, f.text = s ++ (spec.text ++ ['\x7d']) := by
  obtain ⟨position, rfl⟩ := hs
  exact ⟨{ position, spec := some spec }, by simp [FieldForm.text, partText]⟩

theorem isFill_of_fault {c : Char} {t : List Char} (hs : BehindColon s)
    (h : Reader.field (s ++ c :: t) = .error (.unexpected wanted (c :: t))) : isFill c := by
  constructor
  · rintro rfl
    obtain ⟨f, hf⟩ := hs.exists_form { width := some (.reference none) }
    exact (Reader.fillAfter_of_text [] h hf).2.1.1 rfl
  · rintro rfl
    obtain ⟨f, hf⟩ := hs.exists_form {}
    exact (Reader.fillAfter_of_text [] h hf).2.1.2 rfl

/-- Where reading fails in front of a character, the text with it begins no field, unless it stands
behind the colon and is a fill without an alignment. -/
theorem isViable_iff_of_fault {c : Char} {t : List Char}
    (h : Reader.field (s ++ c :: t) = .error (.unexpected wanted (c :: t))) :
    (IsViable (s ++ [c]) ↔ BehindColon s) ∧
      (BehindColon s → (∀ f : FieldForm, s ++ [c] <+: f.text → f.fill = some c) ∧
        Avoids isGlyph t) := by
  refine ⟨⟨?_, fun hs => ?_⟩, fun hs => ⟨?_, ?_⟩⟩
  · rintro ⟨_, ⟨u, rfl⟩, f, hf⟩
    rw [List.append_assoc] at hf
    exact (Reader.fillAfter_of_text [] h hf).1
  · have hc := isFill_of_fault hs h
    obtain ⟨f, hf⟩ := hs.exists_form { alignment := some ⟨some ⟨c, hc⟩, .left⟩ }
    refine f.isViable ⟨['<', '\x7d'], ?_⟩
    rw [hf, List.append_assoc]
    rfl
  · rintro f ⟨u, hf⟩
    rw [List.append_assoc] at hf
    obtain ⟨-, hc, hu⟩ := Reader.fillAfter_of_text [] h hf.symm
    exact f.fill_eq hs hc hu hf.symm
  · -- With an alignment behind it the fill is passed over, and reading would fail further on.
    cases t with
    | nil => exact nofun
    | cons d t =>
      refine avoids_cons.mpr fun hd => ?_
      have hc := isFill_of_fault hs h
      obtain ⟨a, ha⟩ := Option.isSome_iff_exists.mp hd
      obtain ⟨f, hf⟩ := hs.exists_form { alignment := some ⟨some ⟨c, hc⟩, a⟩ }
      have hf : f.text = (s ++ [c]) ++ d :: ['\x7d'] := by
        rw [hf, Reader.glyph_of_ofGlyph? ha, List.append_assoc]
        rfl
      rw [List.append_cons] at h
      exact (Reader.fillAfter_of_text [c] h hf).2.2 (avoids_cons.mpr (by decide))

/-- A report splits the text at its offset, in front of which reading has failed. -/
theorem Field.fault_of_readAt {text : List Char} {start offset : Nat} {found : Option Char}
    (h : Field.readAt start text = .error (.malformedField wanted found offset)) :
    found = text[offset]? ∧ start + (text.extract start offset).length = offset ∧
      text.extract start offset ++ text.drop offset = text.drop start ∧
      Reader.field (text.drop start) = .error (.unexpected wanted (text.drop offset)) := by
  simp only [Field.readAt] at h
  split at h
  · cases h
  next fault hfault =>
  cases fault with
  | tooManyDigits => cases h
  | unexpected wanted rest =>
    obtain ⟨read, hread⟩ := Reader.field_looksAtOne.suffix_of_fault hfault
    simp only [Fault.toFailure, Except.error.injEq, Failure.malformedField.injEq] at h
    obtain ⟨rfl, rfl, hoffset⟩ := h
    obtain rfl : start + read.length = offset := by
      rw [← hoffset, ← hread, List.length_append, Nat.add_sub_cancel_right]
    have hdrop : text.drop (start + read.length) = rest := by
      rw [← List.drop_drop, ← hread, List.drop_left]
    have hextract : text.extract start (start + read.length) = read := by
      rw [List.extract, Nat.add_sub_cancel_left, ← hread, List.take_left]
    rw [hextract, hdrop]
    exact ⟨by rw [← hdrop, List.head?_drop], rfl, hread, hfault⟩

theorem Reader.isViable_of_fault
    (h : field (s ++ rest) = .error (.unexpected wanted rest)) :
    wanted.IsAfter s ∧ ∀ c, wanted.Admits c → IsViable (s ++ [c]) := by
  rcases bind_eq_error_iff.mp h with hd | ⟨inner, hd, -⟩
  · have hs := eq_of_delimiter_fault hd
    rw [Fault.unexpected.injEq] at hs
    obtain ⟨rfl, hs⟩ := hs
    obtain rfl := List.self_eq_append_left.mp hs
    refine ⟨rfl, ?_⟩
    rintro c rfl
    exact FieldForm.isViable {} ⟨['\x7d'], rfl⟩
  · rw [eq_cons_of_delimiter hd] at h
    obtain ⟨read, hread, -, hafter, hwanted⟩ := field_faultsInside h
    rw [← eq_cons_of_delimiter hd] at hread
    obtain rfl := List.append_cancel_right hread
    refine ⟨hafter, fun c hc => ?_⟩
    obtain ⟨_, ⟨f, rfl⟩, hp⟩ := hwanted c hc
    exact f.isViable hp

/-- A report points at the first character with which the text no longer begins a field, or at the
end of the text, and what it wants there would go on with a field. -/
theorem Field.readAt_reports_first_fault {text : List Char} {start offset : Nat}
    {found : Option Char}
    (h : Field.readAt start text = .error (.malformedField wanted found offset)) :
    start ≤ offset ∧ found = text[offset]? ∧
      let s := text.extract start offset
      wanted.IsAfter s ∧ IsViable s ∧ (∀ c, wanted.Admits c → IsViable (s ++ [c])) ∧
        ∀ c ∈ found, (IsViable (s ++ [c]) ↔ BehindColon s) ∧
          (BehindColon s → (∀ f : FieldForm, s ++ [c] <+: f.text → f.fill = some c) ∧
            ∀ d ∈ text[offset + 1]?, ¬ isGlyph d) := by
  obtain ⟨hfound, hoffset, hread, hfault⟩ := Field.fault_of_readAt h
  rw [← hread] at hfault
  obtain ⟨hafter, hwanted⟩ := Reader.isViable_of_fault hfault
  obtain ⟨d, hd⟩ := wanted.exists_admits
  refine ⟨by omega, hfound, hafter, (hwanted d hd).of_append, hwanted, ?_⟩
  rintro c hc
  rw [hfound, Option.mem_def, List.getElem?_eq_some_iff] at hc
  obtain ⟨hlt, rfl⟩ := hc
  rw [List.drop_eq_getElem_cons hlt] at hfault
  obtain ⟨hviable, hcolon⟩ := isViable_iff_of_fault hfault
  refine ⟨hviable, fun hs => ⟨(hcolon hs).1, ?_⟩⟩
  have hnext := (hcolon hs).2
  rwa [Avoids, List.head?_drop] at hnext

/-- The star is reported that no alignment follows, though an alignment behind it would do. -/
theorem Field.readAt_reports_lone_fill :
    let text := "n = \x7b1:*5\x7d".toList
    Field.readAt 4 text = .error (.malformedField (.delimiter '\x7d') (some '*') 7) ∧
      IsViable "\x7b1:*".toList := by
  intro text
  have h : Field.readAt 4 text = .error (.malformedField (.delimiter '\x7d') (some '*') 7) := by
    decide +kernel
  obtain ⟨-, -, -, -, -, hfound⟩ := Field.readAt_reports_first_fault h
  have hs : BehindColon (text.extract 4 7) := ⟨some ⟨['1'], by simp, by simp⟩, rfl⟩
  exact ⟨h, (hfound '*' rfl).1.mpr hs⟩

end Stencil
