import Stencil.Proofs.Number.General
import Stencil.Proofs.Registry.Rounded

/-! # General notation of numbers

A number in general notation is shown as in fixed notation or as in scientific notation, with the
same sign. No notation shows more digits than the limit on precision allows, and of these two texts
one can be refused where the other is not.
-/

namespace Stencil

namespace Number

variable {x : Number} {y : Double} {letter : Option Char} {style : Style} {alternate : Bool}
  {precision : Int}

theorem styled_of_precisionLimit_lt (hx : x.toDouble? = some y) (hp : precisionLimit < precision) :
    x.styled letter style alternate precision = .error (.exceeded .precision) := by
  simp only [styled, hx, if_pos hp, ite_self]

theorem isCount_of_le_precisionLimit (h : 0 ≤ precision) (hle : precision ≤ precisionLimit) :
    IsCount precision := by
  simp only [precisionLimit] at hle
  simp only [IsCount, countLimit]
  omega

end Number

namespace Registry

variable (heap : Heap) {x : Number} (spec : Spec) {precision : Option Int} {defaultPrecision : Int}
  (defaultIndent : Int) {negative : Bool} {magnitude : Magnitude}

theorem render_of_style_unfilled {style : Style} (hstyle : spec.conversion.style? = some style)
    (hcase : spec.case = .lower) {p : ℕ} (hp : precision.getD defaultPrecision = p)
    (hle : p ≤ Number.precisionLimit) (hx : x.toDouble? = some (.finite negative magnitude)) :
    (standard defaultPrecision defaultIndent).render heap spec 0 precision x.toValue =
      .ok (Text.ofChars (spec.sign.shown x.isNegative ++
        magnitude.toDecimal.text style spec.alternate p)) := by
  have hcount : IsCount (precision.getD defaultPrecision) := by
    rw [hp]
    exact Number.isCount_of_le_precisionLimit (Int.natCast_nonneg p) hle
  rw [render_of_style heap defaultIndent hstyle hcase hcount hx, Draft.pad_unfilled, hp]
  rfl

theorem render_of_precisionLimit_lt {style : Style} (hstyle : spec.conversion.style? = some style)
    (hcase : spec.case = .lower) (hp : Number.precisionLimit < precision.getD defaultPrecision)
    (hx : x.toDouble? = some (.finite negative magnitude)) (width : Int) :
    (standard defaultPrecision defaultIndent).render heap spec width precision x.toValue =
      .error (.exceeded .precision) := by
  have hnotation := Conversion.mem_notations_iff.mpr ⟨style, hstyle⟩
  rw [render_number, Renderer.number_objection?_of_notation defaultPrecision hnotation]
  dsimp only
  rw [Number.convert_of_style hstyle, Number.floating_of_lower hcase,
    Number.styled_of_precisionLimit_lt hx hp]
  rfl

/-- General notation is fixed or scientific notation, by the exponent that scientific notation shows
for as many significant digits, and without the zeros at the end of the fraction unless the
alternate form keeps them. A precision beyond the limit is refused, in fixed notation too. -/
theorem render_standard_general {v : ℚ} (hv : x.value? = some v) (hrange : |v| < Magnitude.overflow)
    (hcase : spec.case = .lower) (hp : 0 ≤ precision.getD defaultPrecision) :
    let render (conversion : Conversion) (precision : Option Int) : Except Failure Text :=
      (standard defaultPrecision defaultIndent).render heap { spec with conversion } 0 precision
        x.toValue
    let significant := max (precision.getD defaultPrecision) 1
    let negative := decide (v < 0)
    let sign := spec.sign.shown negative
    (precision.getD defaultPrecision ≤ Number.precisionLimit → ∃ w : WrittenDecimal,
      readDecimal? (sign ++ w.text) = some (negative, w) ∧ w.exponent?.isSome ∧
      render .scientific (some (significant - 1)) = .ok (Text.ofChars (sign ++ w.text)) ∧
      if -4 ≤ w.exponent ∧ w.exponent < significant then
        let places := significant - 1 - w.exponent
        ∃ u : WrittenDecimal, readDecimal? (sign ++ u.text) = some (negative, u) ∧
          (places ≤ Number.precisionLimit →
            render .fixed (some places) = .ok (Text.ofChars (sign ++ u.text))) ∧
          render .general precision = .ok (Text.ofChars (sign ++ (u.trim spec.alternate).text))
      else render .general precision = .ok (Text.ofChars (sign ++ (w.trim spec.alternate).text))) ∧
    (Number.precisionLimit < precision.getD defaultPrecision →
      render .general precision = .error (.exceeded .precision)) := by
  intro render significant negative sign
  obtain ⟨_, magnitude, hx, -⟩ := Number.exists_toDouble? hv hrange
  obtain ⟨p, hp⟩ := Int.eq_ofNat_of_zero_le hp
  have hrender (style : Style) {conversion : Conversion} {precision : Option Int} {p : ℕ}
      (hstyle : conversion.style? = some style) (hp : precision.getD defaultPrecision = p)
      (hle : p ≤ Number.precisionLimit) : render conversion precision = .ok (Text.ofChars
        (sign ++ magnitude.toDecimal.text style spec.alternate p)) := by
    have hshown := render_of_style_unfilled heap { spec with conversion } defaultIndent hstyle hcase
      hp hle hx
    rwa [Number.isNegative_of_value? hv] at hshown
  generalize magnitude.toDecimal = decimal at hrender
  constructor
  · intro hle
    rw [hp] at hle
    obtain ⟨w, htext, hproper, hexponent, hcases⟩ :=
      decimal.exists_written_generalText (max p 1) spec.alternate
    have hsignificant : significant = (max p 1 - 1 : ℕ) + 1 := by
      change max (precision.getD defaultPrecision) 1 = _
      omega
    have hplaces : ((max p 1 - 1 : ℕ) : ℤ) ≤ Number.precisionLimit := by
      have hlimit : 1 ≤ Number.precisionLimit := by decide
      omega
    have hgeneral : render .general precision = .ok (Text.ofChars
        (sign ++ decimal.generalText spec.alternate (max p 1))) :=
      hrender .general rfl hp hle
    rw [hsignificant, Int.add_sub_cancel, hgeneral]
    have hscientific : render .scientific (some (max p 1 - 1 : ℕ)) =
        .ok (Text.ofChars (sign ++ w.text)) := by
      rw [htext]
      exact hrender .scientific rfl rfl hplaces
    refine ⟨w, WrittenDecimal.readDecimal?_text hproper spec.sign negative 0, hexponent,
      hscientific, ?_⟩
    split
    · next h =>
      obtain ⟨hlow, hhigh⟩ := h.imp_right Int.le_of_lt_add_one
      rw [if_pos ⟨hlow, hhigh⟩] at hcases
      obtain ⟨u, hu, huproper, huw⟩ := hcases
      intro places
      refine ⟨u, WrittenDecimal.readDecimal?_text huproper spec.sign negative 0, ?_, ?_⟩
      · intro hlimit
        have hnonneg : (places.toNat : ℤ) = places := Int.toNat_of_nonneg (Int.sub_nonneg.mpr hhigh)
        rw [hu]
        exact hrender .fixed rfl hnonneg.symm (hnonneg.trans_le hlimit)
      · rw [huw]
    · next h =>
      rw [if_neg fun h' => h (h'.imp_right Int.lt_add_one_of_le)] at hcases
      rw [hcases]
  · exact fun hlt => render_of_precisionLimit_lt heap { spec with conversion := .general }
      defaultIndent rfl hcase hlt hx 0

/-- Nine and a half has one digit more when it is rounded to one digit, and is then too large to be
written out. -/
theorem render_standard_general_carry :
    let magnitude : Magnitude := ⟨19 * 2 ^ 48, 1025, by decide, by decide, by decide⟩
    let x : Number := .float (.finite true magnitude)
    let render (conversion : Conversion) (precision : Option Int) : Except Failure Text :=
      standard.render [] { conversion, sign := .plus } 0 precision x.toValue
    x.value? = some (-magnitude.value) ∧ |-magnitude.value| < Magnitude.overflow ∧
      (0 : Int) ≤ (some 0).getD 6 ∧ (0 : Int) ≤ Number.precisionLimit ∧
      render .general (some 0) = .ok (Text.ofChars "-1e+01".toList) ∧
      ∃ w : WrittenDecimal, render .scientific (some 0) = .ok (Text.ofChars ('-' :: w.text)) ∧
        readDecimal? ('-' :: w.text) = some (true, w) := by
  intro magnitude x render
  have hv : x.value? = some (-magnitude.value) := rfl
  have hrange : |-magnitude.value| < Magnitude.overflow := by
    rw [Number.abs_of_value? hv]
    exact magnitude.value_lt_overflow
  have hp : (0 : Int) ≤ (some 0).getD 6 := by decide
  have hlimit : (0 : Int) ≤ Number.precisionLimit := by decide
  have hgeneral : render .general (some 0) = .ok (Text.ofChars "-1e+01".toList) := by
    decide +kernel
  refine ⟨hv, hrange, hp, hlimit, hgeneral, ?_⟩
  have hnegative : decide (-magnitude.value < 0) = true := (Number.isNegative_of_value? hv).symm
  obtain ⟨w, hreads, -, hscientific, -⟩ :=
    (render_standard_general [] { sign := .plus } 4 hv hrange rfl hp).1 hlimit
  rw [hnegative] at hreads hscientific
  exact ⟨w, hscientific, hreads⟩

/-- A precision just beyond the limit is refused, though with the digits that are left after the
first one the texts of the two other notations can still be shown. -/
theorem render_general_refused :
    let zero : Magnitude := ⟨0, 0, by decide, by decide, by decide⟩
    let x : Number := .float (.finite false zero)
    let render (conversion : Conversion) (precision : Int) : Except Failure Text :=
      standard.render [] { conversion } 0 (some precision) x.toValue
    let significant : Int := 2 ^ 31
    ∃ w : WrittenDecimal, render .scientific (significant - 1) = .ok (Text.ofChars w.text) ∧
      readDecimal? w.text = some (false, w) ∧ -4 ≤ w.exponent ∧ w.exponent < significant ∧
      (∃ text, render .fixed (significant - 1 - w.exponent) = .ok text) ∧
      ∀ text, render .general significant ≠ .ok text := by
  intro zero x render significant
  obtain ⟨decimal, hdecimal, hshown⟩ : ∃ decimal : Decimal, decimal.coefficient = 0 ∧
      ∀ (style : Style) (conversion : Conversion), conversion.style? = some style →
        render conversion (significant - 1) =
          .ok (Text.ofChars (decimal.text style false (significant - 1).toNat)) :=
    ⟨zero.toDecimal, Nat.mul_eq_zero.mpr (.inl (Nat.zero_mul _)), fun _ conversion h =>
      render_of_style_unfilled [] { conversion } 4 h rfl rfl (by decide) rfl⟩
  generalize (significant - 1).toNat = places at hshown
  obtain ⟨d, fraction, hdigits, -, -⟩ := decimal.digits_toScientific places
  obtain ⟨htext, hproper⟩ := decimal.written_scientificText places false hdigits
  have hexponent : (decimal.toScientific places).exponent = 0 := by
    rw [Decimal.toScientific_zero hdecimal]
  refine ⟨_, ?_, WrittenDecimal.readDecimal?_text hproper .unset false 0, ?_⟩
  · rw [htext]
    exact hshown .scientific .scientific rfl
  · rw [WrittenDecimal.exponent_ofDigits, Option.getD_some, hexponent, Int.sub_zero]
    refine ⟨by decide, by decide, ⟨_, hshown .fixed .fixed rfl⟩, ?_⟩
    intro text
    have hrefused : render .general significant = .error (.exceeded .precision) :=
      render_of_precisionLimit_lt [] { conversion := .general } 4 rfl rfl (by decide) rfl 0
    rw [hrefused]
    exact nofun

end Registry

end Stencil
