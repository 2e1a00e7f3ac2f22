import Stencil.Proofs.Number.Rounding
import Stencil.Proofs.Registry.Integers
import Stencil.Proofs.Registry.Numbers

/-! # Rounded numbers

A number is first rounded to a floating-point number, and that one to the digits of its notation. The
sign is that of the number itself, and zeros that fill the field come after it, so that the rounded
number can be read off the text at any width.
-/

namespace Stencil

namespace Number

def value? : Number → Option ℚ
  | int n => some n
  | float (.finite negative magnitude) =>
    some (if negative then -magnitude.value else magnitude.value)
  | float (.infinite _) => none
  | float .nan => none

variable {x : Number} {v : ℚ}

theorem isNegative_of_value? (h : x.value? = some v) : x.isNegative = decide (v < 0) := by
  rcases x with n | ⟨negative, magnitude⟩ | negative | _
  · cases h
    exact decide_eq_decide.mpr Int.cast_lt_zero.symm
  · cases h
    have hnonneg := magnitude.value_nonneg
    cases negative with
    | false => exact (decide_eq_false (not_lt.mpr hnonneg)).symm
    | true =>
      have hneg : -magnitude.value < 0 ↔ magnitude.significand ≠ 0 := by
        rw [neg_lt_zero, hnonneg.lt_iff_ne', ne_eq, Magnitude.value_eq_zero_iff]
      simp only [isNegative, Double.isNegative, if_true, hneg]
      cases magnitude.significand <;> rfl
  · cases h
  · cases h

theorem abs_of_value? {negative : Bool} {magnitude : Magnitude}
    (h : (float (.finite negative magnitude)).value? = some v) : |v| = magnitude.value := by
  cases h
  cases negative
  · exact abs_of_nonneg magnitude.value_nonneg
  · exact (abs_neg _).trans (abs_of_nonneg magnitude.value_nonneg)

theorem exists_toDouble? (h : x.value? = some v) (hv : |v| < Magnitude.overflow) :
    ∃ negative magnitude, x.toDouble? = some (.finite negative magnitude) ∧
      magnitude.IsNearest |v| := by
  rcases x with n | ⟨negative, magnitude⟩ | negative | _
  · cases h
    rw [← Int.cast_abs, Int.abs_eq_natAbs, Int.cast_natCast] at hv ⊢
    rw [Nat.cast_lt] at hv
    obtain ⟨magnitude, hmagnitude⟩ :=
      Option.isSome_iff_exists.mp (Magnitude.isSome_ofNat?_iff.mpr hv)
    refine ⟨false, magnitude, ?_, Magnitude.isNearest_ofNat? hmagnitude⟩
    rw [toDouble?, hmagnitude]
    rfl
  · refine ⟨negative, magnitude, rfl, ?_⟩
    rw [abs_of_value? h]
    exact magnitude.isNearest_value
  · cases h
  · cases h

theorem exists_toDouble?_timesHundred (h : x.value? = some v)
    (hv : |100 * v| < Magnitude.overflow) :
    ∃ negative magnitude, x.timesHundred.toDouble? = some (.finite negative magnitude) ∧
      magnitude.IsNearest |100 * v| := by
  rcases x with n | ⟨negative, magnitude⟩ | negative | _
  · cases h
    have hvalue : (int n).timesHundred.value? = some (100 * (n : ℚ)) := by
      rw [timesHundred, value?, Int.cast_mul, mul_comm]
      rfl
    exact exists_toDouble? hvalue hv
  · have habs : |100 * v| = 100 * magnitude.value := by
      rw [abs_mul, abs_of_value? h, abs_of_pos (by norm_num)]
    rw [habs] at hv ⊢
    obtain ⟨product, hproduct⟩ :=
      Option.isSome_iff_exists.mp (Magnitude.isSome_timesHundred?_iff.mpr hv)
    have hdouble : (Double.finite negative magnitude).timesHundred = .finite negative product := by
      unfold Double.timesHundred
      simp only [hproduct]
    exact ⟨negative, product, congrArg some hdouble, Magnitude.isNearest_timesHundred? hproduct⟩
  · cases h
  · cases h

end Number

/-- The text is the sign and the decimal, and what comes last. Zeros that fill the field come after
the sign, and the decimal is read whatever their number. -/
structure ShowsDecimal (render : Int → Except Failure Text) (spec : Spec) (sign : Sign)
    (negative : Bool) (suffix : List Char) (w : WrittenDecimal) : Prop where
  proper : w.IsProper
  reads : ∀ zeros, readDecimal? (sign.shown negative ++ (List.replicate zeros '0' ++ w.text)) =
    some (negative, w)
  render : ∀ width, spec.ZeroFilled width →
    let front := sign.shown negative
    let zeros := (width - (front ++ (w.text ++ suffix)).length).toNat
    render width = if zeros ≤ repetitionLimit then
      .ok (Text.ofChars (front ++ (List.replicate zeros '0' ++ (w.text ++ suffix))))
    else .error (.exceeded .repetition)

theorem WrittenDecimal.IsProper.showsDecimal {render : Int → Except Failure Text} {spec : Spec}
    {sign : Sign} {negative : Bool} {suffix : List Char} {w : WrittenDecimal} (h : w.IsProper)
    (hrender : ∀ width, render width =
      Draft.pad spec .right ⟨sign.shown negative, Text.ofChars (w.text ++ suffix), width⟩) :
    ShowsDecimal render spec sign negative suffix w := by
  refine ⟨h, WrittenDecimal.readDecimal?_text h sign negative, fun width hw => ?_⟩
  rw [hrender]
  exact Draft.pad_zeroFilled hw _ _ _

namespace Registry

variable (heap : Heap) {x : Number} {spec : Spec} {precision : Option Int} {defaultPrecision : Int}
  (defaultIndent : Int) {negative : Bool} {magnitude : Magnitude}

theorem render_of_style {style : Style} (hstyle : spec.conversion.style? = some style)
    (hcase : spec.case = .lower) (hp : IsCount (precision.getD defaultPrecision))
    (hx : x.toDouble? = some (.finite negative magnitude)) (width : Int) :
    (standard defaultPrecision defaultIndent).render heap spec width precision x.toValue =
      Draft.pad spec .right ⟨spec.sign.shown x.isNegative, Text.ofChars (magnitude.toDecimal.text
        style spec.alternate (precision.getD defaultPrecision).toNat), width⟩ := by
  have hnotation := Conversion.mem_notations_iff.mpr ⟨style, hstyle⟩
  rw [render_number, Renderer.number_objection?_of_notation defaultPrecision hnotation]
  dsimp only
  rw [Number.convert_of_style hstyle, Number.floating_of_lower hcase, Number.styled_of_isCount hp,
    hx]
  rfl

theorem render_of_percent (hc : spec.conversion = .percent) (hp : IsCount defaultPrecision)
    (hx : x.timesHundred.toDouble? = some (.finite negative magnitude)) (width : Int) :
    (standard defaultPrecision defaultIndent).render heap spec width none x.toValue =
      Draft.pad spec .right ⟨Sign.unset.shown x.isNegative, Text.ofChars
        (magnitude.toDecimal.text .fixed false defaultPrecision.toNat ++ ['%']), width⟩ := by
  have hobjection : (Renderer.number defaultPrecision).objection? spec none = none :=
    Renderer.number_objection?_eq_none defaultPrecision (by rw [hc]; nofun) nofun
  rw [render_number, hobjection]
  dsimp only
  rw [Number.convert_of_percent hc, Number.styled_of_isCount hp, hx]
  rfl

/-- Fixed and scientific texts are correctly rounded. A number goes to the nearest magnitude, and
what is read off the text is the nearest decimal of its notation, at any width that zeros fill. The
point is shown before a fraction, and in the alternate form without one, but a percentage has no
alternate form. -/
theorem render_standard_rounded {v : ℚ} (hv : x.value? = some v) (hcase : spec.case = .lower)
    (hp : IsCount (precision.getD defaultPrecision)) :
    let render (width : Int) : Except Failure Text :=
      (standard defaultPrecision defaultIndent).render heap spec width precision x.toValue
    let places := (precision.getD defaultPrecision).toNat
    let negative := decide (v < 0)
    (|v| < Magnitude.overflow → ∃ magnitude : Magnitude, magnitude.IsNearest |v| ∧
      (spec.conversion = .fixed → ∃ w, ShowsDecimal render spec spec.sign negative [] w ∧
        w.IsFixed places spec.alternate magnitude.value) ∧
      (spec.conversion = .scientific → ∃ w, ShowsDecimal render spec spec.sign negative [] w ∧
        w.IsScientific places spec.alternate magnitude.value)) ∧
    (|100 * v| < Magnitude.overflow → spec.conversion = .percent → precision = none →
      ∃ magnitude : Magnitude, magnitude.IsNearest |100 * v| ∧
        ∃ w, ShowsDecimal render spec .unset negative ['%'] w ∧
          w.IsFixed places false magnitude.value) := by
  intro render places negative
  have hnegative : x.isNegative = negative := Number.isNegative_of_value? hv
  constructor
  · intro hrange
    obtain ⟨_, magnitude, hx, hnearest⟩ := Number.exists_toDouble? hv hrange
    refine ⟨magnitude, hnearest, fun hc => ?_, fun hc => ?_⟩
    · have hstyle : spec.conversion.style? = some .fixed := by rw [hc]; rfl
      obtain ⟨w, htext, hproper, hfixed⟩ :=
        magnitude.toDecimal.exists_written_fixedText places spec.alternate
      rw [magnitude.value_toDecimal] at hfixed
      refine ⟨w, hproper.showsDecimal fun width => ?_, hfixed⟩
      rw [htext, List.append_nil, ← hnegative]
      exact render_of_style heap defaultIndent hstyle hcase hp hx width
    · have hstyle : spec.conversion.style? = some .scientific := by rw [hc]; rfl
      obtain ⟨w, htext, hproper, hscientific⟩ :=
        magnitude.toDecimal.exists_written_scientificText places spec.alternate
      rw [magnitude.value_toDecimal] at hscientific
      refine ⟨w, hproper.showsDecimal fun width => ?_, hscientific⟩
      rw [htext, List.append_nil, ← hnegative]
      exact render_of_style heap defaultIndent hstyle hcase hp hx width
  · rintro hrange hc rfl
    obtain ⟨_, magnitude, hx, hnearest⟩ := Number.exists_toDouble?_timesHundred hv hrange
    obtain ⟨w, htext, hproper, hfixed⟩ :=
      magnitude.toDecimal.exists_written_fixedText places false
    rw [magnitude.value_toDecimal] at hfixed
    refine ⟨magnitude, hnearest, w, hproper.showsDecimal fun width => ?_, hfixed⟩
    rw [htext, ← hnegative]
    exact render_of_percent heap defaultIndent hc hp hx width

/-- Nine and a half is half-way, and its even neighbour has one more digit. Zeros fill the field after
the sign. -/
theorem render_standard_rounded_carry :
    let magnitude : Magnitude := ⟨19 * 2 ^ 48, 1025, by decide, by decide, by decide⟩
    let x : Number := .float (.finite true magnitude)
    let spec : Spec :=
      { fill := ['0'], align := some .afterSign, sign := .plus, zeroPad := true,
        conversion := .scientific }
    let render (width : Int) : Except Failure Text :=
      standard.render [] spec width (some 0) x.toValue
    x.value? = some (-magnitude.value) ∧ spec.case = .lower ∧ IsCount ((some 0).getD 6) ∧
      |-magnitude.value| < Magnitude.overflow ∧ spec.ZeroFilled 8 ∧
      render 8 = .ok (Text.ofChars "-001e+01".toList) ∧
      ∃ nearest : Magnitude, nearest.IsNearest |-magnitude.value| ∧
        ∃ w, ShowsDecimal render spec spec.sign (decide (-magnitude.value < 0)) [] w ∧
          w.IsScientific 0 false nearest.value := by
  intro magnitude x spec render
  have hv : x.value? = some (-magnitude.value) := rfl
  have hcase : spec.case = .lower := rfl
  have hp : IsCount ((some 0).getD 6) := by decide
  have hrange : |-magnitude.value| < Magnitude.overflow := by
    rw [Number.abs_of_value? hv]
    exact magnitude.value_lt_overflow
  have hw : spec.ZeroFilled 8 := .inr ⟨rfl, rfl⟩
  have hrender : render 8 = .ok (Text.ofChars "-001e+01".toList) := by decide +kernel
  refine ⟨hv, hcase, hp, hrange, hw, hrender, ?_⟩
  obtain ⟨nearest, hnearest, -, hscientific⟩ :=
    (render_standard_rounded [] 4 hv hcase hp).1 hrange
  exact ⟨nearest, hnearest, hscientific rfl⟩

/-- The alternate form asks for a point, and a percentage is written without one. -/
theorem render_percent_without_point :
    let spec : Spec := { alternate := true, conversion := .percent }
    ∃ w, (standard 0 4).render [] spec 0 none (.int 1) =
        .ok (Text.ofChars ("100".toList ++ ['%'])) ∧
      readDecimal? "100".toList = some (false, w) ∧
      ¬ (w.point ↔ 0 < 0 ∨ spec.alternate) := by
  intro spec
  have hrender : (standard 0 4).render [] spec 0 none (.int 1) =
      .ok (Text.ofChars ("100".toList ++ ['%'])) := by decide +kernel
  refine ⟨⟨"100".toList, false, [], none⟩, hrender, by decide, by decide⟩

end Registry

end Stencil
