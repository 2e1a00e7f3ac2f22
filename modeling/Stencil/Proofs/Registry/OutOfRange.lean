import Stencil.Proofs.Registry.Layout
import Stencil.Proofs.Registry.Verdict

/-! # Numbers out of range

An integer can be too large for a floating notation, or count no character. Both are failures of
range. The message of the second holds the integer, so that there one with too many digits fails for
its digits instead.
-/

namespace Stencil

/-- The conversions that do not represent every integer. -/
def Conversion.limited : List Conversion := .char :: .percent :: notations

namespace Number

variable {n : Int} {spec : Spec} {precision : Option Int} {width defaultPrecision : Int}

theorem width_of_convert {x : Number} {out : Draft}
    (h : x.convert defaultPrecision spec width precision = .ok out) : out.width = width := by
  rw [convert_width] at h
  cases hc : x.convert defaultPrecision spec 0 precision with
  | error e => rw [hc] at h; cases h
  | ok out' => rw [hc] at h; cases h; rfl

theorem firstRefusal_of_too_large (hc : spec.conversion ∈ .percent :: Conversion.notations) :
    firstRefusal ((int n).refusals spec) =
      if Magnitude.overflow ≤ (if spec.conversion = .percent then 100 * n.natAbs else n.natAbs) then
        some (.valueTooLarge spec.letter?) else none := by
  rcases List.mem_cons.mp hc with hc | hc
  · simp [refusals, Conversion.notations, hc]
  · simp only [Conversion.notations, List.mem_cons, List.not_mem_nil, or_false] at hc
    rcases hc with hc | hc | hc <;> simp [refusals, Conversion.notations, hc]

theorem character_eq_ok (hmin : 0 ≤ n) (hmax : n ≤ 0x10FFFF) :
    ∃ p : CodePoint, character n = .ok p ∧ (p.toNat : Int) = n := by
  obtain ⟨p, hp⟩ := Option.isSome_iff_exists.mp
    (CodePoint.ofNat?_isSome_iff.mpr (Int.toNat_le.mpr hmax))
  refine ⟨p, ?_, ?_⟩
  · rw [character, if_neg (Int.not_lt.mpr hmin), hp]
  · rw [CodePoint.toNat_of_ofNat? hp, Int.toNat_of_nonneg hmin]

end Number

namespace Registry

variable {heap : Heap} (defaultPrecision defaultIndent : Int) {n : Int} {spec : Spec}
  {precision : Option Int} {width : Int}

theorem render_int (ho : firstRefusal ((Value.int n).optionRefusals heap spec precision) = none)
    (width : Int) :
    (standard defaultPrecision defaultIndent).render heap spec width precision (.int n) =
      (Number.int n).convert defaultPrecision spec width precision >>= Draft.pad spec .right := by
  rw [render_of_resolve (resolve_standard _ _ heap _), Value.objection?_standardRenderer, ho]
  rfl

theorem render_char (ho : firstRefusal ((Value.int n).optionRefusals heap spec precision) = none)
    (hc : spec.conversion = .char) (width : Int) :
    (standard defaultPrecision defaultIndent).render heap spec width precision (.int n) =
      Number.character n >>= fun p =>
        pad [] [p] width (Text.ofChars spec.fill) (spec.align.getD .right) := by
  rw [render_int defaultPrecision defaultIndent ho]
  simp only [Number.convert, hc, Number.toInt, ok_bind]
  cases Number.character n <;> rfl

theorem render_char_eq_error_iff
    (ho : firstRefusal ((Value.int n).optionRefusals heap spec precision) = none)
    (hc : spec.conversion = .char) (hw : IsCount width)
    (hfill : spec.fill.length * width.toNat ≤ repetitionLimit) (e : Failure) :
    (standard defaultPrecision defaultIndent).render heap spec width precision (.int n) =
        .error e ↔
      (n < 0 ∨ 0x10FFFF < n) ∧
        e = if Readable n.natAbs then .codePointOutOfRange n else .exceeded .digits := by
  rw [render_char defaultPrecision defaultIndent ho hc]
  refine ((Number.character_verdict n).bind fun p => ?_).eq_error_iff_of_ite e
  have hpad : ∃ text, Draft.pad spec .right ⟨[], [p], width⟩ = .ok text :=
    Draft.exists_pad_eq_ok (Int.le_refl _) hw hfill .right
  exact hpad

theorem exists_render_char
    (ho : firstRefusal ((Value.int n).optionRefusals heap spec precision) = none)
    (hc : spec.conversion = .char) (hmin : 0 ≤ n) (hmax : n ≤ 0x10FFFF) :
    ∃ p : CodePoint, (p.toNat : Int) = n ∧ ∀ width,
      (standard defaultPrecision defaultIndent).render heap spec width precision (.int n) =
        pad [] [p] width (Text.ofChars spec.fill) (spec.align.getD .right) := by
  obtain ⟨p, hp, hvalue⟩ := Number.character_eq_ok hmin hmax
  refine ⟨p, hvalue, fun width => ?_⟩
  rw [render_char defaultPrecision defaultIndent ho hc, hp]
  rfl

theorem render_eq_error_iff_of_too_large
    (ho : firstRefusal ((Value.int n).optionRefusals heap spec precision) = none)
    (hc : spec.conversion ∈ .percent :: Conversion.notations) (hw : IsCount width)
    (hp : ∀ p ∈ precision, IsCount p) (hd : IsCount defaultPrecision)
    (hfill : spec.fill.length * width.toNat ≤ repetitionLimit) (e : Failure) :
    (standard defaultPrecision defaultIndent).render heap spec width precision (.int n) =
        .error e ↔
      Magnitude.overflow ≤ (if spec.conversion = .percent then 100 * n.natAbs else n.natAbs) ∧
        e = .valueTooLarge spec.letter? := by
  have hprecision : IsCount (precision.getD defaultPrecision) := by
    cases precision with
    | none => exact hd
    | some p => exact hp p rfl
  have hconvert : Verdict (firstRefusal ((Number.int n).refusals spec))
      ((Number.int n).convert defaultPrecision spec width precision) := by
    rcases List.mem_cons.mp hc with hc | hc
    · exact Number.convert_verdict_of_percent hc hd
    · exact Number.convert_verdict_of_floating hc hprecision
  have hverdict := hconvert.bind_of_eq_ok fun out hout =>
    Draft.exists_pad_eq_ok (Number.width_of_convert hout).le hw hfill .right
  rw [← render_int defaultPrecision defaultIndent ho,
    Number.firstRefusal_of_too_large hc] at hverdict
  exact hverdict.eq_error_iff_of_ite e

/-- A conversion that does not represent every integer fails for no other reason than the range, if
the options are in order. As a character an integer is one exactly if it is a code point, and in the
other notations if it has a nearest double. One exception has to be made: an integer with too many
digits is no code point, but the failure is that of its digits. -/
theorem render_standard_out_of_range (hc : spec.conversion ∈ Conversion.limited)
    (ho : firstRefusal ((Value.int n).optionRefusals heap spec precision) = none)
    (hw : IsCount width) (hp : ∀ p ∈ precision, IsCount p) (hd : IsCount defaultPrecision)
    (hfill : spec.fill.length * width.toNat ≤ repetitionLimit) :
    let render (width : Int) : Except Failure Text :=
      (standard defaultPrecision defaultIndent).render heap spec width precision (.int n)
    ((∃ text, render width = .ok text) ∨
      (∃ e : Failure, render width = .error e ∧ e.category = .range) ∨
      spec.conversion = .char ∧ ¬ Readable n.natAbs ∧ render width = .error (.exceeded .digits)) ∧
    (spec.conversion = .char →
      (∀ e, render width = .error e ↔ (n < 0 ∨ 0x10FFFF < n) ∧
        e = if Readable n.natAbs then .codePointOutOfRange n else .exceeded .digits) ∧
      (0 ≤ n → n ≤ 0x10FFFF → ∃ p : CodePoint, (p.toNat : Int) = n ∧ render 0 = .ok [p] ∧
        render width =
          pad [] [p] width (Text.ofChars spec.fill) (spec.align.getD .right))) ∧
    (spec.conversion ≠ .char → ∀ e, render width = .error e ↔ e = .valueTooLarge spec.letter? ∧
      Magnitude.overflow ≤ if spec.conversion = .percent then 100 * n.natAbs else n.natAbs) := by
  intro render
  by_cases hchar : spec.conversion = .char
  · have herror := render_char_eq_error_iff defaultPrecision defaultIndent ho hchar hw hfill
    refine ⟨?_, fun _ => ⟨herror, fun hmin hmax => ?_⟩, fun h => absurd hchar h⟩
    · cases hrender : render width with
      | ok text => exact .inl ⟨text, rfl⟩
      | error e =>
        obtain ⟨-, he⟩ := (herror e).mp hrender
        by_cases hn : Readable n.natAbs
        · rw [if_pos hn] at he
          subst he
          exact .inr (.inl ⟨_, rfl, rfl⟩)
        · rw [if_neg hn] at he
          subst he
          exact .inr (.inr ⟨hchar, hn, rfl⟩)
    · obtain ⟨p, hvalue, hrender⟩ :=
        exists_render_char defaultPrecision defaultIndent ho hchar hmin hmax
      exact ⟨p, hvalue, (hrender 0).trans (pad_zero ..), hrender width⟩
  · have herror := render_eq_error_iff_of_too_large defaultPrecision defaultIndent ho
      ((List.mem_cons.mp hc).resolve_left hchar) hw hp hd hfill
    refine ⟨?_, fun h => absurd h hchar, fun _ e => (herror e).trans and_comm⟩
    cases hrender : render width with
    | ok text => exact .inl ⟨text, rfl⟩
    | error e =>
      obtain ⟨-, rfl⟩ := (herror e).mp hrender
      exact .inr (.inl ⟨_, rfl, rfl⟩)

/-- The first integer that is no code point. -/
theorem render_standard_out_of_range_char :
    let spec : Spec := { conversion := .char }
    let n : Int := 0x110000
    spec.conversion ∈ Conversion.limited ∧
      firstRefusal ((Value.int n).optionRefusals [] spec none) = none ∧
      (∀ k ∈ [8, 6], IsCount k) ∧ spec.fill.length * (8 : Int).toNat ≤ repetitionLimit ∧
      standard.render [] spec 8 none (.int n) = .error (.codePointOutOfRange n) := by
  intro spec n
  have hc : spec.conversion ∈ Conversion.limited := by decide
  have ho : firstRefusal ((Value.int n).optionRefusals [] spec none) = none := by decide
  have hcounts : ∀ k ∈ [8, 6], IsCount k := by decide
  have hfill : spec.fill.length * (8 : Int).toNat ≤ repetitionLimit := by decide
  have hn : Readable n.natAbs := by decide +kernel
  refine ⟨hc, ho, hcounts, hfill, ?_⟩
  have hrange := render_standard_out_of_range 6 4 hc ho (hcounts 8 (by decide)) nofun
    (hcounts 6 (by decide)) hfill
  refine ((hrange.2.1 rfl).1 _).mpr ⟨.inr (by decide), ?_⟩
  rw [if_pos hn]

/-- The least integer with too many digits is no code point, and yet that is not what is said. -/
theorem render_char_too_many_digits :
    let spec : Spec := { conversion := .char }
    let n : Int := 10 ^ 4300
    let rendered := standard.render [] spec 0 none (.int n)
    firstRefusal ((Value.int n).optionRefusals [] spec none) = none ∧ 0x10FFFF < n ∧
      rendered = .error (.exceeded .digits) ∧
      ¬ ((∃ text, rendered = .ok text) ∨
        ∃ e : Failure, rendered = .error e ∧ e.category = .range) := by
  intro spec n rendered
  have hlarge : 0x10FFFF < n := by decide +kernel
  have hn : ¬ Readable n.natAbs := by decide +kernel
  clear_value n
  have ho : firstRefusal ((Value.int n).optionRefusals [] spec none) = none := rfl
  have herror : rendered = .error (.exceeded .digits) := by
    have hwidth : IsCount 0 := by decide
    refine (render_char_eq_error_iff 6 4 ho rfl hwidth (by decide) _).mpr ⟨.inr hlarge, ?_⟩
    rw [if_neg hn]
  refine ⟨ho, hlarge, herror, ?_⟩
  rw [herror]
  rintro (⟨text, h⟩ | ⟨e, h, he⟩)
  · cases h
  · cases h
    cases he

end Registry

end Stencil
