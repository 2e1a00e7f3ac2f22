import Stencil.Proofs.Registry.Layout
import Stencil.Proofs.Registry.Verdict

/-! # Rendering numbers

The standard registry renders a number with the renderer of numbers. Its options are checked, and
then it is converted and padded.
-/

namespace Stencil

def Number.toValue : Number → Value
  | int n => .int n
  | float x => .float x

theorem Draft.pad_unfilled (spec : Spec) (defaultAlign : Align) (front body : List Char) :
    Draft.pad spec defaultAlign ⟨front, Text.ofChars body, 0⟩ =
      .ok (Text.ofChars (front ++ body)) := by
  have happend : Text.ofChars (front ++ body) = Text.ofChars front ++ Text.ofChars body :=
    List.map_append
  rw [happend]
  exact pad_zero _ _ _ _

theorem Renderer.number_objection?_eq_none {spec : Spec} {precision : Option Int}
    (defaultPrecision : Int) (hc : spec.conversion ≠ .string)
    (hp : precision.isSome → spec.conversion ∈ Conversion.notations) :
    (number defaultPrecision).objection? spec precision = none := by
  refine objection?_eq_none_iff.mpr ⟨.inl rfl, .inl rfl, ?_, hp⟩
  have hsupported (c : Conversion) (hc : c ≠ .string) : c ∈ [Conversion.standard, .decimal, .binary,
      .octal, .hex, .scientific, .fixed, .general, .percent, .char, .debug] := by
    cases c with
    | string => exact absurd rfl hc
    | _ => decide
  exact hsupported _ hc

theorem Renderer.number_objection?_of_notation {spec : Spec} (defaultPrecision : Int)
    (hc : spec.conversion ∈ Conversion.notations) (precision : Option Int) :
    (number defaultPrecision).objection? spec precision = none := by
  refine number_objection?_eq_none defaultPrecision ?_ fun _ => hc
  intro hstring
  rw [hstring] at hc
  exact absurd hc (by decide)

def Conversion.style? : Conversion → Option Style
  | scientific => some .scientific
  | fixed => some .fixed
  | general => some .general
  | standard | decimal | binary | octal | hex | percent | string | char | debug => none

theorem Conversion.mem_notations_iff {c : Conversion} :
    c ∈ notations ↔ ∃ style, c.style? = some style := by
  rw [← Option.isSome_iff_exists]
  cases c <;> decide

namespace Number

variable {x : Number} {spec : Spec} {defaultPrecision : Int} {style : Style}

theorem floating_of_lower (h : spec.case = .lower) (style : Style) (precision : Int) :
    x.floating style spec precision = x.styled spec.letter? style spec.alternate precision := by
  unfold floating
  rw [h]

theorem convert_of_style (h : spec.conversion.style? = some style) (width : Int)
    (precision : Option Int) : x.convert defaultPrecision spec width precision =
      x.floating style spec (precision.getD defaultPrecision) >>= fun s =>
        .ok ⟨spec.sign.shown x.isNegative, Text.ofChars s, width⟩ := by
  cases hc : spec.conversion with
  | scientific | fixed | general =>
    rw [hc] at h
    cases h
    simp only [convert, hc]
    rfl
  | _ => rw [hc] at h; cases h

theorem convert_of_percent (h : spec.conversion = .percent) (width : Int) (precision : Option Int) :
    x.convert defaultPrecision spec width precision =
      x.timesHundred.styled spec.letter? .fixed false defaultPrecision >>= fun s =>
        .ok ⟨Sign.unset.shown x.isNegative, Text.ofChars (s ++ ['%']), width⟩ := by
  simp only [convert, h]
  rfl

end Number

namespace Registry

variable {heap : Heap} {x : Number} {spec : Spec} {precision : Option Int} {width : Int}
  {defaultPrecision defaultIndent : Int}

theorem render_number : (standard defaultPrecision defaultIndent).render heap spec width precision
    x.toValue = match (Renderer.number defaultPrecision).objection? spec precision with
      | some e => .error e
      | none => x.convert defaultPrecision spec width precision >>= Draft.pad spec .right := by
  have hrenderer : x.toValue.standardRenderer heap defaultPrecision defaultIndent =
      .number defaultPrecision := by
    cases x <;> rfl
  rw [render_of_resolve (resolve_standard _ _ heap _), hrenderer]
  cases x <;> rfl

end Registry

end Stencil
