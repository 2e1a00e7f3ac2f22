import Stencil.Proofs.Number.Shortest
import Stencil.Proofs.Registry.Rounded

/-! # Shortest texts of numbers

Without a notation a floating-point number is shown with the fewest digits from which it can be read
back, and with a minus if it is less than zero.
-/

namespace Stencil

/-- What is read off a text is the number nearest to the decimal, with the sign of the text. -/
def Double.IsReading (x : Double) (s : List Char) : Prop :=
  ∃ negative w magnitude, readDecimal? s = some (negative, w) ∧
    Magnitude.IsReading magnitude w.value ∧ x = .finite negative magnitude

def Conversion.plain : List Conversion := [standard, decimal, debug]

theorem Number.convert_of_plain {spec : Spec} (h : spec.conversion ∈ Conversion.plain) (x : Number)
    (defaultPrecision width : Int) (precision : Option Int) :
    x.convert defaultPrecision spec width precision = x.plain >>= fun s =>
      .ok ⟨spec.sign.shown x.isNegative, Text.ofChars s, width⟩ := by
  simp only [Conversion.plain, List.mem_cons, List.not_mem_nil, or_false] at h
  rcases h with h | h | h
  all_goals
    simp only [convert, h]
    rfl

namespace Registry

variable (heap : Heap) (defaultPrecision defaultIndent : Int)

theorem render_of_plain {spec : Spec} (h : spec.conversion ∈ Conversion.plain) (x : Double) :
    (standard defaultPrecision defaultIndent).render heap spec 0 none (.float x) =
      .ok (Text.ofChars (spec.sign.shown x.isNegative ++ x.unsignedText ".0".toList)) := by
  have hobjection : (Renderer.number defaultPrecision).objection? spec none = none := by
    refine Renderer.number_objection?_eq_none defaultPrecision ?_ nofun
    rintro hstring
    rw [hstring] at h
    exact absurd h (by decide)
  change (standard defaultPrecision defaultIndent).render heap spec 0 none
    (Number.float x).toValue = _
  rw [render_number, hobjection]
  dsimp only
  rw [Number.convert_of_plain h]
  exact Draft.pad_unfilled _ _ _ _

/-- The plain texts of a floating-point number are the same, have a minus exactly if the number is
less than zero, and are read as an equal number. They are the shortest, and written with an exponent
only if the weight of the first digit asks for one. -/
theorem render_standard_shortest (negative : Bool) (magnitude : Magnitude) :
    let x : Double := .finite negative magnitude
    let v := if negative then -magnitude.value else magnitude.value
    ∃ w : WrittenDecimal, magnitude.IsShortest w ∧
      let text := (if v < 0 then ['-'] else []) ++ w.text
      (∀ conversion ∈ [Conversion.standard, .decimal, .debug],
        (standard defaultPrecision defaultIndent).render heap { conversion } 0 none (.float x) =
          .ok (Text.ofChars text)) ∧
      readDecimal? text = some (decide (v < 0), w) ∧
      ∃ y : Double, (Number.float y).value? = some v ∧ ∀ z : Double, z.IsReading text ↔ z = y := by
  intro x v
  obtain ⟨w, htext, hproper, hshortest⟩ := magnitude.exists_written_text
  have hv : (Number.float x).value? = some v := rfl
  have hnegative : x.isNegative = decide (v < 0) := Number.isNegative_of_value? hv
  have hsign : (if v < 0 then ['-'] else []) = Sign.unset.shown (decide (v < 0)) := by
    by_cases h : v < 0 <;> simp [h, Sign.shown]
  have hreads := WrittenDecimal.readDecimal?_text hproper .unset (decide (v < 0)) 0
  refine ⟨w, hshortest, ?_⟩
  rw [hsign]
  refine ⟨fun conversion hc => ?_, hreads, .finite (decide (v < 0)) magnitude, ?_, fun z => ?_⟩
  · rw [htext, ← hnegative]
    exact render_of_plain heap defaultPrecision defaultIndent hc x
  · change some (if decide (v < 0) then -magnitude.value else magnitude.value) = some v
    rw [← Number.abs_of_value? hv]
    by_cases h : v < 0
    · rw [decide_eq_true h, if_pos rfl, abs_of_neg h, neg_neg]
    · rw [decide_eq_false h, if_neg Bool.false_ne_true, abs_of_nonneg (not_lt.mp h)]
  · constructor
    · rintro ⟨negative, w', magnitude', hreads', hreading, rfl⟩
      obtain ⟨rfl, rfl⟩ := Prod.mk.inj (Option.some.inj (hreads'.symm.trans hreads))
      rw [(hshortest.isReading_iff magnitude').mp hreading]
    · rintro rfl
      exact ⟨_, w, magnitude, hreads, (hshortest.isReading_iff magnitude).mpr rfl, rfl⟩

example :
    standard.render [] {} 0 none (.float (.finite true ⟨1, 0, by decide, by decide, by decide⟩)) =
      .ok (Text.ofChars "-5e-324".toList) := by
  decide +kernel

end Registry

end Stencil
