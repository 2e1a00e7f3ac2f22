import Stencil.Proofs.Registry.Integers
import Stencil.Proofs.Registry.Numbers
import Stencil.Proofs.Text.Unquoted

/-! # Quoted strings

The debug text of a string is the literal of what its precision leaves of it. So this tail can be
read off the text.
-/

namespace Stencil

open Quoted

theorem skip_of_nonneg {n : Int} (h : 0 ≤ n) (s : List Char) : skip n s = s.drop n.toNat :=
  if_neg (not_lt.mpr h)

namespace Registry

variable (heap : Heap) (defaultPrecision defaultIndent : Int) {spec : Spec} {precision : Option Int}

theorem render_debug_string (hc : spec.conversion = .debug) (hsign : spec.sign = .unset)
    (halign : spec.align ≠ some .afterSign) (hp : 0 ≤ precision.getD 0) (s : List Char) :
    (standard defaultPrecision defaultIndent).render heap spec 0 precision (.string s) =
      .ok (Text.ofChars (Quoted.literal (s.drop (precision.getD 0).toNat))) := by
  have hobjection : Renderer.text.objection? spec precision = none := by
    have hdebug : spec.conversion ∈ Renderer.text.takesPrecision := by rw [hc]; decide
    exact Renderer.objection?_eq_none_iff.mpr ⟨.inr hsign, .inr halign, hdebug, fun _ => hdebug⟩
  have hdraft : Renderer.text.convert heap (.string s) spec 0 precision =
      .ok ⟨[], Text.ofChars (Quoted.literal (s.drop (precision.getD 0).toNat)), 0⟩ := by
    rw [Renderer.text_convert, if_pos hc, skip_of_nonneg hp]
  have hrenderer : (Value.string s).standardRenderer heap defaultPrecision defaultIndent =
      .text := rfl
  rw [render_of_resolve (resolve_standard _ _ heap _), hrenderer, hobjection]
  dsimp only
  rw [hdraft]
  exact Draft.pad_unfilled spec _ [] _

/-- Debug text reads back. It is one literal, no part of which is a literal to begin with, it has
printable characters only, and it is that of one tail. -/
theorem render_standard_debug (hc : spec.conversion = .debug) (hsign : spec.sign = .unset)
    (halign : spec.align ≠ some .afterSign) (hp : 0 ≤ precision.getD 0) (s : List Char) :
    let render (precision : Option Int) (s : List Char) : Except Failure Text :=
      (standard defaultPrecision defaultIndent).render heap spec 0 precision (.string s)
    ∃ text, render precision s = .ok (Text.ofChars text) ∧
      readLiteral? text = some (s.drop (precision.getD 0).toNat) ∧
      (∀ u, u <+: text → u ≠ text → readLiteral? u = none) ∧
      (∀ c ∈ text, ∀ block ∈ unprintableBlocks, c.toNat < block.1 ∨ block.2 < c.toNat) ∧
      ∀ precision' t, 0 ≤ precision'.getD 0 → render precision' t = render precision s →
        t.drop (precision'.getD 0).toNat = s.drop (precision.getD 0).toNat := by
  intro render
  have hrender {precision : Option Int} (hp : 0 ≤ precision.getD 0) (s : List Char) :
      render precision s = .ok (Text.ofChars (Quoted.literal (s.drop (precision.getD 0).toNat))) :=
    render_debug_string heap defaultPrecision defaultIndent hc hsign halign hp s
  refine ⟨_, hrender hp s, readLiteral?_literal _, ?_, ?_, ?_⟩
  · intro u hu hne
    exact readLiteral?_eq_none_of_prefix (readLiteral?_literal _) hu hne
  · intro c hcmem
    exact isPrintable_iff.mp (isPrintable_literal _ c hcmem)
  · intro precision' t hp' heq
    rw [hrender hp', hrender hp] at heq
    have hliteral := congrArg readLiteral? (Text.ofChars_injective (Except.ok.inj heq))
    rw [readLiteral?_literal, readLiteral?_literal] at hliteral
    exact Option.some.inj hliteral

/-- Both quotes, and characters behind an escape that look like more digits of it. -/
theorem render_standard_debug_escapes :
    let spec : Spec := { conversion := .debug }
    let s := "x\x27\x22\x07f\\\u200b0".toList
    spec.conversion = .debug ∧ spec.sign = .unset ∧ spec.align ≠ some .afterSign ∧
      (0 : Int) ≤ (some 1).getD 0 ∧
      ∃ text, standard.render [] spec 0 (some 1) (.string s) = .ok (Text.ofChars text) ∧
        text = "\x27\\\x27\x22\\x07f\\\\\\u200b0\x27".toList ∧
        readLiteral? text = some (s.drop 1) := by
  intro spec s
  have hshown : standard.render [] spec 0 (some 1) (.string s) =
      .ok (Text.ofChars "\x27\\\x27\x22\\x07f\\\\\\u200b0\x27".toList) := by decide +kernel
  have hsign : spec.sign = .unset := rfl
  have halign : spec.align ≠ some .afterSign := by decide
  have hp : (0 : Int) ≤ (some 1).getD 0 := by decide
  obtain ⟨text, htext, hread, -⟩ :=
    render_standard_debug [] 6 4 rfl hsign halign hp s
  have heq := Text.ofChars_injective (Except.ok.inj (htext.symm.trans hshown))
  exact ⟨rfl, hsign, halign, hp, text, htext, heq, hread⟩

end Registry

end Stencil
