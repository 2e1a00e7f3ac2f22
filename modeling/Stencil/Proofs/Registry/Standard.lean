import Mathlib.Tactic.SplitIfs
import Stencil.Proofs.Registry.History

/-! # The standard registry

Every value has a standard renderer. It objects to options that are not meant for the kind of the
value, and drafts the value only if it has no objection. The draft is then padded.
-/

namespace Stencil

/-- Why the options of a field are refused before the value is looked at. -/
def Renderer.objection? (r : Renderer) (spec : Spec) (precision : Option Int) : Option Failure :=
  if r.numeric = false ∧ spec.sign ≠ .unset then some (.invalidSpec .sign r.kind)
  else if r.numeric = false ∧ spec.align = some .afterSign then
    some (.invalidSpec .alignAfterSign r.kind)
  else if spec.conversion ∉ r.supported then some (.typeMismatch spec.letter? r.kind)
  else if precision.isSome ∧ spec.conversion ∉ r.takesPrecision then
    some (.invalidSpec (.precision spec.letter?) r.kind)
  else none

theorem Renderer.objection?_eq_none_iff {r : Renderer} {spec : Spec} {precision : Option Int} :
    r.objection? spec precision = none ↔
      (r.numeric ∨ spec.sign = .unset) ∧ (r.numeric ∨ spec.align ≠ some .afterSign) ∧
        spec.conversion ∈ r.supported ∧
          (precision.isSome → spec.conversion ∈ r.takesPrecision) := by
  have hsome {c : Prop} [Decidable c] (e : Failure) (x : Option Failure) :
      (if c then some e else x) = none ↔ ¬ c ∧ x = none := by
    split <;> simp [*]
  simp only [objection?, hsome, and_true]
  grind

def Renderer.defaultAlign (r : Renderer) : Align := if r.numeric then .right else .left

def Draft.pad (spec : Spec) (defaultAlign : Align) (out : Draft) : Except Failure Text :=
  Stencil.pad (Text.ofChars out.sign) out.body out.width (Text.ofChars spec.fill)
    (spec.align.getD defaultAlign)

namespace Renderer

variable {heap : Heap} {v : Value} {spec : Spec} {width : Int} {precision : Option Int}

theorem container_convert {defaultIndent : Int} :
    (container defaultIndent).convert heap v spec width precision = if spec.alternate then
      (v.pretty heap { indent := if width = 0 then defaultIndent else width }).map
        fun shown => ⟨[], .ofChars shown, 0⟩
    else (v.pretty heap {}).map fun shown => ⟨[], .ofChars shown, width⟩ := by
  unfold container
  dsimp only
  split
  · cases v.pretty heap { indent := if width = 0 then defaultIndent else width } <;> rfl
  · cases v.pretty heap {} <;> rfl

theorem fallback_convert : fallback.convert heap v spec width precision =
    (if spec.conversion = .debug then v.literal heap else v.text heap).map
      fun shown => ⟨[], .ofChars shown, width⟩ := by
  unfold fallback
  dsimp only
  split
  · cases v.literal heap <;> rfl
  · cases v.text heap <;> rfl

end Renderer

namespace Value

variable {heap : Heap} {v : Value}

theorem isNumber_of_isComposite (h : v.isComposite heap) : v.isNumber = false := by
  cases v with
  | container address => rfl
  | _ => cases h

theorem isNumber_of_isString (h : v.isString) : v.isNumber = false := by
  cases v with
  | string s => rfl
  | _ => cases h

def standardRenderer (heap : Heap) (defaultPrecision defaultIndent : Int) (v : Value) :
    Renderer :=
  if v.isComposite heap then .container defaultIndent
  else if v.isString then .text
  else if v.isNumber then .number defaultPrecision
  else .fallback

theorem numeric_standardRenderer {defaultPrecision defaultIndent : Int} :
    (v.standardRenderer heap defaultPrecision defaultIndent).numeric = v.isNumber := by
  unfold standardRenderer
  split
  · next h => exact (isNumber_of_isComposite h).symm
  · split
    · next h => exact (isNumber_of_isString h).symm
    · split
      · next h => exact h.symm
      · next h => exact (Bool.eq_false_iff.mpr h).symm

end Value

namespace Registry

variable {registry : Registry} {r : Renderer} {heap : Heap} {spec : Spec} {width : Int}
  {precision : Option Int} {v : Value}

theorem render_of_resolve (h : registry.resolve heap v = some r) :
    registry.render heap spec width precision v = match r.objection? spec precision with
      | some e => .error e
      | none => r.convert heap v spec width precision >>= Draft.pad spec r.defaultAlign := by
  rw [render, h]
  unfold Renderer.objection?
  have halign : (if r.numeric then Align.right else .left) = r.defaultAlign := rfl
  simp only [halign]
  split_ifs <;> rfl

variable (defaultPrecision defaultIndent : Int)

theorem standard_eq :
    standard defaultPrecision defaultIndent = standardKinds defaultPrecision defaultIndent := by
  have hnames : ((standardKinds defaultPrecision defaultIndent).map (·.name)).Nodup := by
    change ["container".toList, "text".toList, "number".toList, "fallback".toList].Nodup
    decide
  have hpriorities :
      ((standardKinds defaultPrecision defaultIndent).map (·.priority)).Pairwise (· ≥ ·) := by
    change [(30 : Int), 20, 10, -999].Pairwise (· ≥ ·)
    decide
  rw [standard, List.append_nil]
  exact after_of_pairwise hnames ((List.pairwise_map.mp hpriorities).imp precedes_iff.mpr)

theorem resolve_standard (heap : Heap) (v : Value) :
    (standard defaultPrecision defaultIndent).resolve heap v =
      some (v.standardRenderer heap defaultPrecision defaultIndent) := by
  have hcontainer :
      (Registration.container defaultIndent).accepts heap v = v.isComposite heap := rfl
  have htext : Registration.text.accepts heap v = v.isString := rfl
  have hnumber : (Registration.number defaultPrecision).accepts heap v = v.isNumber := rfl
  have hfallback : Registration.fallback.accepts heap v = true := rfl
  rw [standard_eq, Value.standardRenderer, resolve, standardKinds]
  simp only [List.find?_cons, hcontainer, htext, hnumber, hfallback]
  cases v.isComposite heap with
  | true => rfl
  | false =>
    cases v.isString with
    | true => rfl
    | false => cases v.isNumber <;> rfl

end Registry

end Stencil
