import Stencil.Proofs.Registry.Counts
import Stencil.Proofs.Template.Append

/-! # Failures of renderers

A renderer knows nothing of the template and its arguments, and so no failure of it should say that
the template is malformed or that an argument is missing or no count. The standard renderers make no
such failure, whatever they are given to render.
-/

namespace Stencil

variable {α : Type} {e : Failure}

/-- The causes that lie in the value and its options. -/
def Failure.IsOfRendering : Failure → Prop
  | invalidSpec _ _ | typeMismatch _ _ | codePointOutOfRange _ | valueTooLarge _ | exceeded _
  | notInteger _ | negative _ | unsupported _ => True
  | malformedField _ _ _ | notEnoughArguments _ _ | positionOutOfRange _ _ _
  | unusableCount _ _ _ _ => False

abbrev FailsToRender (x : Except Failure α) : Prop := FailsOnly Failure.IsOfRendering x

abbrev FailsUnplaced (x : Except Failure α) : Prop := FailsOnly Failure.Unplaced x

theorem Failure.IsOfRendering.unplaced (h : e.IsOfRendering) : e.Unplaced := by
  rw [unplaced_iff]
  rintro wanted found offset rfl
  exact h

theorem FailsOnlyForDigits.failsToRender {x : Except Failure α} (h : FailsOnlyForDigits x) :
    FailsToRender x :=
  FailsOnly.mono h fun e he => by rw [he]; trivial

theorem repeated_failsToRender (fill : List α) (n : Nat) : FailsToRender (repeated fill n) :=
  .ite (.ok _) (.error trivial)

theorem spaces_failsToRender (n : Int) : FailsToRender (spaces n) :=
  .ite (.error trivial) (repeated_failsToRender _ _)

theorem pad_failsToRender (sign body fill : List α) (width : Int) (align : Align) :
    FailsToRender (pad sign body width fill align) := by
  cases align with
  | left | right | afterSign =>
    exact (repeated_failsToRender _ _).bind fun _ => .ok _
  | center =>
    exact (repeated_failsToRender _ _).bind fun _ =>
      (repeated_failsToRender _ _).bind fun _ => .ok _

theorem Tree.print_failsToRender (heap : Heap) (o : PrettyOptions) (order : List Nat) (t : Tree)
    (depth : Int) : FailsToRender (t.print heap o order depth) := by
  induction t using Tree.induct generalizing depth with
  | leaf v => exact (v.text_failsOnly heap).failsToRender
  | self => exact .ok _
  | branch address entries ih =>
    by_cases hn : entries = []
    · rw [hn]
      exact .ok _
    · rw [print_branch _ _ _ _ _ hn]
      have hline : ∀ entry ∈ entries, ∀ padding,
          FailsToRender (line padding (print heap o order (depth + 1)) entry) :=
        fun entry he padding => (((ih entry he).1 _).map _).bind fun key =>
          ((ih entry he).2 _).bind fun value => .ok _
      exact (spaces_failsToRender _).bind fun padding =>
        (FailsOnly.mapM fun entry he => hline entry he padding).bind fun lines =>
          (spaces_failsToRender _).bind fun closing => .ok _

theorem Value.pretty_failsToRender (heap : Heap) (o : PrettyOptions) (v : Value) :
    FailsToRender (v.pretty heap o) := by
  rw [pretty, printed_eq]
  exact Tree.print_failsToRender heap o _ _ _

namespace Number

variable {x : Number} {spec : Spec}

theorem styled_failsToRender {letter : Option Char} {style : Style} {alternate : Bool}
    {precision : Int} : FailsToRender (x.styled letter style alternate precision) := by
  unfold styled
  refine .ite (.error trivial) ?_
  split
  · exact .error trivial
  · exact .ite (.error trivial) (.ok _)

theorem floating_failsToRender (style : Style) (precision : Int) :
    FailsToRender (x.floating style spec precision) := by
  unfold floating
  split
  · exact .ok _
  · exact .ok _
  · exact styled_failsToRender.map _
  · exact styled_failsToRender

theorem toInt_failsToRender (letter : Option Char) : FailsToRender (x.toInt letter) := by
  cases x with
  | int n => exact .ok n
  | float y => exact .error trivial

theorem plain_failsToRender : FailsToRender x.plain := by
  cases x with
  | int n => exact (decimalText_failsOnly _).failsToRender
  | float y => exact .ok _

theorem character_failsToRender (n : Int) : FailsToRender (character n) := by
  unfold character
  split
  · exact .ok _
  · exact (decimalText_failsOnly n).failsToRender.bind fun _ =>
      .error trivial

theorem convert_failsToRender {defaultPrecision width : Int} {precision : Option Int} :
    FailsToRender (x.convert defaultPrecision spec width precision) := by
  cases h : spec.conversion with
  | binary | octal | hex =>
    simp only [convert, h, Value.toNumeral_natAbs]
    exact (toInt_failsToRender _).bind fun _ => .ok _
  | scientific | fixed | general =>
    simp only [convert, h]
    exact (floating_failsToRender _ _).bind fun _ => .ok _
  | percent =>
    simp only [convert, h]
    exact styled_failsToRender.bind fun _ => .ok _
  | char =>
    simp only [convert, h]
    exact (toInt_failsToRender _).bind fun n => (character_failsToRender n).bind fun _ => .ok _
  | standard | decimal | string | debug =>
    simp only [convert, h]
    exact plain_failsToRender.bind fun _ => .ok _

end Number

theorem Value.restLiteral_failsToRender (heap : Heap) (n : Int) (v : Value) :
    FailsToRender (v.restLiteral heap n) := by
  have hliteral (c : Container) : FailsToRender (c.literal (Value.literalWithin heap [])) :=
    (Container.literal_failsOnly (literalWithin_failsOnly heap []) c).failsToRender
  unfold restLiteral
  split
  · exact .ok _
  · exact .ok _
  · exact (rangeText_failsOnly _ _ _).failsToRender
  · split
    · exact .ite (literalWithin_failsOnly heap [] _).failsToRender (hliteral _)
    · exact hliteral _
    · exact .error trivial
  · exact .error trivial

namespace Renderer

def FailsOnly (p : Failure → Prop) (r : Renderer) : Prop :=
  ∀ heap v spec width precision, Stencil.FailsOnly p (r.convert heap v spec width precision)

def IsUnplaced (r : Renderer) : Prop :=
  ∀ heap v spec width precision, FailsUnplaced (r.convert heap v spec width precision)

theorem number_failsOnly (defaultPrecision : Int) :
    (number defaultPrecision).FailsOnly Failure.IsOfRendering := by
  intro heap v spec width precision
  unfold number
  dsimp only
  split
  · exact Number.convert_failsToRender
  · exact .ite (.error trivial) (.error trivial)

theorem text_failsOnly : text.FailsOnly Failure.IsOfRendering := by
  intro heap v spec width precision
  unfold text
  dsimp only
  refine .ite ((v.restLiteral_failsToRender heap _).bind fun _ => .ok _) ?_
  split
  · exact .ok _
  · exact .error trivial

theorem container_failsOnly (defaultIndent : Int) :
    (container defaultIndent).FailsOnly Failure.IsOfRendering :=
  fun heap v _ _ _ => .ite ((v.pretty_failsToRender heap _).bind fun _ => .ok _)
    ((v.pretty_failsToRender heap _).bind fun _ => .ok _)

theorem fallback_failsOnly : fallback.FailsOnly Failure.IsOfRendering := by
  intro heap v spec width precision
  unfold fallback
  dsimp only
  split
  · exact (v.literalWithin_failsOnly heap []).failsToRender.bind fun _ => .ok _
  · exact (v.text_failsOnly heap).failsToRender.bind fun _ => .ok _

end Renderer

namespace Registry

variable {registry : Registry} {heap : Heap} {v : Value} {spec : Spec} {width : Int}
  {precision : Option Int} {p : Failure → Prop}

theorem render_failsOnly_of (hp : ∀ e : Failure, e.IsOfRendering → p e)
    (hr : ∀ r ∈ registry, r.renderer.FailsOnly p) :
    FailsOnly p (registry.render heap spec width precision v) := by
  rw [render]
  cases hresolve : registry.resolve heap v with
  | none => exact .error (hp _ trivial)
  | some r =>
    obtain ⟨s, hs, rfl⟩ := Option.map_eq_some_iff.mp hresolve
    have hconvert := hr s (List.mem_of_find?_eq_some hs) heap v spec width precision
    refine .ite ?_ (.ite ?_ (.ite ?_ (.ite ?_ ?_)))
    · exact .error (hp _ trivial)
    · exact .error (hp _ trivial)
    · exact .error (hp _ trivial)
    · exact .error (hp _ trivial)
    · exact hconvert.bind fun _ => (pad_failsToRender _ _ _ _ _).mono hp

theorem standard_failsOnly (hp : ∀ e : Failure, e.IsOfRendering → p e)
    (defaultPrecision defaultIndent : Int) {further : List Registration}
    (h : ∀ r ∈ further, r.renderer.FailsOnly p) :
    ∀ r ∈ standard defaultPrecision defaultIndent further, r.renderer.FailsOnly p := by
  have hmono {r : Renderer} (hr : r.FailsOnly Failure.IsOfRendering) : r.FailsOnly p :=
    fun heap v spec width precision => (hr heap v spec width precision).mono hp
  intro r hr
  rcases mem_of_mem_standard hr with hr | hr
  · simp only [standardKinds, List.mem_cons, List.not_mem_nil, or_false] at hr
    rcases hr with rfl | rfl | rfl | rfl
    · exact hmono (Renderer.container_failsOnly defaultIndent)
    · exact hmono Renderer.text_failsOnly
    · exact hmono (Renderer.number_failsOnly defaultPrecision)
    · exact hmono Renderer.fallback_failsOnly
  · exact h r hr

theorem render_failsUnplaced (hr : ∀ r ∈ registry, r.renderer.IsUnplaced) :
    FailsUnplaced (registry.render heap spec width precision v) :=
  render_failsOnly_of (fun _ => Failure.IsOfRendering.unplaced) hr

theorem standard_isUnplaced (defaultPrecision defaultIndent : Int) {further : List Registration}
    (h : ∀ r ∈ further, r.renderer.IsUnplaced) :
    ∀ r ∈ standard defaultPrecision defaultIndent further, r.renderer.IsUnplaced :=
  standard_failsOnly (fun _ => Failure.IsOfRendering.unplaced) defaultPrecision defaultIndent h

end Registry

end Stencil
