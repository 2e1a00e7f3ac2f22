import Stencil.Proofs.Registry.Failures
import Stencil.Proofs.Registry.Standard

/-! # Layout and content

A width puts fills into the text that a value has without one. Where they go is a matter of the
alignment, and it is all that the layout has a say in. Only a container in the alternate form has
its width as an indentation instead, and is never filled.
-/

namespace Stencil

/-- The text with fills behind it, before it, on both sides, or after its first characters. -/
def Text.layOut (align : Align) (sign count : Nat) (fill : CodePoint) (text : Text) : Text :=
  match align with
  | .left => text ++ List.replicate count fill
  | .right => List.replicate count fill ++ text
  | .center =>
    List.replicate (count / 2) fill ++ text ++ List.replicate (count - count / 2) fill
  | .afterSign => text.take sign ++ List.replicate count fill ++ text.drop sign

theorem Text.length_layOut (align : Align) (sign count : Nat) (fill : CodePoint) (text : Text) :
    (text.layOut align sign count fill).length = text.length + count := by
  cases align with
  | left => simp [layOut]
  | right => simp [layOut, Nat.add_comm]
  | center =>
    simp only [layOut, List.length_append, List.length_replicate]
    omega
  | afterSign =>
    simp only [layOut, List.length_append, List.length_replicate, List.length_take,
      List.length_drop]
    omega

theorem repeated_zero {α : Type} (fill : List α) : repeated fill 0 = .ok [] := by
  rw [repeated, if_pos ⟨Nat.zero_le _, Nat.zero_le _⟩]
  split <;> rfl

theorem repeated_singleton {α : Type} (a : α) {n : Nat} (h : n ≤ repetitionLimit) :
    repeated [a] n = .ok (List.replicate n a) := by
  have hlength : [a].length * n ≤ repetitionLimit := by rwa [List.length_singleton, Nat.one_mul]
  rw [repeated, if_pos ⟨h, hlength⟩]
  exact congrArg Except.ok List.flatten_replicate_singleton

theorem pad_zero {α : Type} (sign body fill : List α) (align : Align) :
    pad sign body 0 fill align = .ok (sign ++ body) := by
  have hdeficit : ((0 : Int) - sign.length - body.length).toNat = 0 := by omega
  unfold pad
  rw [hdeficit]
  cases align <;> simp [repeated_zero]

theorem pad_eq_layOut (sign body : Text) (fill : CodePoint) (align : Align) {width : Nat}
    (h : width ≤ repetitionLimit) : pad sign body width [fill] align =
      .ok ((sign ++ body).layOut align sign.length (width - (sign ++ body).length) fill) := by
  have hdeficit : ((width : Int) - sign.length - body.length).toNat =
      width - (sign ++ body).length := by
    rw [List.length_append]
    omega
  unfold pad
  rw [hdeficit]
  generalize hcount : width - (sign ++ body).length = count
  have hrepeated (n : Nat) (hn : n ≤ count) : repeated [fill] n = .ok (List.replicate n fill) :=
    repeated_singleton fill (by omega)
  cases align with
  | left | right =>
    simp only [hrepeated count (Nat.le_refl _), ok_bind, Text.layOut, List.append_assoc]
    rfl
  | center =>
    simp only [hrepeated (count / 2) (by omega), hrepeated (count - count / 2) (by omega), ok_bind,
      Text.layOut, List.append_assoc]
    rfl
  | afterSign =>
    simp only [hrepeated count (Nat.le_refl _), ok_bind, Text.layOut, List.take_left,
      List.drop_left]
    rfl

/-- What stays in front of fills after the sign: the sign, and the prefix of a base. -/
def Number.signSegment (spec : Spec) (x : Number) : List Char :=
  match spec.conversion with
  | .char => []
  | .percent => if x.isNegative then ['-'] else []
  | .binary | .octal | .hex => spec.sign.shown x.isNegative ++ basePrefix spec
  | .standard | .decimal | .scientific | .fixed | .general | .string | .debug =>
    spec.sign.shown x.isNegative

def Value.signSegment (spec : Spec) : Value → List Char
  | .int n => (Number.int n).signSegment spec
  | .float x => (Number.float x).signSegment spec
  | _ => []

theorem Value.signSegment_of_not_isNumber {v : Value} {spec : Spec} (h : v.isNumber = false) :
    v.signSegment spec = [] := by
  cases v with
  | int n => cases h
  | float x => cases h
  | _ => rfl

namespace Number

variable {x : Number} {defaultPrecision : Int} {spec : Spec}

theorem convert_width (width : Int) (precision : Option Int) :
    x.convert defaultPrecision spec width precision =
      (x.convert defaultPrecision spec 0 precision).map fun out => { out with width } := by
  have hmap {α : Type} (m : Except Failure α) (sign : List Char) (body : α → Text) :
      (m >>= fun a => .ok ⟨sign, body a, width⟩) =
        (m >>= fun a => .ok ⟨sign, body a, 0⟩).map fun out : Draft => { out with width } := by
    cases m <;> rfl
  cases h : spec.conversion with
  | binary | octal | hex =>
    simp only [convert, h, Value.toNumeral_natAbs]
    exact hmap _ _ _
  | scientific | fixed | general | percent | standard | decimal | string | debug =>
    simp only [convert, h]
    exact hmap _ _ _
  | char =>
    simp only [convert, h]
    cases x.toInt spec.letter? with
    | error e => rfl
    | ok n => exact hmap _ _ _

theorem sign_of_convert {width : Int} {precision : Option Int} {out : Draft}
    (h : x.convert defaultPrecision spec width precision = .ok out) :
    out.sign = x.signSegment spec := by
  cases hc : spec.conversion with
  | binary | octal | hex | scientific | fixed | general | standard | decimal | string | debug =>
    simp only [convert, hc] at h
    obtain ⟨a, -, h⟩ := bind_eq_ok_iff.mp h
    cases h
    simp only [signSegment, hc]
  | percent =>
    simp only [convert, hc] at h
    obtain ⟨a, -, h⟩ := bind_eq_ok_iff.mp h
    cases h
    simp only [signSegment, hc]
    rfl
  | char =>
    simp only [convert, hc] at h
    obtain ⟨n, -, h⟩ := bind_eq_ok_iff.mp h
    obtain ⟨p, -, h⟩ := bind_eq_ok_iff.mp h
    cases h
    simp only [signSegment, hc]

end Number

/-- A draft depends on no option of the layout, except that the width is passed on, and nothing but
the sign segment is kept apart from its body. -/
structure Renderer.IgnoresLayout (heap : Heap) (v : Value) (spec : Spec) (r : Renderer) : Prop where
  width : ∀ width precision, r.convert heap v spec width precision =
    (r.convert heap v spec 0 precision).map fun out => { out with width }
  layout : ∀ fill align zeroPad width precision,
    r.convert heap v { spec with fill, align, zeroPad } width precision =
      r.convert heap v spec width precision
  sign : ∀ width precision out, r.convert heap v spec width precision = .ok out →
    out.sign = v.signSegment spec

theorem Renderer.IgnoresLayout.withLayout {r : Renderer} {heap : Heap} {v : Value} {spec : Spec}
    (hi : r.IgnoresLayout heap v spec) (fill : List Char) (align : Option Align) (zeroPad : Bool) :
    r.IgnoresLayout heap v { spec with fill, align, zeroPad } := by
  constructor
  · intro width precision
    rw [hi.layout fill align zeroPad width, hi.layout fill align zeroPad 0, hi.width]
  · intro fill' align' zeroPad' width precision
    rw [hi.layout fill align zeroPad width]
    exact hi.layout fill' align' zeroPad' width precision
  · intro width precision out hout
    rw [hi.layout] at hout
    exact hi.sign width precision out hout

theorem Renderer.objection?_withLayout {r : Renderer} {spec : Spec} {precision : Option Int}
    (h : r.objection? spec precision = none) (fill : List Char) {align : Option Align}
    (zeroPad : Bool) (ha : r.numeric ∨ align ≠ some .afterSign) :
    r.objection? { spec with fill, align, zeroPad } precision = none := by
  obtain ⟨hsign, -, hsupported, hprecision⟩ := objection?_eq_none_iff.mp h
  exact objection?_eq_none_iff.mpr ⟨hsign, ha, hsupported, hprecision⟩

namespace Renderer

variable {heap : Heap} {v : Value} {spec : Spec}

theorem sign_of_map {shown : Except Failure (List Char)} {width : Int} {out : Draft}
    (h : shown.map (fun s => ⟨[], .ofChars s, width⟩) = .ok out) : out.sign = [] := by
  cases shown with
  | error e => cases h
  | ok s => cases h; rfl

theorem number_ignoresLayout {defaultPrecision : Int} (h : v.isNumber) :
    (number defaultPrecision).IgnoresLayout heap v spec := by
  obtain ⟨x, hx, hsign⟩ : ∃ x, v.toNumber? = some x ∧ v.signSegment spec = x.signSegment spec := by
    cases v with
    | int n => exact ⟨.int n, rfl, rfl⟩
    | float x => exact ⟨.float x, rfl, rfl⟩
    | _ => cases h
  have hconvert (spec : Spec) (width : Int) (precision : Option Int) :
      (number defaultPrecision).convert heap v spec width precision =
        x.convert defaultPrecision spec width precision := by
    unfold number
    dsimp only
    rw [hx]
  constructor
  · intro width precision
    simp only [hconvert]
    exact Number.convert_width width precision
  · intro fill align zeroPad width precision
    simp only [hconvert]
    rfl
  · intro width precision out hout
    rw [hconvert] at hout
    rw [Number.sign_of_convert hout, hsign]

theorem text_ignoresLayout (h : v.isString) : text.IgnoresLayout heap v spec := by
  cases v with
  | string s =>
    constructor
    · intro width precision
      rw [text_convert, text_convert]
      rfl
    · intro fill align zeroPad width precision
      rfl
    · intro width precision out hout
      rw [text_convert] at hout
      cases hout
      rfl
  | _ => cases h

theorem container_ignoresLayout {defaultIndent : Int} (h : v.isComposite heap)
    (hflat : spec.alternate = false) :
    (container defaultIndent).IgnoresLayout heap v spec := by
  have hsign : v.signSegment spec = [] :=
    Value.signSegment_of_not_isNumber (Value.isNumber_of_isComposite h)
  constructor
  · intro width precision
    simp only [container_convert, hflat, Bool.false_eq_true, if_false]
    cases v.pretty heap {} <;> rfl
  · intro fill align zeroPad width precision
    simp only [container_convert, hflat]
  · intro width precision out hout
    simp only [container_convert, hflat, Bool.false_eq_true, if_false] at hout
    rw [hsign]
    exact sign_of_map hout

theorem fallback_ignoresLayout (h : v.isNumber = false) :
    fallback.IgnoresLayout heap v spec := by
  constructor
  · intro width precision
    simp only [fallback_convert]
    generalize (if spec.conversion = .debug then v.literal heap else v.text heap) = shown
    cases shown <;> rfl
  · intro fill align zeroPad width precision
    simp only [fallback_convert]
  · intro width precision out hout
    rw [fallback_convert] at hout
    rw [Value.signSegment_of_not_isNumber h]
    exact sign_of_map hout

end Renderer

theorem Value.standardRenderer_ignoresLayout {heap : Heap} {v : Value} {spec : Spec}
    {defaultPrecision defaultIndent : Int} (h : ¬ (v.isComposite heap ∧ spec.alternate)) :
    (v.standardRenderer heap defaultPrecision defaultIndent).IgnoresLayout heap v spec := by
  unfold standardRenderer
  split
  · next hv => exact Renderer.container_ignoresLayout hv (by simpa [hv] using h)
  · split
    · next hv => exact Renderer.text_ignoresLayout hv
    · split
      · next hv => exact Renderer.number_ignoresLayout hv
      · next hv => exact Renderer.fallback_ignoresLayout (by simpa using hv)

namespace Registry

variable {registry : Registry} {r : Renderer} {heap : Heap} {v : Value} {spec : Spec}
  {precision : Option Int} {out : Draft}

theorem render_zero (hr : registry.resolve heap v = some r)
    (hi : r.IgnoresLayout heap v spec) (ho : r.objection? spec precision = none)
    (hout : r.convert heap v spec 0 precision = .ok out) :
    registry.render heap spec 0 precision v = .ok (Text.ofChars out.sign ++ out.body) := by
  have hwidth := hi.width 0 precision
  rw [hout] at hwidth
  rw [render_of_resolve hr, ho]
  dsimp only
  rw [hout, Except.ok.inj hwidth]
  exact pad_zero _ _ _ _

theorem render_eq_layOut (hr : registry.resolve heap v = some r)
    (hi : r.IgnoresLayout heap v spec) (ho : r.objection? spec precision = none)
    (hout : r.convert heap v spec 0 precision = .ok out) {c : Char} (hfill : spec.fill = [c])
    {width : Nat} (hw : width ≤ countLimit) :
    let text := Text.ofChars out.sign ++ out.body
    registry.render heap spec width precision v =
      .ok (text.layOut (spec.align.getD r.defaultAlign) (Text.ofChars out.sign).length
        (width - text.length) (.scalar c)) := by
  rw [render_of_resolve hr, ho]
  dsimp only
  rw [hi.width, hout]
  have hchar : Text.ofChars spec.fill = [.scalar c] := by rw [hfill]; rfl
  have hlimit : width ≤ repetitionLimit := Nat.le_trans hw (by decide)
  change pad (Text.ofChars out.sign) out.body width (Text.ofChars spec.fill) _ = _
  rw [hchar]
  exact pad_eq_layOut _ _ _ _ hlimit

theorem render_layout (hr : registry.resolve heap v = some r) (hi : r.IgnoresLayout heap v spec)
    {c : Char} (hfill : spec.fill = [c]) {width : Nat} (hw : width ≤ countLimit)
    (precision : Option Int) :
    (∃ e, registry.render heap spec 0 precision v = .error e ∧
      registry.render heap spec width precision v = .error e) ∨
    ∃ text shown, registry.render heap spec 0 precision v = .ok text ∧
      registry.render heap spec width precision v = .ok shown ∧
      (∀ fill align zeroPad, (r.numeric ∨ align ≠ some .afterSign) →
        registry.render heap { spec with fill, align, zeroPad } 0 precision v = .ok text) ∧
      shown.length = max width text.length ∧ Text.ofChars (v.signSegment spec) <+: text ∧
      shown = text.layOut (spec.align.getD r.defaultAlign) (v.signSegment spec).length
        (width - text.length) (.scalar c) := by
  cases ho : r.objection? spec precision with
  | some e =>
    refine .inl ⟨e, ?_, ?_⟩
    · rw [render_of_resolve hr, ho]
    · rw [render_of_resolve hr, ho]
  | none =>
    cases hout : r.convert heap v spec 0 precision with
    | error e =>
      refine .inl ⟨e, ?_, ?_⟩
      · rw [render_of_resolve hr, ho]
        dsimp only
        rw [hout, error_bind]
      · rw [render_of_resolve hr, ho]
        dsimp only
        rw [hi.width, hout]
        rfl
    | ok out =>
      have hsign := hi.sign 0 precision out hout
      refine .inr ⟨_, _, render_zero hr hi ho hout, render_eq_layOut hr hi ho hout hfill hw,
        ?_, ?_, ?_, ?_⟩
      · intro fill align zeroPad ha
        apply render_zero hr (hi.withLayout fill align zeroPad)
        · exact Renderer.objection?_withLayout ho fill zeroPad ha
        · rw [hi.layout, hout]
      · rw [Text.length_layOut]
        omega
      · rw [hsign]
        exact List.prefix_append _ _
      · rw [hsign, Text.ofChars, List.length_map]

variable {defaultPrecision defaultIndent : Int}

theorem render_alternate_container {width : Int} (hv : v.isComposite heap)
    (ha : spec.alternate) (shown : Text) :
    (standard defaultPrecision defaultIndent).render heap spec width precision v = .ok shown ↔
      (spec.sign = .unset ∧ spec.align ≠ some .afterSign ∧
        spec.conversion ∈ [.standard, .string, .debug] ∧ precision = none) ∧
      ∃ s, v.pretty heap { indent := if width = 0 then defaultIndent else width } = .ok s ∧
        shown = Text.ofChars s := by
  have hr : v.standardRenderer heap defaultPrecision defaultIndent = .container defaultIndent :=
    if_pos hv
  have ho : (Renderer.container defaultIndent).objection? spec precision = none ↔
      spec.sign = .unset ∧ spec.align ≠ some .afterSign ∧
        spec.conversion ∈ [.standard, .string, .debug] ∧ precision = none := by
    have hnumeric : (Renderer.container defaultIndent).numeric = false := rfl
    have hsupported :
        (Renderer.container defaultIndent).supported = [.standard, .string, .debug] := rfl
    have hprecision : (Renderer.container defaultIndent).takesPrecision = [] := rfl
    rw [Renderer.objection?_eq_none_iff, hnumeric, hsupported, hprecision]
    simp
  rw [render_of_resolve (resolve_standard _ _ heap v), hr, ← ho]
  cases (Renderer.container defaultIndent).objection? spec precision with
  | some e =>
    constructor
    · rintro ⟨⟩
    · rintro ⟨⟨⟩, -⟩
  | none =>
    dsimp only
    rw [Renderer.container_convert, if_pos ha]
    generalize v.pretty heap { indent := if width = 0 then defaultIndent else width } = result
    cases result with
    | error e =>
      constructor
      · rintro ⟨⟩
      · rintro ⟨-, _, ⟨⟩, -⟩
    | ok s =>
      have hpad : Draft.pad spec (Renderer.container defaultIndent).defaultAlign
          ⟨[], .ofChars s, 0⟩ = .ok (.ofChars s) := pad_zero _ _ _ _
      constructor
      · intro h
        exact ⟨rfl, s, rfl, (Except.ok.inj (hpad.symm.trans h)).symm⟩
      · rintro ⟨-, _, ⟨⟩, rfl⟩
        exact hpad

/-- Layout never touches content. At any width a value gets the same text with fills put in, or
fails in the same way, and the text itself is the same for every fill, alignment and flag. Only a
container in the alternate form has the width as an indentation, and gets no fills at all. -/
theorem render_standard_layout (heap : Heap) (v : Value) (spec : Spec) (precision : Option Int)
    (defaultPrecision defaultIndent : Int) :
    let render (spec : Spec) (width : Int) : Except Failure Text :=
      (standard defaultPrecision defaultIndent).render heap spec width precision v
    (¬ (v.isComposite heap ∧ spec.alternate) →
      ∀ (c : Char) (width : Nat), spec.fill = [c] → width ≤ countLimit →
        (∃ e, render spec 0 = .error e ∧ render spec width = .error e) ∨
        ∃ text shown, render spec 0 = .ok text ∧ render spec width = .ok shown ∧
          (∀ fill align zeroPad, (v.isNumber ∨ align ≠ some .afterSign) →
            render { spec with fill, align, zeroPad } 0 = .ok text) ∧
          shown.length = max width text.length ∧
          Text.ofChars (v.signSegment spec) <+: text ∧
          shown = text.layOut (spec.align.getD (if v.isNumber then .right else .left))
            (v.signSegment spec).length (width - text.length) (.scalar c)) ∧
      (v.isComposite heap → spec.alternate → ∀ (width : Int) (shown : Text),
        render spec width = .ok shown ↔
          (spec.sign = .unset ∧ spec.align ≠ some .afterSign ∧
            spec.conversion ∈ [.standard, .string, .debug] ∧ precision = none) ∧
          ∃ s, v.pretty heap { indent := if width = 0 then defaultIndent else width } = .ok s ∧
            shown = Text.ofChars s) := by
  intro render
  constructor
  · intro h c width hfill hw
    have hr := resolve_standard defaultPrecision defaultIndent heap v
    have hlayout := render_layout hr (v.standardRenderer_ignoresLayout h) hfill hw precision
    simp only [Renderer.defaultAlign, v.numeric_standardRenderer] at hlayout
    exact hlayout
  · intro hv ha width shown
    exact render_alternate_container hv ha shown

/-- The fills go between the prefix of the base and the digits. -/
theorem render_standard_layout_base :
    let spec : Spec :=
      { fill := ['*'], align := some .afterSign, alternate := true, conversion := .hex }
    ¬ ((Value.int (-255)).isComposite [] ∧ spec.alternate) ∧ 8 ≤ countLimit ∧
      standard.render [] spec 0 none (.int (-255)) = .ok (Text.ofChars "-0xff".toList) ∧
      standard.render [] spec 8 none (.int (-255)) = .ok (Text.ofChars "-0x***ff".toList) := by
  intro spec
  have hkind : ¬ ((Value.int (-255)).isComposite [] ∧ spec.alternate) := by
    rintro ⟨⟨⟩, -⟩
  have hlimit : 8 ≤ countLimit := by decide
  have hzero : standard.render [] spec 0 none (.int (-255)) =
      .ok (Text.ofChars "-0xff".toList) := by decide +kernel
  refine ⟨hkind, hlimit, hzero, ?_⟩
  rcases (render_standard_layout [] (.int (-255)) spec none 6 4).1 hkind '*' 8 rfl hlimit with
    ⟨e, he, -⟩ | ⟨text, shown, htext, hshown, -, -, -, hlaid⟩
  · cases hzero.symm.trans he
  · cases hzero.symm.trans htext
    rw [hlaid] at hshown
    exact hshown

end Registry

end Stencil
