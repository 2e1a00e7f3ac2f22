import Stencil.Proofs.Registry.Numbers

/-! # Capitals

In capitals a number has the text that it has in small letters, with other letters. Only a number
that is not finite can have a text in capitals and none in small letters, as its words need no
precision.
-/

namespace Stencil

/-- Both fail in the same category, or both end with results that are related. -/
inductive Agree {α β : Type} (r : α → β → Prop) : Except Failure α → Except Failure β → Prop
  | error {e e' : Failure} (h : e.category = e'.category) : Agree r (.error e) (.error e')
  | ok {a : α} {b : β} (h : r a b) : Agree r (.ok a) (.ok b)

namespace Agree

variable {α β γ δ : Type} {r : α → β → Prop} {x : Except Failure α} {y : Except Failure β}

theorem bind {s : γ → δ → Prop} {f : α → Except Failure γ} {g : β → Except Failure δ}
    (h : Agree r x y) (hfg : ∀ a b, r a b → Agree s (f a) (g b)) :
    Agree s (x >>= f) (y >>= g) := by
  cases h with
  | error h => exact .error h
  | ok h => exact hfg _ _ h

theorem map_right {s : α → γ → Prop} {g : β → γ} (h : Agree r x y)
    (hg : ∀ a b, r a b → s a (g b)) : Agree s x (y.map g) := by
  cases h with
  | error h => exact .error h
  | ok h => exact .ok (hg _ _ h)

end Agree

def IsCapitalised (s t : List Char) : Prop := t = s.map Char.toUpper

theorem IsCapitalised.append {s s' t t' : List Char} (hs : IsCapitalised s s')
    (ht : IsCapitalised t t') : IsCapitalised (s ++ t) (s' ++ t') := by
  rw [IsCapitalised, List.map_append, ← hs, ← ht]

namespace Number

variable {x : Number} {spec : Spec} {precision : Int}

def word? : Number → Option (List Char)
  | float .nan => some "NAN".toList
  | float (.infinite _) => some "INF".toList
  | int _ | float (.finite _ _) => none

theorem floating_lower (style : Style) : x.floating style { spec with case := .lower } precision =
    x.styled spec.conversion.letter? style spec.alternate precision :=
  floating_of_lower rfl style precision

theorem floating_upper (style : Style) : x.floating style { spec with case := .upper } precision =
    match x.word? with
    | some w => .ok w
    | none =>
      (x.styled (spec.conversion.letter?.map Char.toUpper) style spec.alternate precision).map
        (·.map Char.toUpper) := by
  rcases x with n | ⟨negative, magnitude⟩ | negative | _ <;> rfl

theorem styled_agree (x : Number) (letter letter' : Option Char) (style : Style)
    (alternate : Bool) (precision : Int) : Agree (· = ·) (x.styled letter style alternate precision)
      (x.styled letter' style alternate precision) := by
  unfold styled
  split
  · exact .error rfl
  · cases x.toDouble? with
    | none => exact .error rfl
    | some y =>
      dsimp only
      split
      · exact .error rfl
      · exact .ok rfl

theorem styled_of_word? {w : List Char} (hw : x.word? = some w) (letter : Option Char)
    (style : Style) (alternate : Bool) (precision : Int) :
    ∃ s, IsCapitalised s w ∧ x.styled letter style alternate precision =
      if IsCount precision then .ok s else .error (.exceeded .precision) := by
  obtain ⟨y, hy, hword⟩ : ∃ y : Double, x.toDouble? = some y ∧
      IsCapitalised (y.styled style alternate precision.toNat) w := by
    rcases x with n | ⟨negative, magnitude⟩ | negative | _ <;> cases hw
    · exact ⟨_, rfl, rfl⟩
    · exact ⟨_, rfl, rfl⟩
  refine ⟨_, hword, ?_⟩
  split_ifs with h
  · rw [styled_of_isCount h, hy]
  · simp only [styled, hy]
    split_ifs with hbound hlimit
    · rfl
    · rfl
    · exact absurd ⟨by omega, by simpa [precisionLimit, countLimit] using hlimit⟩ h

theorem floating_agree (style : Style)
    (h : x.word? = none ∨ IsCount precision) :
    Agree IsCapitalised (x.floating style { spec with case := .lower } precision)
      (x.floating style { spec with case := .upper } precision) := by
  rw [floating_lower, floating_upper]
  cases hw : x.word? with
  | none =>
    apply (x.styled_agree _ _ style spec.alternate precision).map_right
    rintro a _ rfl
    exact rfl
  | some w =>
    obtain ⟨s, hs, hstyled⟩ :=
      styled_of_word? hw spec.conversion.letter? style spec.alternate precision
    rw [hstyled, if_pos (h.resolve_left (by rw [hw]; nofun))]
    exact .ok hs

end Number

def Conversion.cased : List Conversion := .hex :: notations

/-- The second draft is the first one in capitals, and neither is to be filled. -/
def Draft.Capitalised (d d' : Draft) : Prop :=
  ∃ front body front' body', IsCapitalised front front' ∧ IsCapitalised body body' ∧
    d = ⟨front, Text.ofChars body, 0⟩ ∧ d' = ⟨front', Text.ofChars body', 0⟩

def Text.Capitalised (t u : Text) : Prop :=
  ∃ s s', IsCapitalised s s' ∧ t = Text.ofChars s ∧ u = Text.ofChars s'

theorem Sign.isCapitalised_shown (sign : Sign) (negative : Bool) :
    IsCapitalised (sign.shown negative) (sign.shown negative) := by
  cases negative <;> cases sign <;> rfl

namespace Number

variable {x : Number} {spec : Spec} {precision : Option Int} {defaultPrecision : Int}

theorem isCapitalised_basePrefix (spec : Spec) :
    IsCapitalised (basePrefix { spec with case := .lower })
      (basePrefix { spec with case := .upper }) := by
  unfold IsCapitalised basePrefix Spec.letter?
  cases spec.alternate
  · rfl
  · cases spec.conversion <;> rfl

theorem toInt_agree (letter letter' : Option Char) :
    Agree (· = ·) (x.toInt letter) (x.toInt letter') := by
  cases x with
  | int n => exact .ok rfl
  | float y => exact .error rfl

theorem convert_hex (hc : spec.conversion = .hex) (width : Int) :
    x.convert defaultPrecision spec width precision =
      x.toInt spec.letter? >>= fun n => .ok ⟨spec.sign.shown x.isNegative ++ basePrefix spec,
        Text.ofChars (numeral spec.case 16 n.natAbs), width⟩ := by
  simp only [convert, hc, Value.toNumeral_natAbs]
  rfl

theorem convert_hex_agree (hc : spec.conversion = .hex) :
    Agree Draft.Capitalised (x.convert defaultPrecision { spec with case := .lower } 0 precision)
      (x.convert defaultPrecision { spec with case := .upper } 0 precision) := by
  have hcase (case : Case) : ({ spec with case } : Spec).conversion = .hex := hc
  rw [convert_hex (hcase .lower), convert_hex (hcase .upper)]
  refine (toInt_agree _ _).bind fun n n' hn => ?_
  subst hn
  have hfront := (spec.sign.isCapitalised_shown x.isNegative).append
    (isCapitalised_basePrefix spec)
  exact .ok ⟨_, _, _, _, hfront, rfl, rfl, rfl⟩

theorem convert_floating_agree (hc : spec.conversion ∈ Conversion.notations)
    (h : x.word? = none ∨ IsCount (precision.getD defaultPrecision)) :
    Agree Draft.Capitalised (x.convert defaultPrecision { spec with case := .lower } 0 precision)
      (x.convert defaultPrecision { spec with case := .upper } 0 precision) := by
  obtain ⟨style, hstyle⟩ := Conversion.mem_notations_iff.mp hc
  have hcase (case : Case) : ({ spec with case } : Spec).conversion.style? = some style := hstyle
  rw [convert_of_style (hcase .lower), convert_of_style (hcase .upper)]
  refine (floating_agree style h).bind fun body body' hbody => ?_
  exact .ok ⟨_, _, _, _, spec.sign.isCapitalised_shown x.isNegative, hbody, rfl, rfl⟩

end Number

theorem Renderer.objection?_case (r : Renderer) (spec : Spec) (precision : Option Int) :
    (r.objection? { spec with case := .lower } precision).map Failure.category =
      (r.objection? { spec with case := .upper } precision).map Failure.category := by
  unfold objection?
  dsimp only
  split_ifs <;> rfl

namespace Registry

variable (heap : Heap) (x : Number) (spec : Spec) (precision : Option Int)
  (defaultPrecision defaultIndent : Int)

theorem render_case_agree
    (h : Agree Draft.Capitalised
      (x.convert defaultPrecision { spec with case := .lower } 0 precision)
      (x.convert defaultPrecision { spec with case := .upper } 0 precision)) :
    Agree Text.Capitalised
      ((standard defaultPrecision defaultIndent).render heap { spec with case := .lower } 0
        precision x.toValue)
      ((standard defaultPrecision defaultIndent).render heap { spec with case := .upper } 0
        precision x.toValue) := by
  have hobjection := (Renderer.number defaultPrecision).objection?_case spec precision
  rw [render_number, render_number]
  generalize (Renderer.number defaultPrecision).objection? { spec with case := .lower } precision =
    lower at hobjection ⊢
  generalize (Renderer.number defaultPrecision).objection? { spec with case := .upper } precision =
    upper at hobjection ⊢
  cases lower with
  | some e =>
    cases upper with
    | some e' => exact .error (Option.some.inj hobjection)
    | none => cases hobjection
  | none =>
    cases upper with
    | some e' => cases hobjection
    | none =>
      refine h.bind ?_
      rintro _ _ ⟨front, body, front', body', hfront, hbody, rfl, rfl⟩
      rw [Draft.pad_unfilled, Draft.pad_unfilled]
      exact .ok ⟨_, _, hfront.append hbody, rfl, rfl⟩

theorem render_word {w : List Char} (hw : x.word? = some w)
    (hc : spec.conversion ∈ Conversion.notations)
    (h : ¬ IsCount (precision.getD defaultPrecision)) :
    (standard defaultPrecision defaultIndent).render heap { spec with case := .lower } 0 precision
        x.toValue = .error (.exceeded .precision) ∧
      (standard defaultPrecision defaultIndent).render heap { spec with case := .upper } 0 precision
        x.toValue = .ok (Text.ofChars (spec.sign.shown x.isNegative ++ w)) := by
  obtain ⟨style, hstyle⟩ := Conversion.mem_notations_iff.mp hc
  have hobjection (case : Case) :
      (Renderer.number defaultPrecision).objection? { spec with case } precision = none := by
    have hnotation : ({ spec with case } : Spec).conversion ∈ Conversion.notations := hc
    exact Renderer.number_objection?_of_notation defaultPrecision hnotation precision
  have hcase (case : Case) : ({ spec with case } : Spec).conversion.style? = some style := hstyle
  obtain ⟨s, -, hstyled⟩ := Number.styled_of_word? hw spec.conversion.letter? style spec.alternate
    (precision.getD defaultPrecision)
  rw [if_neg h] at hstyled
  rw [render_number, render_number, hobjection, hobjection]
  dsimp only
  rw [Number.convert_of_style (hcase .lower), Number.convert_of_style (hcase .upper),
    Number.floating_lower, Number.floating_upper, hw, hstyled]
  exact ⟨rfl, Draft.pad_unfilled ..⟩

/-- Capitals change no more than the letters. In small letters and in capitals a number fails in the
same category, or its text in capitals is the other text with its letters in capitals. One exception
has to be made: a number that is not finite needs no precision in capitals, so that there no
precision is too large for it. -/
theorem render_standard_case (hc : spec.conversion ∈ Conversion.cased) :
    let render (case : Case) : Except Failure Text :=
      (standard defaultPrecision defaultIndent).render heap { spec with case } 0 precision x.toValue
    (spec.conversion = .hex ∨ x.word? = none ∨ IsCount (precision.getD defaultPrecision) →
      Agree Text.Capitalised (render .lower) (render .upper)) ∧
    ∀ w, x.word? = some w → spec.conversion ≠ .hex →
      ¬ IsCount (precision.getD defaultPrecision) →
        render .lower = .error (.exceeded .precision) ∧
        render .upper = .ok (Text.ofChars (spec.sign.shown x.isNegative ++ w)) := by
  intro render
  constructor
  · intro h
    apply render_case_agree
    rcases List.mem_cons.mp hc with hhex | hnotation
    · exact Number.convert_hex_agree hhex
    · refine Number.convert_floating_agree hnotation (h.resolve_left fun hhex => ?_)
      rw [hhex] at hnotation
      exact absurd hnotation (by decide)
  · intro w hw hhex hp
    exact render_word heap x spec precision defaultPrecision defaultIndent hw
      ((List.mem_cons.mp hc).resolve_left hhex) hp

/-- The mark of the base has a letter as well. -/
theorem render_standard_case_hex :
    let spec : Spec := { alternate := true, conversion := .hex }
    let render (case : Case) : Except Failure Text :=
      standard.render [] { spec with case } 0 none (.int (-48879))
    spec.conversion ∈ Conversion.cased ∧ render .lower = .ok (Text.ofChars "-0xbeef".toList) ∧
      render .upper = .ok (Text.ofChars "-0XBEEF".toList) ∧
      Agree Text.Capitalised (render .lower) (render .upper) := by
  intro spec render
  have hc : spec.conversion ∈ Conversion.cased := by decide
  have hlower : render .lower = .ok (Text.ofChars "-0xbeef".toList) := by decide +kernel
  have hupper : render .upper = .ok (Text.ofChars "-0XBEEF".toList) := by decide +kernel
  have hcase := render_standard_case [] (.int (-48879)) spec none 6 4 hc
  exact ⟨hc, hlower, hupper, hcase.1 (.inl rfl)⟩

/-- A precision that is too large for `nan` is no matter for `NAN`. -/
theorem render_nan_too_precise :
    let spec : Spec := { conversion := .fixed }
    let render (case : Case) : Except Failure Text :=
      standard.render [] { spec with case } 0 (some (2 ^ 31)) (.float .nan)
    render .lower = .error (.exceeded .precision) ∧
      render .upper = .ok (Text.ofChars "NAN".toList) ∧
      ¬ Agree Text.Capitalised (render .lower) (render .upper) := by
  intro spec render
  have hlower : render .lower = .error (.exceeded .precision) := by decide +kernel
  have hupper : render .upper = .ok (Text.ofChars "NAN".toList) := by decide +kernel
  refine ⟨hlower, hupper, ?_⟩
  rw [hlower, hupper]
  nofun

end Registry

end Stencil
