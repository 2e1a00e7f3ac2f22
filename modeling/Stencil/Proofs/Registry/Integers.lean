import Stencil.Proofs.Field.Canonical
import Stencil.Proofs.Number.Numeral
import Stencil.Proofs.Registry.Layout

/-! # Integers in a base

An integer is shown as its sign, the mark of the base, and the numeral of its magnitude. Zeros that
fill the field go between the mark and the numeral, so that the integer can be read off the text at
any width.
-/

namespace Stencil

def Spec.digits? (spec : Spec) : Option (List Char) :=
  match spec.conversion, spec.case with
  | .standard, _ | .decimal, _ | .debug, _ => some "0123456789".toList
  | .binary, .lower => some "01".toList
  | .octal, .lower => some "01234567".toList
  | .hex, .lower => some "0123456789abcdef".toList
  | .hex, .upper => some "0123456789ABCDEF".toList
  | _, _ => none

def Spec.mark (spec : Spec) : List Char :=
  if spec.alternate then
    match spec.conversion, spec.case with
    | .binary, .lower => "0b".toList
    | .octal, .lower => "0o".toList
    | .hex, .lower => "0x".toList
    | .hex, .upper => "0X".toList
    | _, _ => []
  else []

/-- The width is left out, or it is filled with zeros after the sign. -/
def Spec.ZeroFilled (spec : Spec) (width : Int) : Prop :=
  width = 0 ∨ spec.fill = ['0'] ∧ spec.align = some .afterSign

variable {spec : Spec} {digits : List Char}

theorem Spec.idxOf?_zero (h : spec.digits? = some digits) : digits.idxOf? '0' = some 0 := by
  unfold digits? at h
  split at h <;> cases h <;> rfl

theorem Spec.not_sign_of_mem (h : spec.digits? = some digits) :
    ∀ c ∈ spec.mark ++ digits, c ∉ "+- ".toList := by
  rw [List.forall_mem_append]
  constructor
  · unfold mark
    split
    · split <;> decide
    · decide
  · unfold digits? at h
    split at h <;> cases h <;> decide

/-- A base that is not ten is that of a conversion of its own. -/
inductive Spec.HasBase (spec : Spec) : Nat → Prop
  | binary (h : spec.conversion = .binary) : spec.HasBase 2
  | octal (h : spec.conversion = .octal) : spec.HasBase 8
  | hex (h : spec.conversion = .hex) : spec.HasBase 16

theorem Spec.digits?_cases (h : spec.digits? = some digits) :
    ((spec.conversion = .standard ∨ spec.conversion = .decimal ∨ spec.conversion = .debug) ∧
        digits = "0123456789".toList ∧ spec.mark = []) ∨
      ∃ base, spec.HasBase base ∧ digits.length = base ∧ base ≠ 10 ∧
        spec.mark = Number.basePrefix spec ∧ ∀ n, IsNumeral digits n (numeral spec.case base n) := by
  have hten (hc : spec.conversion = .standard ∨ spec.conversion = .decimal ∨
      spec.conversion = .debug) : spec.mark = [] := by
    unfold mark
    rcases hc with hc | hc | hc <;> simp [hc]
  have hlower (digits : List Char) (hbase : 1 < digits.length)
      (hd : ∀ d < digits.length, digits.idxOf? d.digitChar = some d) (n : Nat) :
      IsNumeral digits n (numeral .lower digits.length n) := by
    simpa [numeral] using IsNumeral.map_toDigits id hbase hd n
  unfold digits? at h
  split at h
  case h_1 hc | h_2 hc | h_3 hc =>
    cases h
    have hc : spec.conversion = .standard ∨ spec.conversion = .decimal ∨
        spec.conversion = .debug := by simp [hc]
    exact .inl ⟨hc, rfl, hten hc⟩
  case h_4 hc hcase | h_5 hc hcase | h_6 hc hcase =>
    cases h
    refine .inr ⟨_, by constructor; exact hc, rfl, by decide, ?_, ?_⟩
    · simp [mark, Number.basePrefix, letter?, Conversion.letter?, hc, hcase]
    · rw [hcase]
      exact hlower _ (by decide) (by decide)
  case h_7 hc hcase =>
    cases h
    refine .inr ⟨16, .hex hc, rfl, by decide, ?_, ?_⟩
    · simp [mark, Number.basePrefix, letter?, Conversion.letter?, hc, hcase]
    · rw [hcase]
      exact .map_toDigits Char.toUpper (by decide) (by decide)
  case h_8 => cases h

theorem decimalText_natAbs (n : Int) : decimalText n.natAbs =
    if 10 ^ digitLimit ≤ n.natAbs then .error (.exceeded .digits)
    else .ok (Nat.toDigits 10 n.natAbs) := by
  have hlength : (natText n.natAbs).length ≤ digitLimit ↔ n.natAbs < 10 ^ digitLimit :=
    Nat.length_toDigits_le_iff (by decide) (by decide)
  have htext : intText n.natAbs = Nat.toDigits 10 n.natAbs := by
    rw [intText, if_neg (by omega)]
    rfl
  rw [decimalText, Int.natAbs_natCast, htext]
  by_cases h : n.natAbs < 10 ^ digitLimit
  · rw [if_pos (hlength.mpr h), if_neg (Nat.not_le_of_lt h)]
  · rw [if_neg (mt hlength.mp h), if_pos (Nat.le_of_not_lt h)]

namespace Number

variable {base : Nat} (defaultPrecision n width : Int) (precision : Option Int)

theorem convert_inBase (h : spec.HasBase base) :
    (int n).convert defaultPrecision spec width precision =
      .ok ⟨spec.sign.shown (n < 0) ++ basePrefix spec,
        Text.ofChars (numeral spec.case base n.natAbs), width⟩ := by
  rcases h with hc | hc | hc
  all_goals
    simp only [convert, hc, Value.toNumeral_natAbs]
    rfl

theorem convert_decimal (h : spec.conversion = .standard ∨ spec.conversion = .decimal ∨
    spec.conversion = .debug) :
    (int n).convert defaultPrecision spec width precision =
      if 10 ^ digitLimit ≤ n.natAbs then .error (.exceeded .digits)
      else .ok ⟨spec.sign.shown (n < 0), Text.ofChars (Nat.toDigits 10 n.natAbs), width⟩ := by
  have hplain : (int n).convert defaultPrecision spec width precision =
      decimalText n.natAbs >>= fun s => .ok ⟨spec.sign.shown (n < 0), Text.ofChars s, width⟩ := by
    unfold convert
    rcases h with hc | hc | hc
    all_goals
      rw [hc]
      rfl
  rw [hplain, decimalText_natAbs]
  split <;> rfl

/-- The draft of an integer in a base, which is refused only for too many decimal digits. -/
theorem convert_int (h : spec.digits? = some digits) :
    ∃ numeral, IsNumeral digits n.natAbs numeral ∧
      (int n).convert defaultPrecision spec width precision =
        if digits.length = 10 ∧ 10 ^ digitLimit ≤ n.natAbs then .error (.exceeded .digits)
        else .ok ⟨spec.sign.shown (n < 0) ++ spec.mark, Text.ofChars numeral, width⟩ := by
  rcases spec.digits?_cases h with
    ⟨hc, rfl, hm⟩ | ⟨base, hb, rfl, hten, hm, hnumeral⟩
  · refine ⟨_, .map_toDigits id (by decide) (by decide) n.natAbs, ?_⟩
    rw [convert_decimal _ _ _ _ hc, hm, List.map_id, List.append_nil]
    exact if_congr (and_iff_right rfl).symm rfl rfl
  · refine ⟨_, hnumeral n.natAbs, ?_⟩
    rw [convert_inBase _ _ _ _ hb, hm, if_neg fun h => hten h.1]

end Number

theorem Draft.pad_zeroFilled {width : Int} (hw : spec.ZeroFilled width) (defaultAlign : Align)
    (front body : List Char) :
    let zeros := (width - (front ++ body).length).toNat
    Draft.pad spec defaultAlign ⟨front, Text.ofChars body, width⟩ =
      if zeros ≤ repetitionLimit then
        .ok (Text.ofChars (front ++ (List.replicate zeros '0' ++ body)))
      else .error (.exceeded .repetition) := by
  intro zeros
  rcases hw with rfl | ⟨hfill, halign⟩
  · have hzeros : zeros = 0 := by omega
    rw [hzeros, if_pos (Nat.zero_le _)]
    refine (pad_zero _ _ _ _).trans ?_
    simp [Text.ofChars]
  · have hdeficit : (width - (Text.ofChars front).length - (Text.ofChars body).length).toNat =
        zeros := by
      simp only [Text.ofChars, List.length_map, zeros, List.length_append]
      omega
    have hzero : Text.ofChars ['0'] = [.scalar '0'] := rfl
    unfold Draft.pad Stencil.pad
    rw [hfill, halign, Option.getD_some]
    dsimp only
    rw [hdeficit, hzero]
    split
    · next h =>
      rw [repeated_singleton _ h]
      simp [Text.ofChars]
    · next h =>
      have : repeated [CodePoint.scalar '0'] zeros = .error (.exceeded .repetition) :=
        if_neg fun hn => h hn.1
      rw [this]
      rfl

theorem Text.ofChars_injective : Function.Injective Text.ofChars :=
  List.map_injective_iff.mpr fun _ _ h => CodePoint.scalar.inj h

namespace Registry

variable (heap : Heap) (defaultPrecision defaultIndent : Int)

theorem render_int_eq (h : spec.digits? = some digits) (n : Int) {width : Int}
    (hw : spec.ZeroFilled width) : ∃ numeral, IsNumeral digits n.natAbs numeral ∧
      let front := spec.sign.shown (n < 0) ++ spec.mark
      let zeros := (width - (front ++ numeral).length).toNat
      (standard defaultPrecision defaultIndent).render heap spec width none (.int n) =
        if digits.length = 10 ∧ 10 ^ digitLimit ≤ n.natAbs then .error (.exceeded .digits)
        else if zeros ≤ repetitionLimit then
          .ok (Text.ofChars (front ++ (List.replicate zeros '0' ++ numeral)))
        else .error (.exceeded .repetition) := by
  obtain ⟨numeral, hnumeral, hconvert⟩ :=
    Number.convert_int defaultPrecision n width none h
  refine ⟨numeral, hnumeral, ?_⟩
  have hr : (Value.int n).standardRenderer heap defaultPrecision defaultIndent =
      .number defaultPrecision := rfl
  have ho : (Renderer.number defaultPrecision).objection? spec none = none := by
    have hsupported : (Renderer.number defaultPrecision).supported = [.standard, .decimal, .binary,
        .octal, .hex, .scientific, .fixed, .general, .percent, .char, .debug] := rfl
    refine Renderer.objection?_eq_none_iff.mpr ⟨.inl rfl, .inl rfl, ?_, by rintro ⟨⟩⟩
    rw [hsupported]
    rcases spec.digits?_cases h with ⟨hc | hc | hc, -⟩ | ⟨_, hc | hc | hc, -⟩
    all_goals
      rw [hc]
      decide
  have hdraft : (Renderer.number defaultPrecision).convert heap (.int n) spec width none =
      (Number.int n).convert defaultPrecision spec width none := rfl
  rw [render_of_resolve (resolve_standard _ _ heap _), hr, ho]
  dsimp only
  rw [hdraft, hconvert]
  split
  · rfl
  · exact Draft.pad_zeroFilled hw _ _ numeral

theorem readInteger?_of_render (h : spec.digits? = some digits) {n width : Int}
    (hw : spec.ZeroFilled width) {text : Text} (htext : (standard defaultPrecision
      defaultIndent).render heap spec width none (.int n) = .ok text) :
    ∃ s, text = Text.ofChars s ∧ readInteger? digits spec.mark s = some n := by
  obtain ⟨numeral, hnumeral, hrender⟩ := render_int_eq heap defaultPrecision defaultIndent h n hw
  replace htext := hrender.symm.trans htext
  split at htext
  · cases htext
  · split at htext
    · cases htext
      refine ⟨_, rfl, ?_⟩
      rw [List.append_assoc]
      apply readInteger?_shown spec.sign (Spec.not_sign_of_mem h)
      · exact List.append_ne_nil_of_right_ne_nil _ hnumeral.ne_nil
      · rw [digitsValue?_zeros (Spec.idxOf?_zero h), hnumeral.value]
    · cases htext

/-- An integer is its sign, the mark of its base and its only numeral without superfluous zeros, and
further zeros if the field is filled with them. So the integer can be read off its text, and no two
integers have the same. -/
theorem render_standard_integer (h : spec.digits? = some digits) :
    let render (width n : Int) : Except Failure Text :=
      (standard defaultPrecision defaultIndent).render heap spec width none (.int n)
    (∀ n width, spec.ZeroFilled width → ∃ numeral,
      (∀ s, IsNumeral digits n.natAbs s ↔ s = numeral) ∧
      let front := spec.sign.shown (n < 0) ++ spec.mark
      let zeros := (width - (front ++ numeral).length).toNat
      render width n =
        if digits.length = 10 ∧ 10 ^ digitLimit ≤ n.natAbs then .error (.exceeded .digits)
        else if zeros ≤ repetitionLimit then
          .ok (Text.ofChars (front ++ (List.replicate zeros '0' ++ numeral)))
        else .error (.exceeded .repetition)) ∧
    (∀ n width text, spec.ZeroFilled width → render width n = .ok text →
      ∃ s, text = Text.ofChars s ∧ readInteger? digits spec.mark s = some n) ∧
    ∀ m n width width' text, spec.ZeroFilled width → spec.ZeroFilled width' →
      render width m = .ok text → render width' n = .ok text → m = n := by
  intro render
  refine ⟨?_, ?_, ?_⟩
  · intro n width hw
    obtain ⟨numeral, hnumeral, hrender⟩ :=
      render_int_eq heap defaultPrecision defaultIndent h n hw
    exact ⟨numeral, fun s => ⟨fun hs => hs.unique hnumeral, fun hs => hs ▸ hnumeral⟩, hrender⟩
  · intro n width text hw htext
    exact readInteger?_of_render heap defaultPrecision defaultIndent h hw htext
  · intro m n width width' text hw hw' hm hn
    obtain ⟨s, rfl, hs⟩ := readInteger?_of_render heap defaultPrecision defaultIndent h hw hm
    obtain ⟨t, ht, hn⟩ := readInteger?_of_render heap defaultPrecision defaultIndent h hw' hn
    rw [Text.ofChars_injective ht, hn] at hs
    exact (Option.some.inj hs).symm

/-- The zeros leave the mark in front, and the letters are capitals. -/
theorem render_standard_integer_hex :
    let spec : Spec :=
      { fill := ['0'], align := some .afterSign, sign := .plus, alternate := true, zeroPad := true,
        width := .literal 9, conversion := .hex, case := .upper }
    spec.digits? = some "0123456789ABCDEF".toList ∧ spec.ZeroFilled 9 ∧
      standard.render [] spec 9 none (.int (-48879)) = .ok (Text.ofChars "-0X00BEEF".toList) ∧
      ∃ s, Text.ofChars "-0X00BEEF".toList = Text.ofChars s ∧
        readInteger? "0123456789ABCDEF".toList "0X".toList s = some (-48879) := by
  intro spec
  have h : spec.digits? = some "0123456789ABCDEF".toList := rfl
  have hw : spec.ZeroFilled 9 := .inr ⟨rfl, rfl⟩
  have htext : standard.render [] spec 9 none (.int (-48879)) =
      .ok (Text.ofChars "-0X00BEEF".toList) := by decide +kernel
  exact ⟨h, hw, htext, (render_standard_integer [] 6 4 h).2.1 (-48879) 9 _ hw htext⟩

end Registry

end Stencil
