import Stencil.Proofs.Number.Range
import Stencil.Proofs.Registry.Failures
import Stencil.Proofs.Registry.Standard

/-! # What the standard registry accepts

Which options a value takes depends on its kind, and for an integer on its size as well. Every
option that it does not take is a refusal, and the first refusal that applies is the failure.
-/

namespace Stencil

theorem Draft.exists_pad_eq_ok {out : Draft} {spec : Spec} {width : Int} (hout : out.width ≤ width)
    (hw : IsCount width) (hfill : spec.fill.length * width.toNat ≤ repetitionLimit)
    (defaultAlign : Align) : ∃ text, out.pad spec defaultAlign = .ok text := by
  have hle : out.width.toNat ≤ width.toNat := Int.toNat_le_toNat hout
  have hlimit : width.toNat ≤ repetitionLimit :=
    Nat.le_trans (Int.toNat_le.mpr hw.2) (by decide)
  have hlength : (Text.ofChars spec.fill).length = spec.fill.length := List.length_map _
  apply Stencil.exists_pad_eq_ok
  · exact Nat.le_trans hle hlimit
  · rw [hlength]
    exact Nat.le_trans (Nat.mul_le_mul_left _ hle) hfill

/-- A reason to refuse a value, and whether it applies. -/
structure Refusal where
  applies : Bool
  failure : Failure

def firstRefusal (refusals : List Refusal) : Option Failure :=
  (refusals.find? (·.applies)).map (·.failure)

@[simp] theorem firstRefusal_nil : firstRefusal [] = none := rfl

@[simp] theorem firstRefusal_cons (r : Refusal) (rs : List Refusal) :
    firstRefusal (r :: rs) = if r.applies then some r.failure else firstRefusal rs := by
  unfold firstRefusal
  cases h : r.applies <;> simp [h]

theorem firstRefusal_eq_none_iff {rs : List Refusal} :
    firstRefusal rs = none ↔ ∀ r ∈ rs, r.applies = false := by
  simp [firstRefusal]

theorem firstRefusal_append (rs rs' : List Refusal) :
    firstRefusal (rs ++ rs') = (firstRefusal rs).or (firstRefusal rs') := by
  induction rs with
  | nil => rfl
  | cons r rs ih =>
    simp only [List.cons_append, firstRefusal_cons, ih]
    split <;> rfl

/-- Ends with the failure if there is one, and with a result otherwise. -/
def Verdict {α : Type} (refusal? : Option Failure) (x : Except Failure α) : Prop :=
  match refusal? with
  | some e => x = .error e
  | none => ∃ a, x = .ok a

namespace Verdict

variable {α β : Type} {refusal? : Option Failure} {x : Except Failure α}

theorem exists_eq_ok_iff (h : Verdict refusal? x) : (∃ a, x = .ok a) ↔ refusal? = none := by
  cases refusal? with
  | none => exact iff_of_true h rfl
  | some e =>
    obtain rfl : x = .error e := h
    exact iff_of_false (by rintro ⟨_, ⟨⟩⟩) nofun

theorem eq_error_iff (h : Verdict refusal? x) (e : Failure) :
    x = .error e ↔ refusal? = some e := by
  cases refusal? with
  | none =>
    obtain ⟨a, rfl⟩ := h
    exact iff_of_false nofun nofun
  | some e' =>
    obtain rfl : x = .error e' := h
    exact ⟨fun h => congrArg some (Except.error.inj h), fun h => congrArg _ (Option.some.inj h)⟩

theorem eq_error_iff_of_ite {refused : Prop} [Decidable refused] {failure : Failure}
    (h : Verdict (if refused then some failure else none) x) (e : Failure) :
    x = .error e ↔ refused ∧ e = failure := by
  rw [h.eq_error_iff, Option.ite_none_right_eq_some, Option.some_inj, eq_comm]

theorem bind_of_eq_ok {f : α → Except Failure β} (h : Verdict refusal? x)
    (hf : ∀ a, x = .ok a → ∃ b, f a = .ok b) : Verdict refusal? (x >>= f) := by
  cases refusal? with
  | none =>
    obtain ⟨a, rfl⟩ := h
    exact hf a rfl
  | some e =>
    obtain rfl : x = .error e := h
    rfl

theorem bind {f : α → Except Failure β} (h : Verdict refusal? x) (hf : ∀ a, ∃ b, f a = .ok b) :
    Verdict refusal? (x >>= f) :=
  h.bind_of_eq_ok fun a _ => hf a

theorem map (h : Verdict refusal? x) (f : α → β) : Verdict refusal? (x.map f) := by
  cases refusal? with
  | none =>
    obtain ⟨a, rfl⟩ := h
    exact ⟨f a, rfl⟩
  | some e =>
    obtain rfl : x = .error e := h
    rfl

theorem pad {x : Except Failure Draft} {spec : Spec} {size : Nat} {width : Int}
    (h : Verdict refusal? x) (hx : Drafts size width x) (hw : IsCount width)
    (hfill : spec.fill.length * width.toNat ≤ repetitionLimit) (defaultAlign : Align) :
    Verdict refusal? (x >>= Draft.pad spec defaultAlign) := by
  refine h.bind_of_eq_ok fun out hout => ?_
  rw [hout] at hx
  exact Draft.exists_pad_eq_ok hx hw hfill defaultAlign

end Verdict

def Conversion.notations : List Conversion := [.scientific, .fixed, .general]

def Conversion.integerOnly : List Conversion := [.binary, .octal, .hex, .char]

namespace Value

def kind (heap : Heap) (v : Value) : List Char :=
  if v.isComposite heap then "container".toList
  else if v.isString then "str".toList
  else if v.isNumber then "number".toList
  else "object".toList

def conversions (heap : Heap) (v : Value) : List Conversion :=
  if v.isNumber then [.standard, .decimal, .binary, .octal, .hex, .scientific, .fixed, .general,
    .percent, .char, .debug]
  else if v.isComposite heap ∨ v.isString then [.standard, .string, .debug]
  else [.standard, .debug]

def preciseConversions (v : Value) : List Conversion :=
  if v.isNumber then Conversion.notations
  else if v.isString then [.standard, .string, .debug]
  else []

def optionRefusals (heap : Heap) (spec : Spec) (precision : Option Int) (v : Value) :
    List Refusal :=
  [⟨¬ v.isNumber ∧ spec.sign ≠ .unset, .invalidSpec .sign (v.kind heap)⟩,
    ⟨¬ v.isNumber ∧ spec.align = some .afterSign, .invalidSpec .alignAfterSign (v.kind heap)⟩,
    ⟨spec.conversion ∉ v.conversions heap, .typeMismatch spec.letter? (v.kind heap)⟩,
    ⟨precision.isSome ∧ spec.conversion ∉ v.preciseConversions,
      .invalidSpec (.precision spec.letter?) (v.kind heap)⟩]

end Value

def Number.refusals (spec : Spec) : Number → List Refusal
  | float _ =>
    [⟨spec.conversion ∈ Conversion.integerOnly, .typeMismatch spec.letter? "float".toList⟩]
  | int n =>
    [⟨spec.conversion = .char ∧ (n < 0 ∨ 0x10FFFF < n), .codePointOutOfRange n⟩,
      ⟨spec.conversion ∈ Conversion.notations ∧ Magnitude.overflow ≤ n.natAbs,
        .valueTooLarge spec.letter?⟩,
      ⟨spec.conversion = .percent ∧ Magnitude.overflow ≤ 100 * n.natAbs,
        .valueTooLarge spec.letter?⟩]

def Value.numberRefusals (spec : Spec) : Value → List Refusal
  | .int n => (Number.int n).refusals spec
  | .float x => (Number.float x).refusals spec
  | _ => []

/-- The options come before what only a number is refused for. -/
def Value.refusals (heap : Heap) (spec : Spec) (precision : Option Int) (v : Value) :
    List Refusal :=
  v.optionRefusals heap spec precision ++ v.numberRefusals spec

/-- Neither a sign nor fills after one. -/
def Spec.IsUnsigned (spec : Spec) : Prop := spec.sign = .unset ∧ spec.align ≠ some .afterSign

/-- The value can be rendered with the options. -/
def Value.Accepts (heap : Heap) (spec : Spec) (precision : Option Int) : Value → Prop
  | .int n =>
    spec.conversion ≠ .string ∧ (precision.isSome → spec.conversion ∈ Conversion.notations) ∧
      (spec.conversion = .char → 0 ≤ n ∧ n ≤ 0x10FFFF) ∧
      (spec.conversion ∈ Conversion.notations → n.natAbs < Magnitude.overflow) ∧
      (spec.conversion = .percent → 100 * n.natAbs < Magnitude.overflow)
  | .float _ =>
    spec.conversion ∉ [.string, .binary, .octal, .hex, .char] ∧
      (precision.isSome → spec.conversion ∈ Conversion.notations)
  | .string _ => spec.IsUnsigned ∧ spec.conversion ∈ [.standard, .string, .debug]
  | v =>
    spec.IsUnsigned ∧ precision = none ∧
      if v.isComposite heap then spec.conversion ∈ [.standard, .string, .debug]
      else spec.conversion ∈ [.standard, .debug]

namespace Value

variable {heap : Heap} {v : Value} {defaultPrecision defaultIndent : Int}

theorem kind_standardRenderer :
    (v.standardRenderer heap defaultPrecision defaultIndent).kind = v.kind heap := by
  unfold standardRenderer kind
  split
  · rfl
  · split
    · rfl
    · split <;> rfl

theorem supported_standardRenderer :
    (v.standardRenderer heap defaultPrecision defaultIndent).supported = v.conversions heap := by
  unfold standardRenderer conversions
  split
  · next h =>
    rw [isNumber_of_isComposite h, if_neg Bool.false_ne_true, if_pos (.inl h)]
    rfl
  · next hc =>
    split
    · next h =>
      rw [isNumber_of_isString h, if_neg Bool.false_ne_true, if_pos (.inr h)]
      rfl
    · next hs =>
      rw [if_neg (not_or.mpr ⟨hc, hs⟩)]
      split <;> rfl

theorem takesPrecision_standardRenderer :
    (v.standardRenderer heap defaultPrecision defaultIndent).takesPrecision =
      v.preciseConversions := by
  unfold standardRenderer preciseConversions
  split
  · next h =>
    have hs : v.isString = false := by
      cases v with
      | container address => rfl
      | _ => cases h
    rw [isNumber_of_isComposite h, hs]
    rfl
  · split
    · next h =>
      rw [isNumber_of_isString h]
      rfl
    · split <;> rfl

theorem objection?_standardRenderer {spec : Spec} {precision : Option Int} :
    (v.standardRenderer heap defaultPrecision defaultIndent).objection? spec precision =
      firstRefusal (v.optionRefusals heap spec precision) := by
  simp only [Renderer.objection?, numeric_standardRenderer, kind_standardRenderer,
    supported_standardRenderer, takesPrecision_standardRenderer, optionRefusals,
    firstRefusal_cons, firstRefusal_nil, decide_eq_true_eq, Bool.not_eq_true]

end Value

namespace Number

variable {x : Number} {n : Int} {spec : Spec} {precision width : Int}

theorem toDouble?_int_eq_none_iff : (int n).toDouble? = none ↔ Magnitude.overflow ≤ n.natAbs := by
  rw [toDouble?, Option.map_eq_none_iff, ← Option.not_isSome_iff_eq_none,
    Magnitude.isSome_ofNat?_iff, Nat.not_lt]

theorem styled_verdict {letter : Option Char} {style : Style} {alternate : Bool}
    (h : IsCount precision) :
    Verdict (if x.toDouble? = none then some (.valueTooLarge letter) else none)
      (x.styled letter style alternate precision) := by
  rw [styled_of_isCount h]
  cases x.toDouble? with
  | none => rfl
  | some y => exact ⟨_, rfl⟩

theorem floating_verdict {style : Style} (h : IsCount precision) :
    Verdict (if x.toDouble? = none then some (.valueTooLarge spec.letter?) else none)
      (x.floating style spec precision) := by
  cases hc : spec.case with
  | lower =>
    simp only [floating, hc]
    exact styled_verdict h
  | upper =>
    rcases x with n | ⟨negative, magnitude⟩ | negative | _
    · simp only [floating, hc]
      exact (styled_verdict h).map _
    · simp only [floating, hc]
      exact (styled_verdict h).map _
    · simp only [floating, hc]
      exact ⟨_, rfl⟩
    · simp only [floating, hc]
      exact ⟨_, rfl⟩

theorem character_verdict (n : Int) :
    Verdict (if n < 0 ∨ 0x10FFFF < n then
      some (if Readable n.natAbs then .codePointOutOfRange n else .exceeded .digits) else none)
      (character n) := by
  have hnone : (if n < 0 then none else CodePoint.ofNat? n.toNat) = none ↔
      n < 0 ∨ 0x10FFFF < n := by
    split
    · next hneg => exact iff_of_true rfl (.inl hneg)
    · rw [← Option.not_isSome_iff_eq_none, CodePoint.ofNat?_isSome_iff]
      omega
  simp only [← hnone, character]
  cases (if n < 0 then none else CodePoint.ofNat? n.toNat) with
  | some p => exact ⟨p, rfl⟩
  | none =>
    by_cases h : Readable n.natAbs
    · rw [decimalText_eq_ok h, if_pos rfl, if_pos h]
      rfl
    · rw [decimalText_eq_error h, if_pos rfl, if_neg h]
      rfl

theorem plain_verdict (h : x.IsWritable) : Verdict none x.plain := by
  cases x with
  | int n =>
    rw [plain, decimalText_eq_ok (by rwa [Int.natAbs_natCast])]
    exact ⟨_, rfl⟩
  | float y => exact ⟨_, rfl⟩

variable {defaultPrecision : Int} {precision : Option Int}

theorem firstRefusal_of_integerOnly {y : Double} (h : spec.conversion ∈ Conversion.integerOnly) :
    firstRefusal ((float y).refusals spec) =
      some (.typeMismatch spec.letter? "float".toList) := by
  rw [refusals, firstRefusal_cons, if_pos (decide_eq_true h)]

theorem firstRefusal_of_floating (h : spec.conversion ∈ Conversion.notations) :
    firstRefusal (x.refusals spec) =
      if x.toDouble? = none then some (.valueTooLarge spec.letter?) else none := by
  simp only [Conversion.notations, List.mem_cons, List.not_mem_nil, or_false] at h
  cases x with
  | int n =>
    rcases h with h | h | h <;>
      simp [refusals, Conversion.notations, h, toDouble?_int_eq_none_iff]
  | float y => rcases h with h | h | h <;> simp [refusals, Conversion.integerOnly, h, toDouble?]

theorem firstRefusal_of_percent (h : spec.conversion = .percent) :
    firstRefusal (x.refusals spec) =
      if x.timesHundred.toDouble? = none then some (.valueTooLarge spec.letter?) else none := by
  cases x with
  | int n =>
    have habs : (n * 100).natAbs = 100 * n.natAbs := by omega
    simp [refusals, Conversion.notations, h, timesHundred, toDouble?_int_eq_none_iff, habs]
  | float y => simp [refusals, Conversion.integerOnly, h, timesHundred, toDouble?]

theorem convert_verdict_of_floating (h : spec.conversion ∈ Conversion.notations)
    (hp : IsCount (precision.getD defaultPrecision)) :
    Verdict (firstRefusal (x.refusals spec))
      (x.convert defaultPrecision spec width precision) := by
  rw [firstRefusal_of_floating h]
  simp only [Conversion.notations, List.mem_cons, List.not_mem_nil, or_false] at h
  rcases h with h | h | h
  all_goals
    simp only [convert, h]
    exact (floating_verdict hp).bind fun _ => ⟨_, rfl⟩

theorem convert_verdict_of_percent (h : spec.conversion = .percent) (hd : IsCount defaultPrecision) :
    Verdict (firstRefusal (x.refusals spec))
      (x.convert defaultPrecision spec width precision) := by
  rw [firstRefusal_of_percent h]
  simp only [convert, h]
  exact (styled_verdict hd).bind fun _ => ⟨_, rfl⟩

/-- A number is refused for the first reason there is, and converted if there is none. -/
theorem convert_verdict (hx : x.IsWritable) (hd : IsCount defaultPrecision)
    (hp : IsCount (precision.getD defaultPrecision)) :
    Verdict (firstRefusal (x.refusals spec))
      (x.convert defaultPrecision spec width precision) := by
  cases h : spec.conversion with
  | binary | octal | hex =>
    cases x with
    | int n =>
      have hnone : firstRefusal ((int n).refusals spec) = none := by
        simp [refusals, Conversion.notations, h]
      rw [hnone]
      simp only [convert, h, Value.toNumeral_natAbs]
      exact ⟨_, rfl⟩
    | float y =>
      rw [firstRefusal_of_integerOnly (by simp [Conversion.integerOnly, h])]
      simp only [convert, h]
      rfl
  | scientific | fixed | general =>
    exact convert_verdict_of_floating (by simp [Conversion.notations, h]) hp
  | percent => exact convert_verdict_of_percent h hd
  | char =>
    cases x with
    | int n =>
      have hrange : firstRefusal ((int n).refusals spec) =
          if n < 0 ∨ 0x10FFFF < n then some (.codePointOutOfRange n) else none := by
        simp [refusals, Conversion.notations, h]
      rw [hrange]
      simp only [convert, h]
      have hn : Readable n.natAbs := hx
      have hcharacter := character_verdict n
      rw [if_pos hn] at hcharacter
      exact hcharacter.bind fun _ => ⟨_, rfl⟩
    | float y =>
      rw [firstRefusal_of_integerOnly (by simp [Conversion.integerOnly, h])]
      simp only [convert, h]
      rfl
  | standard | decimal | string | debug =>
    have hnone : firstRefusal (x.refusals spec) = none := by
      cases x with
      | int n => simp [refusals, Conversion.notations, h]
      | float y => simp [refusals, Conversion.integerOnly, h]
    rw [hnone]
    simp only [convert, h]
    exact (plain_verdict hx).bind fun _ => ⟨_, rfl⟩

end Number

namespace Value

variable {heap : Heap} {v : Value} {spec : Spec} {precision : Option Int} {width : Int}
  {defaultPrecision defaultIndent : Int}

theorem numberRefusals_of_not_isNumber (h : v.isNumber = false) : v.numberRefusals spec = [] := by
  cases v with
  | int n => cases h
  | float x => cases h
  | _ => rfl

theorem convert_verdict (hheap : heap.IsWritable) (hv : v.IsManageable heap)
    (hd : IsCount defaultPrecision) (hi : IsCount defaultIndent) (hw : IsCount width)
    (hp : ∀ p ∈ precision, IsCount p) : Verdict (firstRefusal (v.numberRefusals spec))
      ((v.standardRenderer heap defaultPrecision defaultIndent).convert heap v spec width
        precision) := by
  unfold standardRenderer
  split
  · next h =>
    rw [numberRefusals_of_not_isNumber (isNumber_of_isComposite h), Renderer.container_convert]
    have hindent : IsCount (if width = 0 then defaultIndent else width) := by split <;> assumption
    obtain ⟨nested, hnested⟩ := hv.exists_pretty_eq_ok hheap hindent
    have hzero : IsCount 0 := by decide
    obtain ⟨flat, hflat⟩ := hv.exists_pretty_eq_ok hheap hzero
    rw [hnested, hflat]
    split
    · exact ⟨_, rfl⟩
    · exact ⟨_, rfl⟩
  · split
    · next h =>
      rw [numberRefusals_of_not_isNumber (isNumber_of_isString h)]
      cases v with
      | string s =>
        rw [Renderer.text_convert]
        exact ⟨_, rfl⟩
      | _ => cases h
    · split
      · next h =>
        have hprecision : IsCount (precision.getD defaultPrecision) := by
          cases precision with
          | none => exact hd
          | some p => exact hp p rfl
        cases v with
        | int n =>
          have hn : (Number.int n).IsWritable := hv.isWritable n (.int n)
          exact Number.convert_verdict hn hd hprecision
        | float x =>
          have hx : (Number.float x).IsWritable := trivial
          exact Number.convert_verdict hx hd hprecision
        | _ => cases h
      · next h =>
        rw [numberRefusals_of_not_isNumber (Bool.eq_false_iff.mpr h), Renderer.fallback_convert]
        obtain ⟨literal, hliteral⟩ := hv.isWritable.exists_literal_eq_ok
        obtain ⟨text, htext⟩ := hv.isWritable.exists_text_eq_ok
        rw [hliteral, htext]
        split
        · exact ⟨_, rfl⟩
        · exact ⟨_, rfl⟩

theorem drafts_convert (size : Nat) (hheap : heap.IsWritable) (hv : v.IsManageable heap)
    (hd : IsCount defaultPrecision) (hi : IsCount defaultIndent) (hw : IsCount width)
    (hp : ∀ p ∈ precision, IsCount p) :
    Drafts size width ((v.standardRenderer heap defaultPrecision defaultIndent).convert heap v spec
      width precision) := by
  have hr := Registry.resolve_standard defaultPrecision defaultIndent heap v
  obtain ⟨s, hs, hrenderer⟩ := Option.map_eq_some_iff.mp hr
  have haccepts := List.find?_some hs
  rw [← hrenderer]
  exact Registry.standard_isReliable hheap hd hi s (List.mem_of_find?_eq_some hs) v spec width
    precision haccepts hv hw hp

theorem firstRefusal_optionRefusals_eq_none_iff :
    firstRefusal (v.optionRefusals heap spec precision) = none ↔
      (v.isNumber = false → spec.IsUnsigned) ∧ spec.conversion ∈ v.conversions heap ∧
        (precision.isSome → spec.conversion ∈ v.preciseConversions) := by
  simp only [firstRefusal_eq_none_iff, optionRefusals, List.forall_mem_cons,
    decide_eq_false_iff_not, Spec.IsUnsigned, Bool.not_eq_true]
  cases v.isNumber <;> simp [and_assoc]

theorem mem_conversions_of_isNumber {c : Conversion} (h : v.isNumber) :
    c ∈ v.conversions heap ↔ c ≠ .string := by
  rw [conversions, if_pos h]
  cases c <;> simp

theorem accepts_iff_of_other (hn : v.isNumber = false) (hs : v.isString = false) :
    v.Accepts heap spec precision ↔
      spec.IsUnsigned ∧ precision = none ∧ spec.conversion ∈ v.conversions heap := by
  have haccepts : v.Accepts heap spec precision ↔ spec.IsUnsigned ∧ precision = none ∧
      if v.isComposite heap then spec.conversion ∈ [.standard, .string, .debug]
      else spec.conversion ∈ [.standard, .debug] := by
    cases v with
    | int n => cases hn
    | float x => cases hn
    | string s => cases hs
    | _ => exact Iff.rfl
  rw [haccepts, conversions, hn, hs, if_neg Bool.false_ne_true]
  cases v.isComposite heap <;> simp

/-- A value is accepted if there is no reason to refuse it. -/
theorem firstRefusal_refusals_eq_none_iff :
    firstRefusal (v.refusals heap spec precision) = none ↔ v.Accepts heap spec precision := by
  rw [refusals, firstRefusal_append, Option.or_eq_none_iff, firstRefusal_optionRefusals_eq_none_iff]
  have hother (hn : v.isNumber = false) (hs : v.isString = false) :
      ((v.isNumber = false → spec.IsUnsigned) ∧ spec.conversion ∈ v.conversions heap ∧
        (precision.isSome → spec.conversion ∈ v.preciseConversions)) ∧
          firstRefusal (v.numberRefusals spec) = none ↔ v.Accepts heap spec precision := by
    rw [accepts_iff_of_other hn hs, numberRefusals_of_not_isNumber hn, preciseConversions, hn, hs]
    cases precision <;> simp
  cases v with
  | int n =>
    have hnumber : (Value.int n).isNumber := rfl
    have hrefusals : firstRefusal ((Value.int n).numberRefusals spec) = none ↔
        (spec.conversion = .char → 0 ≤ n ∧ n ≤ 0x10FFFF) ∧
          (spec.conversion ∈ Conversion.notations → n.natAbs < Magnitude.overflow) ∧
          (spec.conversion = .percent → 100 * n.natAbs < Magnitude.overflow) := by
      rw [firstRefusal_eq_none_iff]
      simp [numberRefusals, Number.refusals]
    rw [mem_conversions_of_isNumber hnumber, hrefusals]
    constructor
    · rintro ⟨⟨-, hconversion, hprecision⟩, hsize⟩
      exact ⟨hconversion, hprecision, hsize⟩
    · rintro ⟨hconversion, hprecision, hsize⟩
      exact ⟨⟨nofun, hconversion, hprecision⟩, hsize⟩
  | float x =>
    have hnumber : (Value.float x).isNumber := rfl
    have hrefusals : firstRefusal ((Value.float x).numberRefusals spec) = none ↔
        spec.conversion ∉ Conversion.integerOnly := by
      rw [firstRefusal_eq_none_iff]
      simp [numberRefusals, Number.refusals]
    have hnot : spec.conversion ∉ [.string, .binary, .octal, .hex, .char] ↔
        spec.conversion ≠ .string ∧ spec.conversion ∉ Conversion.integerOnly := by
      rw [List.mem_cons, not_or]
      rfl
    rw [mem_conversions_of_isNumber hnumber, hrefusals, Accepts, hnot]
    constructor
    · rintro ⟨⟨-, hconversion, hprecision⟩, htype⟩
      exact ⟨⟨hconversion, htype⟩, hprecision⟩
    · rintro ⟨⟨hconversion, htype⟩, hprecision⟩
      exact ⟨⟨nofun, hconversion, hprecision⟩, htype⟩
  | string s =>
    constructor
    · rintro ⟨⟨hsign, hconversion, -⟩, -⟩
      exact ⟨hsign rfl, hconversion⟩
    · rintro ⟨hsign, hconversion⟩
      exact ⟨⟨fun _ => hsign, hconversion, fun _ => hconversion⟩, rfl⟩
  | _ => exact hother rfl rfl

end Value

namespace Registry

variable {heap : Heap} {v : Value} {spec : Spec} {precision : Option Int} {width : Int}
  {defaultPrecision defaultIndent : Int}

theorem render_verdict (hheap : heap.IsWritable) (hv : v.IsManageable heap) (hw : IsCount width)
    (hp : ∀ p ∈ precision, IsCount p) (hd : IsCount defaultPrecision) (hi : IsCount defaultIndent)
    (hfill : spec.fill.length * width.toNat ≤ repetitionLimit) :
    Verdict (firstRefusal (v.refusals heap spec precision))
      ((standard defaultPrecision defaultIndent).render heap spec width precision v) := by
  rw [render_of_resolve (resolve_standard _ _ heap v), Value.objection?_standardRenderer,
    Value.refusals, firstRefusal_append]
  cases firstRefusal (v.optionRefusals heap spec precision) with
  | some e => rfl
  | none =>
    exact (Value.convert_verdict hheap hv hd hi hw hp).pad
      (Value.drafts_convert 0 hheap hv hd hi hw hp) hw hfill _

/-- What the standard registry accepts. A value has a text exactly if it takes the options of its
field, and otherwise the failure is that of the first refusal. A fill is any text that can be
repeated over the width, such as a single character. -/
theorem render_standard_verdict {heap : Heap} (hheap : heap.IsWritable) {v : Value}
    (hv : v.IsManageable heap) {spec : Spec} {width : Int} (hw : IsCount width)
    {precision : Option Int} (hp : ∀ p ∈ precision, IsCount p)
    {defaultPrecision defaultIndent : Int} (hd : IsCount defaultPrecision)
    (hi : IsCount defaultIndent)
    (hfill : spec.fill.length * width.toNat ≤ repetitionLimit) :
    let rendered := (standard defaultPrecision defaultIndent).render heap spec width precision v
    ((∃ text, rendered = .ok text) ↔ v.Accepts heap spec precision) ∧
      ∀ e, rendered = .error e ↔ firstRefusal (v.refusals heap spec precision) = some e := by
  intro rendered
  have h : Verdict (firstRefusal (v.refusals heap spec precision)) rendered :=
    render_verdict hheap hv hw hp hd hi hfill
  constructor
  · rw [h.exists_eq_ok_iff, Value.firstRefusal_refusals_eq_none_iff]
  · exact h.eq_error_iff

/-- An integer that has a nearest double, while a hundred times as much has none. -/
theorem render_standard_verdict_percent :
    let v : Value := .int (2 ^ 1023)
    Heap.IsWritable [] ∧ v.IsManageable [] ∧ (∀ n ∈ [0, 6, 4], IsCount n) ∧
      (∃ text, standard.render [] { conversion := .fixed } 0 none v = .ok text) ∧
      standard.render [] { conversion := .percent } 0 none v =
        .error (.valueTooLarge (some '%')) := by
  intro v
  have hheap : Heap.IsWritable [] := nofun
  have hv : v.IsManageable [] :=
    .of_entries?_eq_none (Value.isWritable_int.mpr (by decide +kernel)) rfl
  have hcounts : ∀ n ∈ [0, 6, 4], IsCount n := by decide
  have hzero := hcounts 0 (by decide)
  have hsix := hcounts 6 (by decide)
  have hfour := hcounts 4 (by decide)
  have hnone : ∀ p ∈ (none : Option Int), IsCount p := by rintro p ⟨⟩
  refine ⟨hheap, hv, hcounts, ?_, ?_⟩
  · refine (render_standard_verdict hheap hv hzero hnone hsix hfour (by decide)).1.mpr ?_
    exact ⟨by decide, nofun, nofun, fun _ => by decide +kernel, nofun⟩
  · refine ((render_standard_verdict hheap hv hzero hnone hsix hfour (by decide)).2 _).mpr ?_
    decide +kernel

end Registry

end Stencil
