import Stencil.Proofs.Registry.Counts
import Stencil.Proofs.Tree.Writable

/-! # Failures of renderers

The standard renderers are given a value whose integers can be written, and counts within a limit.
They make a draft of it or fail for a reason that can be put in words, and a draft can be padded.
-/

namespace Stencil

/-- What kind of failure it is, apart from the facts that belong to it. The limits on numbers are
one kind, and the limit on repetitions is another. -/
inductive FailureCategory
  | malformedField | invalidSpec | typeMismatch | range | count | number | repetition | magnitude
  | unsupported
  deriving DecidableEq

def Failure.category : Failure → FailureCategory
  | malformedField _ _ _ => .malformedField
  | invalidSpec _ _ => .invalidSpec
  | typeMismatch _ _ => .typeMismatch
  | notEnoughArguments _ _ | positionOutOfRange _ _ _ | codePointOutOfRange _ | valueTooLarge _ =>
    .range
  | unusableCount _ _ _ _ => .count
  | exceeded .digits | exceeded .precision => .number
  | exceeded .repetition => .repetition
  | notInteger _ | negative _ => .magnitude
  | unsupported _ => .unsupported

def Failure.numbers : Failure → List Nat
  | malformedField _ _ offset => [offset]
  | notEnoughArguments _ available => [available]
  | positionOutOfRange _ position available => [position, available]
  | codePointOutOfRange value | negative value => [value.natAbs]
  | unusableCount _ position _ _ => [position]
  | invalidSpec _ _ | typeMismatch _ _ | valueTooLarge _ | exceeded _ | notInteger _
  | unsupported _ => []

/-- It is the failure of a template or an argument. Neither a limit on sizes is one, nor a value that
is of no use for what is asked of it. -/
def Failure.IsOwn : Failure → Prop
  | exceeded _ | notInteger _ | negative _ | unsupported _ => False
  | _ => True

/-- The failure is that of a template or an argument, and its message can be written. A number in it
counts something of the given size, or has few enough digits. -/
structure Failure.IsReportable (size : Nat) (e : Failure) : Prop where
  own : e.IsOwn
  numbers : ∀ n ∈ e.numbers, Readable n ∨ n ≤ size

variable {size : Nat}

theorem Failure.isReportable_of_numbers_eq_nil {e : Failure} (ho : e.IsOwn)
    (h : e.numbers = []) : e.IsReportable size := by
  constructor
  · exact ho
  · rw [h]
    rintro n ⟨⟩

theorem FailsOnly.of_numbers_eq_nil {α : Type} {e : Failure} (ho : e.IsOwn)
    (h : e.numbers = []) : FailsOnly (·.IsReportable size) (.error e : Except Failure α) :=
  .error (Failure.isReportable_of_numbers_eq_nil ho h)

def countLimit : Nat := 2 ^ 31 - 1

/-- A width or a precision within the limit. -/
def IsCount (n : Int) : Prop := 0 ≤ n ∧ n ≤ countLimit

instance (n : Int) : Decidable (IsCount n) := by unfold IsCount; infer_instance

/-- Ends with a draft that is no wider than asked for, or with a failure that can be reported. -/
def Drafts (size : Nat) (width : Int) : Except Failure Draft → Prop
  | .ok out => out.width ≤ width
  | .error e => e.IsReportable size

theorem Drafts.bind {α : Type} {x : Except Failure α} {f : α → Except Failure Draft} {width : Int}
    (hx : FailsOnly (·.IsReportable size) x) (hf : ∀ a, x = .ok a → Drafts size width (f a)) :
    Drafts size width (x >>= f) := by
  cases x with
  | error e => exact hx e rfl
  | ok a => exact hf a rfl

namespace Number

def IsWritable : Number → Prop
  | int n => Readable n.natAbs
  | float _ => True

variable {x : Number} {spec : Spec} {precision width : Int}

theorem styled_of_isCount {letter : Option Char} {style : Style} {alternate : Bool}
    (h : IsCount precision) : x.styled letter style alternate precision =
      match x.toDouble? with
      | none => .error (.valueTooLarge letter)
      | some y => .ok (y.styled style alternate precision.toNat) := by
  simp only [IsCount, countLimit] at h
  have hbound : ¬ (precision < 0 ∨ precisionBound < precision) := by
    simp only [precisionBound]
    omega
  have hlimit : ¬ precisionLimit < precision := by
    simp only [precisionLimit]
    omega
  rw [styled, if_neg hbound]
  cases x.toDouble? with
  | none => rfl
  | some y => exact if_neg hlimit

theorem styled_failsOnly {letter : Option Char} {style : Style} {alternate : Bool}
    (h : IsCount precision) :
    FailsOnly (·.IsReportable size) (x.styled letter style alternate precision) := by
  rw [styled_of_isCount h]
  split
  · exact .of_numbers_eq_nil trivial rfl
  · exact .ok _

theorem floating_failsOnly {style : Style} (h : IsCount precision) :
    FailsOnly (·.IsReportable size) (x.floating style spec precision) := by
  unfold floating
  split
  · exact .ok _
  · exact .ok _
  · exact (styled_failsOnly h).map _
  · exact styled_failsOnly h

theorem toInt_failsOnly (letter : Option Char) :
    FailsOnly (·.IsReportable size) (x.toInt letter) := by
  cases x with
  | int n => exact .ok n
  | float y => exact .of_numbers_eq_nil trivial rfl

theorem plain_failsOnly (h : x.IsWritable) : FailsOnly (·.IsReportable size) x.plain := by
  cases x with
  | int n =>
    rw [plain, decimalText_eq_ok (by rwa [Int.natAbs_natCast])]
    exact .ok _
  | float y => exact .ok _

theorem character_failsOnly {n : Int} (h : Readable n.natAbs) :
    FailsOnly (·.IsReportable size) (character n) := by
  unfold character
  split
  · exact .ok _
  · rw [decimalText_eq_ok h]
    refine .error ⟨trivial, fun m hm => .inl ?_⟩
    obtain rfl := List.mem_singleton.mp hm
    exact h

theorem drafts_convert {defaultPrecision : Int} {precision : Option Int}
    (hd : IsCount defaultPrecision) (hp : ∀ p ∈ precision, IsCount p) (hx : x.IsWritable) :
    Drafts size width (x.convert defaultPrecision spec width precision) := by
  have hprecision : IsCount (precision.getD defaultPrecision) := by
    cases precision with
    | none => exact hd
    | some p => exact hp p rfl
  cases h : spec.conversion with
  | binary | octal | hex =>
    simp only [convert, h, Value.toNumeral_natAbs]
    exact .bind (toInt_failsOnly _) fun _ _ => Int.le_refl _
  | scientific | fixed | general =>
    simp only [convert, h]
    exact .bind (floating_failsOnly hprecision) fun _ _ => Int.le_refl _
  | percent =>
    simp only [convert, h]
    exact .bind (styled_failsOnly hd) fun _ _ => Int.le_refl _
  | char =>
    simp only [convert, h]
    refine .bind (toInt_failsOnly _) fun n hn => ?_
    cases x with
    | int m =>
      cases hn
      exact .bind (character_failsOnly hx) fun _ _ => Int.le_refl _
    | float y => cases hn
  | standard | decimal | string | debug =>
    simp only [convert, h]
    exact .bind (plain_failsOnly hx) fun _ _ => Int.le_refl _

end Number

def nestingLimit : Nat := 200

structure Value.IsManageable (heap : Heap) (v : Value) : Prop where
  isWritable : v.IsWritable heap
  height_le : (v.unfold heap).height ≤ nestingLimit

theorem Value.IsManageable.of_entries?_eq_none {heap : Heap} {v : Value} (h : v.IsWritable heap)
    (he : v.entries? heap = none) : v.IsManageable heap := by
  constructor
  · exact h
  · rw [unfold, unfoldWithin_leaf he]
    exact Nat.zero_le _

theorem Value.IsManageable.exists_pretty_eq_ok {heap : Heap} {v : Value} {indent : Int}
    (hheap : heap.IsWritable) (hv : v.IsManageable heap) (hi : IsCount indent) :
    ∃ s, v.pretty heap { indent } = .ok s := by
  have hheight := hv.height_le
  apply hv.isWritable.exists_pretty_eq_ok hheap hi.1 (Int.le_refl 0)
  calc indent * (0 + (v.unfold heap).height)
    _ ≤ countLimit * nestingLimit := by
      apply Int.mul_le_mul hi.2 _ (by omega) (by decide)
      omega
    _ ≤ repetitionLimit := by decide

namespace Registration

/-- Every manageable value that is accepted is drafted or refused with a message. -/
def IsReliable (heap : Heap) (size : Nat) (r : Registration) : Prop :=
  ∀ v spec width precision, r.accepts heap v → v.IsManageable heap → IsCount width →
    (∀ p ∈ precision, IsCount p) → Drafts size width (r.renderer.convert heap v spec width precision)

variable {heap : Heap}

theorem number_isReliable {precision : Int} (hp : IsCount precision) :
    (number precision).IsReliable heap size := by
  intro v spec width p hv hm _ hp'
  cases v with
  | int n => exact Number.drafts_convert hp hp' (hm.isWritable n (.int n))
  | float x => exact Number.drafts_convert hp hp' (x := .float x) trivial
  | _ => cases hv

theorem text_isReliable : text.IsReliable heap size := by
  intro v spec width precision hv _ _ _
  cases v with
  | string s =>
    unfold text
    dsimp only
    rw [Renderer.text_convert]
    exact Int.le_refl _
  | _ => cases hv

theorem container_isReliable {indent : Int} (hheap : heap.IsWritable) (hi : IsCount indent) :
    (container indent).IsReliable heap size := by
  intro v spec width precision _ hv hw _
  unfold container Renderer.container
  dsimp only
  split
  · have hindent : IsCount (if width = 0 then indent else width) := by split <;> assumption
    obtain ⟨s, hs⟩ := hv.exists_pretty_eq_ok hheap hindent
    rw [hs]
    exact hw.1
  · have hindent : IsCount 0 := by decide
    obtain ⟨s, hs⟩ := hv.exists_pretty_eq_ok hheap hindent
    rw [hs]
    exact Int.le_refl _

theorem fallback_isReliable : fallback.IsReliable heap size := by
  intro v spec width precision _ hv _ _
  obtain ⟨literal, hl⟩ := hv.isWritable.exists_literal_eq_ok
  obtain ⟨text, ht⟩ := hv.isWritable.exists_text_eq_ok
  unfold fallback Renderer.fallback
  dsimp only
  rw [hl, ht]
  split
  · exact Int.le_refl _
  · exact Int.le_refl _

end Registration

theorem exists_pad_eq_ok {α : Type} (sign body fill : List α) {width : Int} (align : Align)
    (hw : width.toNat ≤ repetitionLimit) (hfill : fill.length * width.toNat ≤ repetitionLimit) :
    ∃ s, pad sign body width fill align = .ok s := by
  have hrepeated (n : Nat) (hn : n ≤ width.toNat) : ∃ s, repeated fill n = .ok s :=
    ⟨_, if_pos ⟨Nat.le_trans hn hw, Nat.le_trans (Nat.mul_le_mul_left _ hn) hfill⟩⟩
  have hdeficit : (width - sign.length - body.length).toNat ≤ width.toNat := by omega
  unfold pad
  generalize (width - sign.length - body.length).toNat = deficit at hdeficit
  cases align with
  | left | right | afterSign =>
    obtain ⟨fills, hfills⟩ := hrepeated deficit hdeficit
    simp only [hfills]
    exact ⟨_, rfl⟩
  | center =>
    obtain ⟨before, hbefore⟩ := hrepeated (deficit / 2) (by omega)
    obtain ⟨after, hafter⟩ := hrepeated (deficit - deficit / 2) (by omega)
    simp only [hbefore, hafter]
    exact ⟨_, rfl⟩

namespace Registry

variable {heap : Heap} {registry : Registry} {spec : Spec} {width : Int} {precision : Option Int}
  {v : Value}

theorem standard_isReliable {precision indent : Int} (hheap : heap.IsWritable)
    (hp : IsCount precision) (hi : IsCount indent) :
    ∀ r ∈ standard precision indent, r.IsReliable heap size := by
  intro r hr
  rcases mem_of_mem_standard hr with h | h
  · simp only [standardKinds, List.mem_cons, List.not_mem_nil, or_false] at h
    rcases h with rfl | rfl | rfl | rfl
    · exact Registration.container_isReliable hheap hi
    · exact Registration.text_isReliable
    · exact Registration.number_isReliable hp
    · exact Registration.fallback_isReliable
  · cases h

theorem render_failsOnly (hr : ∀ r ∈ registry, r.IsReliable heap size)
    (hv : v.IsManageable heap) (hfill : ∃ c, spec.fill = [c]) (hw : IsCount width)
    (hp : ∀ p ∈ precision, IsCount p) :
    FailsOnly (·.IsReportable size) (registry.render heap spec width precision v) := by
  rw [render]
  cases hresolve : registry.resolve heap v with
  | none => exact .of_numbers_eq_nil trivial rfl
  | some r =>
    obtain ⟨s, hs, rfl⟩ := Option.map_eq_some_iff.mp hresolve
    have haccepts := List.find?_some hs
    have hdrafts := hr s (List.mem_of_find?_eq_some hs) v spec width precision haccepts hv hw hp
    refine .ite (.of_numbers_eq_nil trivial rfl) (.ite (.of_numbers_eq_nil trivial rfl) (.ite
      (.of_numbers_eq_nil trivial rfl) (.ite (.of_numbers_eq_nil trivial rfl) ?_)))
    cases hout : s.renderer.convert heap v spec width precision with
    | error e =>
      rw [hout] at hdrafts
      exact .error hdrafts
    | ok out =>
      rw [hout] at hdrafts
      obtain ⟨c, hc⟩ := hfill
      have hchar : Text.ofChars spec.fill = [.scalar c] := by rw [hc]; rfl
      have hwidth : out.width.toNat ≤ repetitionLimit :=
        Nat.le_trans (Int.toNat_le.mpr (Int.le_trans hdrafts hw.2)) (by decide)
      have hone : [CodePoint.scalar c].length * out.width.toNat ≤ repetitionLimit := by
        rwa [List.length_singleton, Nat.one_mul]
      obtain ⟨shown, hshown⟩ := exists_pad_eq_ok (Text.ofChars out.sign) out.body [.scalar c]
        (spec.align.getD (if s.renderer.numeric then .right else .left)) hwidth hone
      rw [ok_bind, hchar, hshown]
      exact .ok _

end Registry

end Stencil
