import Mathlib.Algebra.Order.Field.Power
import Mathlib.Tactic.FieldSimp
import Mathlib.Tactic.Ring
import Stencil.Proofs.Number.Nearest
import Stencil.Proofs.Number.Written

/-! # Rounded decimals

Fixed notation writes the nearest multiple of a power of ten, and scientific notation the nearest
decimal of so many significant digits. Of two that are equally near it is the one whose last digit is
even.
-/

namespace Stencil

def Decimal.value (x : Decimal) : ℚ := x.coefficient / 10 ^ x.places

def Scientific.value {places : Nat} (x : Scientific places) : ℚ :=
  x.significand * (10 : ℚ) ^ (x.exponent - places)

theorem Scientific.length_digits {places : Nat} {x : Scientific places}
    (h : x.significand < 10 ^ (places + 1)) : x.digits.length = places + 1 := by
  have hle : (natText x.significand).length ≤ places + 1 :=
    (Nat.length_toDigits_le_iff (by decide) (Nat.succ_pos _)).mpr h
  rw [digits, List.length_leftpad, Nat.max_eq_left hle]

theorem Magnitude.value_toDecimal (x : Magnitude) : x.toDecimal.value = x.value := by
  have hcancel (k : ℕ) : (x.units * 5 ^ k : ℕ) / (10 : ℚ) ^ k = x.units / 2 ^ k := by
    have hten : (10 : ℚ) ^ k = 2 ^ k * 5 ^ k := by rw [← mul_pow]; norm_num
    have hfive : (5 : ℚ) ^ k ≠ 0 := pow_ne_zero k (by norm_num)
    push_cast
    rw [hten, mul_div_mul_right _ _ hfive]
  exact hcancel 1074

def IsRounded (v : ℚ) (exponent : ℤ) (rounded : ℚ) : Prop :=
  ∃ c : ℕ, rounded = c * (10 : ℚ) ^ exponent ∧
    IsNearestEven (fun k : ℤ => k * (10 : ℚ) ^ exponent) Even v c

theorem eq_of_zpow_bounds {v : ℚ} {e e' : ℤ} (h : (10 : ℚ) ^ e ≤ v ∧ v < (10 : ℚ) ^ (e + 1))
    (h' : (10 : ℚ) ^ e' ≤ v ∧ v < (10 : ℚ) ^ (e' + 1)) : e = e' := by
  have hle := (zpow_lt_zpow_iff_right₀ (by norm_num)).mp (h.1.trans_lt h'.2)
  have hge := (zpow_lt_zpow_iff_right₀ (by norm_num)).mp (h'.1.trans_lt h.2)
  omega

namespace Decimal

variable (x : Decimal) (places : Nat)

theorem isNearestEven_toPlaces :
    IsNearestEven (fun k : ℤ => k * (10 : ℚ) ^ (-places : ℤ)) Even x.value (x.toPlaces places : ℕ) := by
  have hpow : 0 < 10 ^ x.places := Nat.pow_pos (by decide)
  have hunit : (0 : ℚ) < 10 ^ (-places : ℤ) := zpow_pos (by norm_num) _
  have hnearest := (isNearestEven_roundHalfEven (x.coefficient * 10 ^ places) hpow).scale hunit
  have hvalue : ((x.coefficient * 10 ^ places : ℕ) : ℚ) / (10 ^ x.places : ℕ) *
      10 ^ (-places : ℤ) = x.value := by
    rw [value, zpow_neg, zpow_natCast]
    push_cast
    field_simp
  rwa [hvalue] at hnearest

variable {x} {places}

def leading (x : Decimal) : ℤ := x.size - 1 - x.places

theorem coefficient_bounds (hx : x.coefficient ≠ 0) :
    10 ^ (x.size - 1) ≤ x.coefficient ∧ x.coefficient < 10 ^ x.size ∧ 0 < x.size := by
  obtain ⟨hlow, hhigh⟩ := natText_bounds hx
  exact ⟨hlow, hhigh, Nat.length_toDigits_pos⟩

theorem value_eq_zero_iff : x.value = 0 ↔ x.coefficient = 0 := by
  rw [value, div_eq_zero_iff, or_iff_left (pow_ne_zero _ (by norm_num)), Nat.cast_eq_zero]

theorem zpow_le_value_iff (k : ℕ) :
    (10 : ℚ) ^ ((k : ℤ) - x.places) ≤ x.value ↔ 10 ^ k ≤ x.coefficient := by
  have hpow : (0 : ℚ) < 10 ^ x.places := by positivity
  rw [value, le_div_iff₀ hpow, ← zpow_natCast (10 : ℚ) x.places, ← zpow_add₀ (by norm_num),
    sub_add_cancel, zpow_natCast]
  norm_cast

theorem value_bounds (hx : x.coefficient ≠ 0) :
    (10 : ℚ) ^ x.leading ≤ x.value ∧ x.value < (10 : ℚ) ^ (x.leading + 1) := by
  obtain ⟨hlow, hhigh, hsize⟩ := coefficient_bounds hx
  have hleading : x.leading = ((x.size - 1 : ℕ) : ℤ) - x.places := by
    rw [leading]
    omega
  have hnext : x.leading + 1 = (x.size : ℤ) - x.places := by
    rw [leading]
    omega
  rw [hnext, hleading, zpow_le_value_iff, ← not_le, zpow_le_value_iff, not_le]
  exact ⟨hlow, hhigh⟩

theorem eq_leading (hx : x.coefficient ≠ 0) {exponent : ℤ} (hlow : (10 : ℚ) ^ exponent ≤ x.value)
    (hhigh : x.value < (10 : ℚ) ^ (exponent + 1)) : exponent = x.leading :=
  eq_of_zpow_bounds ⟨hlow, hhigh⟩ (value_bounds hx)

theorem rounded_bounds (hx : x.coefficient ≠ 0) (places : Nat) :
    let rounded := roundHalfEven (x.coefficient * 10 ^ (places + 1)) (10 ^ x.size)
    10 ^ places ≤ rounded ∧ rounded ≤ 10 ^ (places + 1) := by
  intro rounded
  obtain ⟨hlow, hhigh, hsize⟩ := coefficient_bounds hx
  have hpow : 0 < 10 ^ x.size := Nat.pow_pos (by decide)
  constructor
  · refine Nat.le_trans ((Nat.le_div_iff_mul_le hpow).mpr ?_) (div_le_roundHalfEven _ _)
    calc 10 ^ places * 10 ^ x.size = 10 ^ (x.size - 1) * 10 ^ (places + 1) := by
          rw [← Nat.pow_add, ← Nat.pow_add]
          congr 1
          omega
      _ ≤ x.coefficient * 10 ^ (places + 1) := Nat.mul_le_mul_right _ hlow
  · refine Nat.le_trans (roundHalfEven_le _ _) ((Nat.div_lt_iff_lt_mul hpow).mpr ?_)
    rw [Nat.mul_comm]
    exact Nat.mul_lt_mul_of_pos_left hhigh (Nat.pow_pos (by decide))

/-- The significand has all of its digits, and its last digit is that of the nearest number of
units, unless all digits are carried over. -/
theorem toScientific_spec (hx : x.coefficient ≠ 0) (places : Nat) :
    10 ^ places ≤ (x.toScientific places).significand ∧
      (x.toScientific places).significand < 10 ^ (places + 1) ∧
      IsRounded x.value (x.leading - places) (x.toScientific places).value := by
  have hpow : 0 < 10 ^ x.size := Nat.pow_pos (by decide)
  have hunit : (0 : ℚ) < 10 ^ (x.leading - places) := zpow_pos (by norm_num) _
  have hvalue : ((x.coefficient * 10 ^ (places + 1) : ℕ) : ℚ) / (10 ^ x.size : ℕ) *
      10 ^ (x.leading - places) = x.value := by
    have hexponent : x.leading - places = x.size - (places + 1 : ℕ) - x.places := by
      rw [leading]
      omega
    rw [hexponent, zpow_sub₀ (by norm_num), zpow_sub₀ (by norm_num), zpow_natCast, zpow_natCast,
      zpow_natCast, value]
    push_cast
    field_simp
  have hnearest := (isNearestEven_roundHalfEven (x.coefficient * 10 ^ (places + 1)) hpow).scale hunit
  rw [hvalue] at hnearest
  obtain ⟨hge, hle⟩ := rounded_bounds hx places
  rw [toScientific, if_neg hx]
  generalize roundHalfEven (x.coefficient * 10 ^ (places + 1)) (10 ^ x.size) = c at *
  split
  · next hc =>
    refine ⟨Nat.le_refl _, Nat.pow_lt_pow_right (by decide) (Nat.lt_succ_self _), c, ?_, hnearest⟩
    have hexponent : x.leading + 1 - places = x.leading - places + 1 := by omega
    change ((10 ^ places : ℕ) : ℚ) * 10 ^ (x.leading + 1 - places) = _
    rw [hc, hexponent, zpow_add_one₀ (by norm_num)]
    push_cast
    ring
  · next hc =>
    exact ⟨hge, Nat.lt_of_le_of_ne hle hc, c, rfl, hnearest⟩

theorem toScientific_zero (hx : x.coefficient = 0) (places : Nat) :
    x.toScientific places = ⟨0, 0⟩ :=
  if_pos hx

theorem significand_lt (x : Decimal) (places : Nat) :
    (x.toScientific places).significand < 10 ^ (places + 1) := by
  by_cases hx : x.coefficient = 0
  · rw [toScientific_zero hx]
    exact Nat.pow_pos (by decide)
  · exact (toScientific_spec hx places).2.1

theorem isRounded_toScientific {exponent : ℤ} (hlow : (10 : ℚ) ^ exponent ≤ x.value)
    (hhigh : x.value < (10 : ℚ) ^ (exponent + 1)) (places : Nat) :
    IsRounded x.value (exponent - places) (x.toScientific places).value := by
  have hx : x.coefficient ≠ 0 := by
    intro hx
    rw [value_eq_zero_iff.mpr hx] at hlow
    exact absurd hlow (not_le.mpr (zpow_pos (by norm_num) exponent))
  rw [eq_leading hx hlow hhigh]
  exact (toScientific_spec hx places).2.2

/-- No decimal of so many significant digits is nearer. -/
theorem nearest_toScientific (x : Decimal) {places m : Nat} (hm : m < 10 ^ (places + 1)) (k : ℤ) :
    |x.value - (x.toScientific places).value| ≤ |x.value - m * (10 : ℚ) ^ k| := by
  by_cases hx : x.coefficient = 0
  · rw [toScientific_zero hx, value_eq_zero_iff.mpr hx, Scientific.value, Nat.cast_zero, zero_mul,
      sub_zero, abs_zero]
    exact abs_nonneg _
  · obtain ⟨-, -, c, hc, hnearest⟩ := toScientific_spec hx places
    rw [hc]
    rcases Int.lt_or_le k (x.leading - places) with hk | hk
    · -- The decimal lies below the power of ten at the first digit.
      have hfirst : ((10 ^ places : ℤ) : ℚ) * 10 ^ (x.leading - places) = 10 ^ x.leading := by
        rw [Int.cast_pow, Int.cast_ofNat, ← zpow_natCast, ← zpow_add₀ (by norm_num)]
        congr 1
        omega
      refine (hnearest.lt_of_lt (k := 10 ^ places) ?_ ?_).le
      · rw [hfirst]
        calc (m : ℚ) * 10 ^ k < (10 ^ (places + 1) : ℕ) * 10 ^ k := by
              gcongr
          _ = 10 ^ ((places + 1 : ℕ) + k) := by
              rw [zpow_add₀ (by norm_num), zpow_natCast, Nat.cast_pow, Nat.cast_ofNat]
          _ ≤ 10 ^ x.leading := zpow_le_zpow_right₀ (by norm_num) (by omega)
      · rw [hfirst]
        exact (value_bounds hx).1
    · obtain ⟨j, rfl⟩ : ∃ j : ℕ, k = j + (x.leading - places) :=
        ⟨(k - (x.leading - places)).toNat, by omega⟩
      have hmultiple : (m : ℚ) * 10 ^ ((j : ℤ) + (x.leading - places)) =
          ((m * 10 ^ j : ℕ) : ℤ) * (10 : ℚ) ^ (x.leading - places) := by
        rw [zpow_add₀ (by norm_num), zpow_natCast]
        push_cast
        ring
      rw [hmultiple]
      exact hnearest.nearest _

end Decimal

namespace WrittenDecimal

structure IsFixed (w : WrittenDecimal) (places : Nat) (keepPoint : Bool) (v : ℚ) : Prop where
  fraction : w.fraction.length = places
  point : w.point ↔ 0 < places ∨ keepPoint
  exponent : w.exponent? = none
  rounded : IsRounded v (-places) w.value

/-- The nearest number with so many digits after the first, which is zero only for zero. -/
structure IsScientific (w : WrittenDecimal) (places : Nat) (keepPoint : Bool) (v : ℚ) : Prop where
  whole : ∃ d, w.whole = [d] ∧ (d = '0' ↔ v = 0)
  fraction : w.fraction.length = places
  point : w.point ↔ 0 < places ∨ keepPoint
  exponent : ∃ negative digits, w.exponent? = some (negative, digits) ∧ 2 ≤ digits.length
  nearest : ∀ (m : ℕ) (k : ℤ), m < 10 ^ (places + 1) → |v - w.value| ≤ |v - m * (10 : ℚ) ^ k|
  rounded : ∀ e : ℤ, (10 : ℚ) ^ e ≤ v → v < (10 : ℚ) ^ (e + 1) → IsRounded v (e - places) w.value

end WrittenDecimal

namespace Decimal

variable (x : Decimal) (places : Nat) (keepPoint : Bool)

theorem exists_fixedDigits :
    let digits := (natText (x.toPlaces places)).leftpad (places + 1) '0'
    ∃ whole fraction, digits.splitAt (digits.length - places) = (whole, fraction) ∧
      whole ≠ [] ∧ NoLeadingZero whole ∧ fraction.length = places ∧
      (∀ c ∈ whole ++ fraction, c.isDigit = true) ∧
      Nat.ofDigitChars 10 (whole ++ fraction) 0 = x.toPlaces places := by
  intro digits
  have hlength : digits.length = max (places + 1) (natText (x.toPlaces places)).length :=
    List.length_leftpad ..
  refine ⟨_, _, List.splitAt_eq, ?_, ?_, ?_, ?_, ?_⟩
  · rw [← List.length_pos_iff, List.length_take]
    omega
  · rcases Nat.lt_or_ge (places + 1) (natText (x.toPlaces places)).length with h | h
    · have hpadless : digits = natText (x.toPlaces places) := by
        change List.leftpad _ _ _ = _
        rw [List.leftpad, Nat.sub_eq_zero_of_le h.le]
        rfl
      rw [hpadless]
      exact (noLeadingZero_natText _).take _
    · apply noLeadingZero_of_length_le
      rw [List.length_take]
      omega
  · rw [List.length_drop]
    omega
  · rw [List.take_append_drop]
    exact isDigit_leftpad_natText _ _
  · rw [List.take_append_drop]
    exact ofDigitChars_leftpad_natText _ _

theorem exists_written_fixedText : ∃ w : WrittenDecimal,
    w.text = x.fixedText keepPoint places ∧ w.IsProper ∧ w.IsFixed places keepPoint x.value := by
  obtain ⟨whole, fraction, hsplit, hne, hleading, hfraction, hdigits, hvalue⟩ :=
    x.exists_fixedDigits places
  obtain ⟨hwhole, hrest⟩ := List.forall_mem_append.mp hdigits
  refine ⟨.ofDigits keepPoint whole fraction none, ?_,
    WrittenDecimal.isProper_ofDigits hne hwhole hleading hrest, hfraction,
    WrittenDecimal.point_ofDigits_iff hfraction, rfl, x.toPlaces places, ?_,
    x.isNearestEven_toPlaces places⟩
  · rw [WrittenDecimal.text_ofDigits, fixedText, hsplit]
    exact List.append_nil _
  · rw [WrittenDecimal.value_ofDigits hvalue hfraction, Option.getD_none, zero_sub]

theorem digits_toScientific : ∃ d fraction, (x.toScientific places).digits = d :: fraction ∧
    fraction.length = places ∧ (d = '0' ↔ x.value = 0) := by
  have hlength := Scientific.length_digits (x.significand_lt places)
  obtain ⟨d, fraction, hdigits⟩ := List.exists_cons_of_length_eq_add_one hlength
  rw [hdigits, List.length_cons, Nat.add_right_cancel_iff] at hlength
  refine ⟨d, fraction, hdigits, hlength, ?_⟩
  rw [value_eq_zero_iff]
  constructor
  · rintro rfl
    by_contra hx
    have hvalue : Nat.ofDigitChars 10 ('0' :: fraction) 0 =
        (x.toScientific places).significand := by
      rw [← hdigits, Scientific.digits, ofDigitChars_leftpad_natText]
    have hfraction := ofDigitChars_lt (s := fraction) fun c hc =>
      isDigit_leftpad_natText _ _ c (by rw [← Scientific.digits, hdigits]; exact .tail _ hc)
    have hge := (toScientific_spec hx places).1
    rw [← hvalue, Nat.ofDigitChars_cons] at hge
    rw [hlength] at hfraction
    exact absurd hfraction (Nat.not_lt.mpr hge)
  · intro hx
    have hzero : ∀ c ∈ (x.toScientific places).digits, c = '0' := by
      have hnatText : ∀ c ∈ natText 0, c = '0' := by decide
      rw [toScientific_zero hx]
      exact List.forall_mem_append.mpr ⟨fun c => List.eq_of_mem_replicate, hnatText⟩
    exact hzero d (by rw [hdigits]; exact .head _)

theorem written_scientificText {d : Char} {fraction : List Char}
    (h : (x.toScientific places).digits = d :: fraction) :
    let w : WrittenDecimal :=
      .ofDigits keepPoint [d] fraction (some (x.toScientific places).exponent)
    w.text = x.scientificText keepPoint places ∧ w.IsProper := by
  intro w
  have hisDigit : ∀ c ∈ d :: fraction, c.isDigit = true := h ▸ isDigit_leftpad_natText _ _
  obtain ⟨hd, hrest⟩ := List.forall_mem_cons.mp hisDigit
  constructor
  · rw [WrittenDecimal.text_ofDigits, scientificText, h, List.splitAt_eq]
    rfl
  · exact WrittenDecimal.isProper_ofDigits (List.cons_ne_nil d [])
      (List.forall_mem_singleton.mpr hd) (noLeadingZero_of_length_le (Nat.le_refl _)) hrest

theorem exists_written_scientificText : ∃ w : WrittenDecimal,
    w.text = x.scientificText keepPoint places ∧ w.IsProper ∧
      w.IsScientific places keepPoint x.value := by
  obtain ⟨d, fraction, hdigits, hfraction, hzero⟩ := x.digits_toScientific places
  obtain ⟨htext, hproper⟩ := x.written_scientificText places keepPoint hdigits
  generalize hy : x.toScientific places = y at hdigits htext hproper
  have hvalue : (WrittenDecimal.ofDigits keepPoint [d] fraction (some y.exponent)).value =
      y.value := by
    refine WrittenDecimal.value_ofDigits ?_ hfraction
    rw [List.singleton_append, ← hdigits, Scientific.digits, ofDigitChars_leftpad_natText]
  refine ⟨_, htext, hproper, ⟨d, rfl, hzero⟩, hfraction,
    WrittenDecimal.point_ofDigits_iff hfraction, ⟨_, _, rfl, ?_⟩, fun m k hm => ?_,
    fun e hlow hhigh => ?_⟩
  · rw [List.length_leftpad]
    exact Nat.le_max_left _ _
  · rw [hvalue, ← hy]
    exact x.nearest_toScientific hm k
  · rw [hvalue, ← hy]
    exact isRounded_toScientific hlow hhigh places

end Decimal

end Stencil
