import Mathlib.Data.Rat.Cast.Order
import Mathlib.Tactic.Linarith
import Mathlib.Tactic.Positivity
import Stencil.Proofs.Number.Range

/-! # The nearest number

Rounding takes the nearest of some numbers, and the even one of two that are equally near. The
numbers can be the multiples of a unit or the magnitudes of floating-point numbers.
-/

namespace Stencil

/-- No candidate is nearer to the value than the given one, which is even if another is as near. -/
structure IsNearestEven {α : Type} (value : α → ℚ) (even : α → Prop) (v : ℚ) (a : α) : Prop where
  nearest : ∀ b, |v - value a| ≤ |v - value b|
  even : ∀ b, b ≠ a → |v - value b| = |v - value a| → even a

namespace IsNearestEven

variable {α : Type} {value : α → ℚ} {even : α → Prop} {v unit : ℚ} {a : α} {c : ℤ}

theorem scale (h : IsNearestEven value even v a) (hunit : 0 < unit) :
    IsNearestEven (fun b => value b * unit) even (v * unit) a := by
  have hdist (b : α) : |v * unit - value b * unit| = |v - value b| * unit := by
    rw [← sub_mul, abs_mul, abs_of_pos hunit]
  constructor
  · intro b
    rw [hdist, hdist]
    exact mul_le_mul_of_nonneg_right (h.nearest b) hunit.le
  · intro b hb hd
    rw [hdist, hdist] at hd
    exact h.even b hb (mul_right_cancel₀ hunit.ne' hd)

theorem self (hinj : Function.Injective value) (even : α → Prop) (a : α) :
    IsNearestEven value even (value a) a := by
  constructor
  · intro b
    rw [sub_self, abs_zero]
    exact abs_nonneg _
  · intro b hb hd
    rw [sub_self, abs_zero, abs_eq_zero, sub_eq_zero] at hd
    exact absurd (hinj hd.symm) hb

theorem of_half (h : |v - c| ≤ 1 / 2) (heven : |v - c| = 1 / 2 → Even c) :
    IsNearestEven (fun k : ℤ => (k : ℚ)) Even v c := by
  have hother (k : ℤ) (hk : k ≠ c) : 1 / 2 ≤ |v - k| := by
    have hone : (1 : ℚ) ≤ |(k : ℚ) - c| := by
      exact_mod_cast Int.one_le_abs (sub_ne_zero.mpr hk)
    have htriangle := abs_sub_le (k : ℚ) v c
    rw [abs_sub_comm (k : ℚ) v] at htriangle
    linarith
  constructor
  · intro k
    by_cases hk : k = c
    · rw [hk]
    · exact h.trans (hother k hk)
  · intro k hk hd
    exact heven (le_antisymm h (hd ▸ hother k hk))

theorem of_above {t : ℚ} (ht : 0 ≤ t) (h : t < 1 / 2 ∨ t = 1 / 2 ∧ Even c) :
    IsNearestEven (fun k : ℤ => (k : ℚ)) Even (c + t) c := by
  have hdist : |c + t - c| = t := by
    rw [add_sub_cancel_left, abs_of_nonneg ht]
  apply of_half
  · rw [hdist]
    exact h.elim le_of_lt fun h => h.1.le
  · rw [hdist]
    intro hhalf
    exact (h.resolve_left hhalf.not_lt).2

theorem of_below {t : ℚ} (ht : t < 1) (h : 1 / 2 < t ∨ t = 1 / 2 ∧ ¬ Even c) :
    IsNearestEven (fun k : ℤ => (k : ℚ)) Even (c + t) (c + 1) := by
  have hdist : |c + t - (c + 1 : ℤ)| = 1 - t := by
    rw [Int.cast_add, Int.cast_one, add_sub_add_left_eq_sub, abs_sub_comm,
      abs_of_pos (sub_pos.mpr ht)]
  apply of_half
  · rw [hdist]
    rcases h with h | h <;> linarith
  · rw [hdist]
    intro hhalf
    have hodd : ¬ Even c := (h.resolve_left (by linarith)).2
    exact Int.even_add_one.mpr hodd

theorem lt_of_lt (h : IsNearestEven (fun k : ℤ => k * unit) Even v c) {k : ℤ} {y : ℚ}
    (hy : y < k * unit) (hk : k * unit ≤ v) : |v - c * unit| < |v - y| := by
  have hnearest := h.nearest k
  rw [abs_of_nonneg (sub_nonneg.mpr hk)] at hnearest
  rw [abs_of_nonneg (sub_nonneg.mpr (hy.le.trans hk))]
  linarith

/-- The nearest multiple is the nearest candidate, if all candidates are multiples or lie below a
multiple below the value. -/
theorem of_multiples (h : IsNearestEven (fun k : ℤ => k * unit) Even v c)
    (hinj : Function.Injective value) (ha : value a = c * unit) (heven : Even c → even a)
    (hcases : ∀ b, (∃ k : ℤ, value b = k * unit) ∨
      ∃ k : ℤ, value b < k * unit ∧ k * unit ≤ v) :
    IsNearestEven value even v a := by
  constructor
  · intro b
    rw [ha]
    rcases hcases b with ⟨k, hk⟩ | ⟨k, hb, hk⟩
    · rw [hk]
      exact h.nearest k
    · exact (h.lt_of_lt hb hk).le
  · intro b hba hd
    rw [ha] at hd
    rcases hcases b with ⟨k, hk⟩ | ⟨k, hb, hk⟩
    · rw [hk] at hd
      refine heven (h.even k ?_ hd)
      rintro rfl
      exact hba (hinj (hk.trans ha.symm))
    · exact absurd hd (h.lt_of_lt hb hk).ne'

end IsNearestEven

theorem isNearestEven_roundHalfEven (n : Nat) {d : Nat} (hd : 0 < d) :
    IsNearestEven (fun k : ℤ => (k : ℚ)) Even (n / d) (roundHalfEven n d : ℕ) := by
  have hdpos : (0 : ℚ) < d := by exact_mod_cast hd
  obtain ⟨t, ht⟩ : ∃ t : ℚ, t = (n % d : ℕ) / d := ⟨_, rfl⟩
  have hvalue : (n : ℚ) / d = ((n / d : ℕ) : ℤ) + t := by
    rw [ht, Int.cast_natCast, div_eq_iff hdpos.ne', add_mul, div_mul_cancel₀ _ hdpos.ne']
    exact_mod_cast (Nat.div_add_mod' n d).symm
  have hlt : 2 * (n % d) < d ↔ t < 1 / 2 := by
    rw [ht, div_lt_div_iff₀ hdpos two_pos]
    norm_cast
    omega
  have heq : 2 * (n % d) = d ↔ t = 1 / 2 := by
    rw [ht, div_eq_div_iff hdpos.ne' two_ne_zero]
    norm_cast
    omega
  have heven : n / d % 2 = 0 ↔ Even ((n / d : ℕ) : ℤ) := by
    rw [Int.even_coe_nat, Nat.even_iff]
  rw [hvalue, roundHalfEven]
  simp only [hlt, heq, heven]
  split_ifs with h
  · exact .of_above (ht ▸ by positivity) h
  · have hone : t < 1 := by
      rw [ht, div_lt_one hdpos]
      exact_mod_cast Nat.mod_lt n hd
    rw [not_or, not_lt, not_and] at h
    refine .of_below hone ?_
    rcases h.1.lt_or_eq with hhalf | hhalf
    · exact .inl hhalf
    · exact .inr ⟨hhalf.symm, h.2 hhalf.symm⟩

namespace Magnitude

def value (x : Magnitude) : ℚ := x.units / 2 ^ 1074

theorem of_ofParts? {significand scale : Nat} {x : Magnitude}
    (h : ofParts? significand scale = some x) : x.significand = significand ∧ x.scale = scale := by
  unfold ofParts? at h
  split at h
  · cases h
    exact ⟨rfl, rfl⟩
  · cases h

theorem units_injective : Function.Injective units := by
  have hscale {x y : Magnitude} (h : x.units = y.units) : y.scale ≤ x.scale := by
    by_contra hlt
    rw [Nat.not_le] at hlt
    have hy := y.normal.resolve_left (by omega)
    have hsignificand : x.significand = y.significand * 2 ^ (y.scale - x.scale) := by
      apply Nat.eq_of_mul_eq_mul_right (Nat.two_pow_pos x.scale)
      rw [Nat.mul_assoc, ← Nat.pow_add, Nat.sub_add_cancel hlt.le]
      exact h
    have hpow : 2 ^ 1 ≤ 2 ^ (y.scale - x.scale) := Nat.pow_le_pow_right two_pos (by omega)
    have hmul := Nat.mul_le_mul hy hpow
    rw [← hsignificand] at hmul
    exact absurd x.significand_lt (Nat.not_lt.mpr hmul)
  intro x y h
  have heq : x.scale = y.scale := Nat.le_antisymm (hscale h.symm) (hscale h)
  refine Magnitude.ext ?_ heq
  rw [units, units, heq] at h
  exact Nat.eq_of_mul_eq_mul_right (Nat.two_pow_pos _) h

theorem value_injective : Function.Injective value := by
  intro x y h
  apply units_injective
  have hunits := (div_left_inj' (pow_ne_zero 1074 two_ne_zero)).mp h
  exact_mod_cast hunits

theorem units_cases (x : Magnitude) (scale : Nat) :
    (∃ k : ℕ, x.units = k * 2 ^ scale) ∨ scale ≠ 0 ∧ x.units < 2 ^ 52 * 2 ^ scale := by
  rcases Nat.lt_or_ge x.scale scale with h | h
  · refine .inr ⟨by omega, ?_⟩
    calc x.units < 2 ^ 53 * 2 ^ x.scale :=
          Nat.mul_lt_mul_of_pos_right x.significand_lt (Nat.two_pow_pos _)
      _ = 2 ^ 52 * 2 ^ (x.scale + 1) := by
          rw [Nat.pow_succ 2 x.scale, Nat.pow_succ 2 52]
          ac_rfl
      _ ≤ 2 ^ 52 * 2 ^ scale := Nat.mul_le_mul_left _ (Nat.pow_le_pow_right two_pos h)
  · refine .inl ⟨x.significand * 2 ^ (x.scale - scale), ?_⟩
    rw [Nat.mul_assoc, ← Nat.pow_add, Nat.sub_add_cancel h]
    rfl

theorem nearest?_parts {num den : Nat} {x : Magnitude} (h : nearest? num den = some x) :
    let scale := (num / den).log2 - 52
    let rounded := roundHalfEven num (den * 2 ^ scale)
    x.units = rounded * 2 ^ scale ∧ (Even rounded → Even x.significand) := by
  intro scale rounded
  unfold nearest? at h
  dsimp only at h
  split at h
  · next hcarry =>
    obtain ⟨hsignificand, hscale⟩ := of_ofParts? h
    constructor
    · have hrounded : rounded = 2 ^ 53 := hcarry
      rw [units, hsignificand, hscale, hrounded, Nat.pow_succ 2 scale, Nat.pow_succ 2 52]
      ac_rfl
    · rw [hsignificand]
      exact fun _ => by decide
  · obtain ⟨hsignificand, hscale⟩ := of_ofParts? h
    rw [units, hsignificand, hscale]
    exact ⟨rfl, id⟩

/-- The magnitude is the nearest of all, and the significand is even if another is as near. -/
theorem isNearestEven_nearest? {num den : Nat} (hd : 0 < den) {x : Magnitude}
    (h : nearest? num den = some x) :
    IsNearestEven (fun y => (y.units : ℚ)) (Even ·.significand) (num / den) x := by
  obtain ⟨hunits, heven⟩ := nearest?_parts h
  obtain ⟨-, hnormal⟩ := significand_bounds (num / den)
  generalize (num / den).log2 - 52 = scale at hunits heven hnormal
  have hstep : (0 : ℚ) < 2 ^ scale := by positivity
  have hrounded := (isNearestEven_roundHalfEven num (Nat.mul_pos hd (Nat.two_pow_pos scale))).scale
    hstep
  have hquotient : (num : ℚ) / (den * 2 ^ scale : ℕ) * 2 ^ scale = num / den := by
    push_cast
    rw [div_mul_eq_mul_div, mul_div_mul_right _ _ hstep.ne']
  rw [hquotient] at hrounded
  generalize roundHalfEven num (den * 2 ^ scale) = rounded at hunits heven hrounded
  refine hrounded.of_multiples (Nat.cast_injective.comp units_injective) ?_ ?_ fun y => ?_
  · exact_mod_cast hunits
  · exact_mod_cast heven
  · rcases y.units_cases scale with ⟨k, hk⟩ | ⟨hscale, hy⟩
    · exact .inl ⟨k, by exact_mod_cast hk⟩
    · -- A magnitude with a smaller step lies below a multiple of the step below the number.
      refine .inr ⟨2 ^ 52, by exact_mod_cast hy, ?_⟩
      have hle := hnormal.resolve_left hscale
      rw [Nat.le_div_iff_mul_le (Nat.two_pow_pos _), Nat.le_div_iff_mul_le hd] at hle
      rw [le_div_iff₀ (by exact_mod_cast hd)]
      exact_mod_cast hle

/-- The magnitude is the nearest to the number, and its significand is even if another is as near. -/
def IsNearest (x : Magnitude) (v : ℚ) : Prop := IsNearestEven value (Even ·.significand) v x

theorem isNearest_of_units {v : ℚ} {x : Magnitude}
    (h : IsNearestEven (fun y => (y.units : ℚ)) (Even ·.significand) (v * 2 ^ 1074) x) :
    x.IsNearest v := by
  have hpow : (0 : ℚ) < 2 ^ 1074 := by positivity
  have hscale := h.scale (inv_pos.mpr hpow)
  rw [mul_inv_cancel_right₀ hpow.ne'] at hscale
  exact hscale

theorem isNearest_value (x : Magnitude) : x.IsNearest x.value := .self value_injective _ x

theorem isNearestEven_of_whole {num : Nat} {x : Magnitude} (h : nearest? num 1 = some x) :
    IsNearestEven (fun y => (y.units : ℚ)) (Even ·.significand) num x := by
  have hnearest := isNearestEven_nearest? Nat.one_pos h
  rwa [Nat.cast_one, div_one] at hnearest

theorem isNearest_ofNat? {n : Nat} {x : Magnitude} (h : ofNat? n = some x) : x.IsNearest n := by
  have hcast (k : ℕ) : ((n * 2 ^ k : ℕ) : ℚ) = n * 2 ^ k := by push_cast; rfl
  have hnearest := isNearestEven_of_whole h
  rw [hcast 1074] at hnearest
  exact isNearest_of_units hnearest

theorem isNearest_timesHundred? {x y : Magnitude} (h : x.timesHundred? = some y) :
    y.IsNearest (100 * x.value) := by
  have hnearest := isNearestEven_of_whole h
  apply isNearest_of_units
  rw [value, mul_assoc, div_mul_cancel₀ _ (pow_ne_zero 1074 two_ne_zero), mul_comm]
  rw [Nat.cast_mul] at hnearest
  exact hnearest

theorem value_nonneg (x : Magnitude) : 0 ≤ x.value := by
  unfold value
  positivity

theorem value_eq_zero_iff {x : Magnitude} : x.value = 0 ↔ x.significand = 0 := by
  rw [value, div_eq_zero_iff, or_iff_left (pow_ne_zero _ two_ne_zero), Nat.cast_eq_zero, units,
    Nat.mul_eq_zero, or_iff_left (Nat.two_pow_pos _).ne']

theorem value_lt_overflow (x : Magnitude) : x.value < overflow := by
  have hlt (top : ℕ) (htop : x.scale ≤ top + 1) : x.units < (2 ^ 54 - 1) * 2 ^ top :=
    calc x.units ≤ (2 ^ 53 - 1) * 2 ^ (top + 1) := Nat.mul_le_mul
          (Nat.le_pred_of_lt x.significand_lt) (Nat.pow_le_pow_right two_pos htop)
      _ = (2 ^ 53 - 1) * 2 * 2 ^ top := by
          rw [Nat.pow_succ 2 top]
          ac_rfl
      _ < (2 ^ 54 - 1) * 2 ^ top :=
          Nat.mul_lt_mul_of_pos_right (by decide) (Nat.two_pow_pos _)
  have hscale (k : ℕ) : (x.units : ℚ) / 2 ^ k < overflow ↔ x.units < overflow * 2 ^ k := by
    rw [div_lt_iff₀ (by positivity)]
    norm_cast
  rw [value, hscale 1074, ← overflowUnits_eq, overflowUnits]
  exact hlt 2044 x.scale_le

theorem isSome_timesHundred?_iff {x : Magnitude} :
    x.timesHundred?.isSome ↔ 100 * x.value < overflow := by
  have hscale (k : ℕ) : 100 * ((x.units : ℚ) / 2 ^ k) < overflow ↔
      x.units * 100 < overflow * 2 ^ k := by
    rw [← mul_div_assoc, div_lt_iff₀ (by positivity), mul_comm (100 : ℚ)]
    norm_cast
  rw [timesHundred?, isSome_nearest?_iff Nat.one_pos, Nat.mul_one, overflowUnits_eq, value,
    hscale 1074]

end Magnitude

end Stencil
