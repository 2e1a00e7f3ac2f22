import Stencil.Number

/-! # The range of floating-point numbers

A number has a nearest magnitude if it lies less than half a step above the largest one. From there
on it would be rounded to a power of two that no magnitude has.
-/

namespace Stencil

theorem div_le_roundHalfEven (n d : Nat) : n / d ≤ roundHalfEven n d := by
  unfold roundHalfEven
  dsimp only
  split <;> omega

theorem roundHalfEven_le (n d : Nat) : roundHalfEven n d ≤ n / d + 1 := by
  unfold roundHalfEven
  dsimp only
  split <;> omega

theorem lt_roundHalfEven_iff {n d q : Nat} (hd : 0 < d) (hq : q % 2 = 1) :
    q < roundHalfEven n d ↔ (2 * q + 1) * d ≤ 2 * n := by
  have hn : d * (n / d) + n % d = n := Nat.div_add_mod n d
  have hr : n % d < d := Nat.mod_lt n hd
  have hhalf : (2 * q + 1) * d = 2 * (d * q) + d := by
    rw [Nat.add_mul, Nat.one_mul, Nat.mul_assoc, Nat.mul_comm q d]
  rcases Nat.lt_trichotomy (n / d) q with h | h | h
  · have hle := roundHalfEven_le n d
    have hmul : d * (n / d + 1) ≤ d * q := Nat.mul_le_mul_left d h
    rw [Nat.mul_add, Nat.mul_one] at hmul
    omega
  · unfold roundHalfEven
    dsimp only
    rw [h] at hn ⊢
    split <;> omega
  · have hge := div_le_roundHalfEven n d
    have hmul : d * (q + 1) ≤ d * (n / d) := Nat.mul_le_mul_left d h
    rw [Nat.mul_add, Nat.mul_one] at hmul
    omega

namespace Magnitude

theorem isSome_ofParts?_iff {significand scale : Nat} : (ofParts? significand scale).isSome ↔
    significand < 2 ^ 53 ∧ scale ≤ 2045 ∧ (scale = 0 ∨ 2 ^ 52 ≤ significand) := by
  unfold ofParts?
  split
  · next h => exact iff_of_true rfl h
  · next h => exact iff_of_false Bool.false_ne_true h

def overflowUnits : Nat := (2 ^ 54 - 1) * 2 ^ 2044

theorem significand_bounds (n : Nat) :
    n / 2 ^ (n.log2 - 52) < 2 ^ 53 ∧ (n.log2 - 52 = 0 ∨ 2 ^ 52 ≤ n / 2 ^ (n.log2 - 52)) := by
  have hlt : n < 2 ^ (n.log2 + 1) := Nat.lt_log2_self
  rcases Nat.lt_or_ge 52 n.log2 with h | h
  · have hle : 2 ^ n.log2 ≤ n := Nat.log2_self_le (by rintro rfl; cases h)
    rw [Nat.div_lt_iff_lt_mul (Nat.two_pow_pos _), Nat.le_div_iff_mul_le (Nat.two_pow_pos _),
      ← Nat.pow_add, ← Nat.pow_add, Nat.add_sub_cancel' (Nat.le_of_lt h)]
    refine ⟨Nat.lt_of_lt_of_le hlt (Nat.pow_le_pow_right (by decide) (by omega)), .inr hle⟩
  · rw [Nat.sub_eq_zero_of_le h, Nat.pow_zero, Nat.div_one]
    exact ⟨Nat.lt_of_lt_of_le hlt (Nat.pow_le_pow_right (by decide) (by omega)), .inl rfl⟩

theorem isSome_nearest?_iff {num den : Nat} (hd : 0 < den) :
    (nearest? num den).isSome ↔ num < overflowUnits * den := by
  obtain ⟨hlt, hge⟩ := significand_bounds (num / den)
  rw [nearest?, overflowUnits]
  generalize (num / den).log2 - 52 = scale at hlt hge ⊢
  have hstep : 0 < den * 2 ^ scale := Nat.mul_pos hd (Nat.two_pow_pos _)
  have hcarry : roundHalfEven num (den * 2 ^ scale) < 2 ^ 53 ↔
      2 * num < (2 * (2 ^ 53 - 1) + 1) * (den * 2 ^ scale) := by
    have := lt_roundHalfEven_iff (n := num) (q := 2 ^ 53 - 1) hstep (by decide)
    omega
  have hlow := div_le_roundHalfEven num (den * 2 ^ scale)
  have hhigh := roundHalfEven_le num (den * 2 ^ scale)
  rw [← Nat.div_div_eq_div_mul] at hlow hhigh
  generalize roundHalfEven num (den * 2 ^ scale) = significand at hcarry hlow hhigh ⊢
  have hsome : (if significand = 2 ^ 53 then ofParts? (2 ^ 52) (scale + 1)
      else ofParts? significand scale).isSome ↔
        scale < 2045 ∨ scale = 2045 ∧ significand < 2 ^ 53 := by
    split
    · rw [isSome_ofParts?_iff]
      omega
    · rw [isSome_ofParts?_iff]
      omega
  refine hsome.trans ?_
  obtain ⟨top, htop⟩ : ∃ top, top = 2044 := ⟨_, rfl⟩
  rw [← htop]
  rcases Nat.lt_trichotomy scale (top + 1) with h | h | h
  · have hpow : 2 ^ scale ≤ 2 ^ top := Nat.pow_le_pow_right (by decide) (by omega)
    rw [Nat.div_lt_iff_lt_mul (Nat.two_pow_pos _)] at hlt
    rw [← Nat.div_lt_iff_lt_mul hd]
    omega
  · have hdouble : (2 * (2 ^ 53 - 1) + 1) * (den * 2 ^ scale) =
        2 * ((2 ^ 54 - 1) * 2 ^ top * den) := by
      have hmul (a b c : Nat) : a * (b * (c * 2)) = 2 * (a * c * b) := by ac_rfl
      have hodd : 2 * (2 ^ 53 - 1) + 1 = 2 ^ 54 - 1 := by decide
      rw [h, Nat.pow_add_one 2 top, hodd, hmul]
    rw [hdouble, Nat.mul_lt_mul_left (by decide)] at hcarry
    have hscale : scale = 2045 := by rw [h, htop]
    rw [hcarry]
    constructor
    · exact fun hnum => (hnum.resolve_left (by rw [hscale]; decide)).2
    · exact fun hnum => .inr ⟨hscale, hnum⟩
  · have hpow : 2 ^ (top + 2) ≤ 2 ^ scale := Nat.pow_le_pow_right (by decide) h
    have hle := hge.resolve_left (by omega)
    rw [Nat.le_div_iff_mul_le (Nat.two_pow_pos _)] at hle
    rw [Nat.pow_add] at hpow
    rw [← Nat.div_lt_iff_lt_mul hd]
    omega

/-- From here on a natural number is too large for a magnitude. -/
def overflow : Nat := 2 ^ 1024 - 2 ^ 970

theorem overflowUnits_eq : overflowUnits = overflow * 2 ^ 1074 := by
  have h (a b c d : Nat) (hc : c = a + b) (hd : d = 54 + a) :
      (2 ^ 54 - 1) * 2 ^ c = (2 ^ d - 2 ^ a) * 2 ^ b := by
    rw [hc, hd, Nat.pow_add 2 a b, Nat.pow_add 2 54 a, ← Nat.mul_assoc, Nat.sub_mul, Nat.one_mul]
  rw [overflowUnits, overflow]
  exact h 970 1074 2044 1024 rfl rfl

theorem isSome_ofNat?_iff {n : Nat} : (ofNat? n).isSome ↔ n < overflow := by
  rw [ofNat?, isSome_nearest?_iff Nat.one_pos, Nat.mul_one, overflowUnits_eq]
  exact Nat.mul_lt_mul_right (Nat.two_pow_pos 1074)

end Magnitude

end Stencil
