import Stencil.Proofs.Number.Nearest

/-! # Neighbours of a magnitude

The magnitudes next to a magnitude are a step away, and below a power of two half a step. A number
is rounded to a magnitude if it is not beyond the middle between that one and a neighbour. In the
middle itself the even one is taken, and of two neighbours only one is even.
-/

namespace Stencil

theorem abs_sub_le_abs_sub_iff_of_lt {v a b : ℚ} (h : a < b) :
    |v - a| ≤ |v - b| ↔ 2 * v ≤ a + b := by
  rw [← sq_le_sq]
  constructor <;> intro hle <;> nlinarith

theorem abs_sub_le_abs_sub_iff_of_gt {v a b : ℚ} (h : b < a) :
    |v - a| ≤ |v - b| ↔ a + b ≤ 2 * v := by
  rw [← sq_le_sq]
  constructor <;> intro hle <;> nlinarith

theorem abs_sub_eq_abs_sub_iff {v a b : ℚ} (h : a ≠ b) : |v - a| = |v - b| ↔ 2 * v = a + b := by
  rw [abs_eq_abs, or_iff_right fun heq => h (sub_right_injective heq)]
  constructor <;> intro heq <;> linarith

theorem isNearestEven_iff {α : Type} {value : α → ℚ} {even : α → Prop} {v : ℚ} {a : α}
    (hinj : Function.Injective value) : IsNearestEven value even v a ↔
      (∀ b, value a < value b → 2 * v ≤ value a + value b) ∧
      (∀ b, value b < value a → value a + value b ≤ 2 * v) ∧
      ∀ b, b ≠ a → 2 * v = value a + value b → even a := by
  have htie {b : α} (hb : b ≠ a) : |v - value b| = |v - value a| ↔ 2 * v = value a + value b := by
    rw [eq_comm, abs_sub_eq_abs_sub_iff (hinj.ne hb.symm)]
  constructor
  · intro h
    exact ⟨fun b hb => (abs_sub_le_abs_sub_iff_of_lt hb).mp (h.nearest b),
      fun b hb => (abs_sub_le_abs_sub_iff_of_gt hb).mp (h.nearest b),
      fun b hb heq => h.even b hb ((htie hb).mpr heq)⟩
  · rintro ⟨habove, hbelow, heven⟩
    constructor
    · intro b
      rcases lt_trichotomy (value a) (value b) with hb | hb | hb
      · exact (abs_sub_le_abs_sub_iff_of_lt hb).mpr (habove b hb)
      · rw [hb]
      · exact (abs_sub_le_abs_sub_iff_of_gt hb).mpr (hbelow b hb)
    · exact fun b hb heq => heven b hb ((htie hb).mp heq)

namespace Magnitude

variable {x y : Magnitude} {v : ℚ}

def below (x : Magnitude) : Nat :=
  (if x.significand = 2 ^ 52 ∧ x.scale ≠ 0 then 1 else 2) * 2 ^ x.scale

theorem below_pos (x : Magnitude) : 0 < x.below := by
  unfold below
  split <;> exact Nat.mul_pos (by decide) (Nat.two_pow_pos _)

/-- Rounding the number gives the magnitude, and does not overflow. -/
def IsReading (x : Magnitude) (v : ℚ) : Prop := x.IsNearest v ∧ v < overflow

theorem add_le_of_units_lt (h : x.units < y.units) : x.units + 2 ^ x.scale ≤ y.units := by
  rcases y.units_cases x.scale with ⟨k, hk⟩ | ⟨hscale, hy⟩
  · rw [hk, units] at h ⊢
    have hlt := Nat.lt_of_mul_lt_mul_right h
    rw [← Nat.succ_mul]
    exact Nat.mul_le_mul_right _ hlt
  · have hle : 2 ^ 52 * 2 ^ x.scale ≤ x.units :=
      Nat.mul_le_mul_right _ (x.normal.resolve_left hscale)
    exact absurd h (by omega)

theorem add_below_le_of_units_lt (h : y.units < x.units) :
    2 * y.units + x.below ≤ 2 * x.units := by
  unfold below
  split
  · next hpower =>
    obtain ⟨hsignificand, hscale⟩ := hpower
    obtain ⟨e, he⟩ := Nat.exists_eq_add_one_of_ne_zero hscale
    have hx : x.units = 2 ^ 53 * 2 ^ e := by
      rw [units, hsignificand, he, Nat.pow_succ 2 e, Nat.pow_succ 2 52]
      ac_rfl
    rw [he, Nat.pow_succ]
    rcases y.units_cases e with ⟨k, hk⟩ | ⟨-, hy⟩
    · rw [hx, hk] at h ⊢
      have hle := Nat.mul_le_mul_right (2 ^ e) (Nat.lt_of_mul_lt_mul_right h)
      rw [Nat.succ_mul] at hle
      omega
    · omega
  · next hpower =>
    rcases y.units_cases x.scale with ⟨k, hk⟩ | ⟨hscale, hy⟩
    · rw [hk, units] at h ⊢
      have hle := Nat.mul_le_mul_right (2 ^ x.scale) (Nat.lt_of_mul_lt_mul_right h)
      rw [Nat.succ_mul] at hle
      omega
    · have hnormal := x.normal.resolve_left hscale
      have hle : (2 ^ 52 + 1) * 2 ^ x.scale ≤ x.units := Nat.mul_le_mul_right _ (by omega)
      omega

theorem exists_above (x : Magnitude) :
    (∃ y : Magnitude, y.units = x.units + 2 ^ x.scale ∧
      (Even x.significand → ¬ Even y.significand)) ∨
    2 * x.units + 2 ^ x.scale = 2 * overflowUnits ∧ ¬ Even x.significand := by
  have hunits : x.units + 2 ^ x.scale = (x.significand + 1) * 2 ^ x.scale :=
    (Nat.succ_mul _ _).symm
  rcases Nat.lt_or_ge (x.significand + 1) (2 ^ 53) with h | h
  · refine .inl ⟨⟨x.significand + 1, x.scale, h, x.scale_le, x.normal.imp_right Nat.le_succ_of_le⟩,
      hunits.symm, fun heven => ?_⟩
    exact Nat.not_even_iff_odd.mpr heven.add_one
  · have hlast : x.significand = 2 ^ 53 - 1 := by
      have hlt := x.significand_lt
      omega
    have hodd : ¬ Even x.significand := by
      rw [hlast]
      decide
    rcases x.scale_le.lt_or_eq with hscale | hscale
    · refine .inl ⟨⟨2 ^ 52, x.scale + 1, by decide, hscale, .inr (Nat.le_refl _)⟩, ?_,
        fun heven => absurd heven hodd⟩
      change 2 ^ 52 * 2 ^ (x.scale + 1) = _
      rw [hunits, hlast, Nat.pow_succ 2 x.scale]
      omega
    · refine .inr ⟨?_, hodd⟩
      have htop (scale top : ℕ) (h : scale = top + 1) :
          2 * ((2 ^ 53 - 1) * 2 ^ scale) + 2 ^ scale = 2 * ((2 ^ 54 - 1) * 2 ^ top) := by
        rw [h, Nat.pow_succ]
        omega
      rw [units, hlast]
      unfold overflowUnits
      exact htop x.scale 2044 hscale

theorem exists_below (hx : x.significand ≠ 0) :
    ∃ y : Magnitude, 2 * y.units + x.below = 2 * x.units := by
  unfold below
  split
  · next hpower =>
    obtain ⟨hsignificand, hscale⟩ := hpower
    obtain ⟨e, he⟩ := Nat.exists_eq_add_one_of_ne_zero hscale
    have hle := x.scale_le
    refine ⟨⟨2 ^ 53 - 1, e, by decide, by omega, .inr (by decide)⟩, ?_⟩
    change 2 * ((2 ^ 53 - 1) * 2 ^ e) + _ = 2 * (x.significand * 2 ^ x.scale)
    rw [hsignificand, he, Nat.pow_succ 2 e]
    omega
  · next hpower =>
    have hlt := x.significand_lt
    have hnormal := x.normal
    refine ⟨⟨x.significand - 1, x.scale, by omega, x.scale_le, by omega⟩, ?_⟩
    obtain ⟨s, hs⟩ := Nat.exists_eq_add_one_of_ne_zero hx
    simp only [units, hs, Nat.add_sub_cancel, Nat.succ_mul]
    omega

theorem value_mul_units (x : Magnitude) : x.value * 2 ^ 1074 = x.units :=
  div_mul_cancel₀ _ (pow_ne_zero 1074 two_ne_zero)

theorem isNearest_iff_units : x.IsNearest v ↔
    IsNearestEven (fun y => (y.units : ℚ)) (Even ·.significand) (v * 2 ^ 1074) x := by
  refine ⟨fun h => ?_, isNearest_of_units⟩
  have hpow : (0 : ℚ) < 2 ^ 1074 := by positivity
  have hscale := IsNearestEven.scale h hpow
  simp only [value_mul_units] at hscale
  exact hscale

theorem lt_overflow_iff_units : v < overflow ↔ v * 2 ^ 1074 < overflowUnits := by
  have hpow (k : ℕ) : v < overflow ↔ v * 2 ^ k < (overflow * 2 ^ k : ℕ) := by
    push_cast
    rw [mul_lt_mul_iff_left₀ (by positivity)]
  rw [overflowUnits_eq]
  exact hpow 1074

theorem cast_units_injective : Function.Injective fun y : Magnitude => (y.units : ℚ) :=
  Nat.cast_injective.comp units_injective

/-- A number in the middle of two magnitudes is not rounded to both, as only one of them is even. -/
theorem IsNearest.unique (hx : x.IsNearest v) (hy : y.IsNearest v) : x = y := by
  wlog h : x.units < y.units generalizing x y
  · rcases Nat.lt_or_eq_of_le (Nat.le_of_not_lt h) with hlt | heq
    · exact (this hy hx hlt).symm
    · exact units_injective heq.symm
  exfalso
  rw [isNearest_iff_units, isNearestEven_iff cast_units_injective] at hx hy
  have hlt : (x.units : ℚ) < y.units := by exact_mod_cast h
  have hle := hx.1 y hlt
  have hge := hy.2.1 x hlt
  have htie : 2 * (v * 2 ^ 1074) = x.units + y.units :=
    le_antisymm hle ((add_comm _ _).trans_le hge)
  have hxeven := hx.2.2 y (fun heq => h.ne (by rw [heq])) htie
  have hyeven := hy.2.2 x (fun heq => h.ne (by rw [heq])) (htie.trans (add_comm _ _))
  rcases x.exists_above with ⟨z, hz, hodd⟩ | ⟨-, hodd⟩
  · have hzle : z.units ≤ y.units := hz.trans_le (add_le_of_units_lt h)
    rcases Nat.lt_or_eq_of_le hzle with hzlt | heq
    · -- A magnitude between the two would be nearer than both.
      have hxz : (x.units : ℚ) < z.units := by
        rw [hz]
        exact_mod_cast Nat.lt_add_of_pos_right (Nat.two_pow_pos _)
      have hmiddle := hx.1 z hxz
      rw [htie, add_le_add_iff_left, Nat.cast_le] at hmiddle
      exact absurd hzlt (Nat.not_lt.mpr hmiddle)
    · rw [units_injective heq] at hodd
      exact hodd hxeven hyeven
  · exact hodd hxeven

/-- A number of units is not beyond the middle between the magnitude and its neighbours, and in the
middle only if the significand is even. It is counted in quarters of a unit. -/
def Covers (x : Magnitude) (units : ℚ) : Prop :=
  let low : ℚ := 4 * x.units - x.below
  let high : ℚ := 4 * x.units + 2 * 2 ^ x.scale
  (low ≤ 4 * units ∧ 4 * units ≤ high) ∧
    (4 * units = low ∨ 4 * units = high → Even x.significand)

theorem IsReading.covers (hx : x.significand ≠ 0) {units : ℚ} (hv : v * 2 ^ 1074 = units)
    (h : x.IsReading v) : x.Covers units := by
  rw [IsReading, isNearest_iff_units, isNearestEven_iff cast_units_injective,
    lt_overflow_iff_units, hv] at h
  obtain ⟨⟨hle, hge, heven⟩, hlt⟩ := h
  have hstep : (0 : ℚ) < 2 ^ x.scale := by positivity
  have hpos : (0 : ℚ) < x.below := by exact_mod_cast x.below_pos
  obtain ⟨y, hy⟩ := exists_below hx
  have hy : 2 * (y.units : ℚ) + x.below = 2 * x.units := by exact_mod_cast hy
  have hylt : (y.units : ℚ) < x.units := by linarith
  have hlow : 4 * x.units - x.below ≤ 4 * units := by linarith [hge y hylt]
  have htie (heq : 4 * units = 4 * x.units - x.below) : Even x.significand :=
    heven y (fun h => hylt.ne (by rw [h])) (by linarith)
  rcases x.exists_above with ⟨z, hz, -⟩ | ⟨hlast, -⟩
  · have hz : (z.units : ℚ) = x.units + 2 ^ x.scale := by exact_mod_cast hz
    have hzlt : (x.units : ℚ) < z.units := by linarith
    refine ⟨⟨hlow, by linarith [hle z hzlt]⟩, fun h => h.elim htie fun heq => ?_⟩
    exact heven z (fun h => hzlt.ne (by rw [h])) (by linarith)
  · have hlast : 2 * (x.units : ℚ) + 2 ^ x.scale = 2 * overflowUnits := by exact_mod_cast hlast
    have hhigh : 4 * units < 4 * x.units + 2 * 2 ^ x.scale := by linarith
    exact ⟨⟨hlow, hhigh.le⟩, fun h => h.elim htie fun heq => absurd heq hhigh.ne⟩

theorem Covers.isReading {units : ℚ} (hv : v * 2 ^ 1074 = units) (h : x.Covers units) :
    x.IsReading v := by
  obtain ⟨⟨hlow, hhigh⟩, heven⟩ := h
  have hstep : (0 : ℚ) < 2 ^ x.scale := by positivity
  have habove (y : Magnitude) (hy : (x.units : ℚ) < y.units) :
      (x.units : ℚ) + 2 ^ x.scale ≤ y.units := by
    exact_mod_cast add_le_of_units_lt (by exact_mod_cast hy)
  have hbelow (y : Magnitude) (hy : (y.units : ℚ) < x.units) :
      2 * (y.units : ℚ) + x.below ≤ 2 * x.units := by
    exact_mod_cast add_below_le_of_units_lt (by exact_mod_cast hy)
  rw [IsReading, isNearest_iff_units, isNearestEven_iff cast_units_injective,
    lt_overflow_iff_units, hv]
  refine ⟨⟨fun y hy => ?_, fun y hy => ?_, fun y hne htie => heven ?_⟩, ?_⟩
  · linarith [habove y hy]
  · linarith [hbelow y hy]
  · rcases lt_trichotomy (y.units : ℚ) x.units with hy | hy | hy
    · exact .inl (by linarith [hbelow y hy])
    · exact absurd (cast_units_injective hy) hne
    · exact .inr (by linarith [habove y hy])
  · rcases x.exists_above with ⟨y, hy, -⟩ | ⟨hlast, hodd⟩
    · have hlt := lt_overflow_iff_units.mp y.value_lt_overflow
      rw [value_mul_units, hy] at hlt
      push_cast at hlt
      linarith
    · have hne : 4 * units ≠ 4 * x.units + 2 * 2 ^ x.scale := fun heq => hodd (heven (.inr heq))
      have hlt := lt_of_le_of_ne hhigh hne
      have hlast : 2 * (x.units : ℚ) + 2 ^ x.scale = 2 * overflowUnits := by exact_mod_cast hlast
      linarith

/-- The numbers that are rounded to a magnitude are those next to it. -/
theorem isReading_iff_covers (hx : x.significand ≠ 0) : x.IsReading v ↔ x.Covers (v * 2 ^ 1074) :=
  ⟨fun h => h.covers hx rfl, fun h => h.isReading rfl⟩

end Magnitude

end Stencil
