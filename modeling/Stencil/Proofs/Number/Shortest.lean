import Stencil.Proofs.Number.General
import Stencil.Proofs.Number.Neighbours
import Stencil.Proofs.Number.Significant

/-! # Shortest decimals

The numbers that are rounded to a magnitude are those of its bracket. With each further digit the
multiples of a smaller power of ten are tried, so that the first that lies in the bracket has the
fewest digits. Seventeen digits are enough, as the bracket is wider than a unit of the last of them.
-/

namespace Stencil

namespace Bracket

variable {b : Bracket} {step d n : Nat} {s t u : ℚ}

structure IsProper (b : Bracket) : Prop where
  low_pos : 0 < b.low
  low_lt : b.low < b.value
  lt_high : b.value < b.high

/-- The value has so many digits, and the bracket is wider than a unit of the last of them. -/
structure IsWide (b : Bracket) : Prop where
  size : maxDigits ≤ (natText b.value).length
  width : b.low + 10 ^ ((natText b.value).length - maxDigits) < b.high

def Contains (b : Bracket) (t : ℚ) : Prop :=
  (b.low ≤ t ∧ t ≤ b.high) ∧ (t = b.low ∨ t = b.high → b.closed = true)

theorem holds_iff : b.Holds n ↔ b.Contains n := by
  unfold Holds Contains
  norm_cast
  cases b.closed with
  | true => simp
  | false =>
    simp only [Bool.false_eq_true, if_false, imp_false]
    omega

theorem Contains.between (hs : b.Contains s) (hu : b.Contains u) (hst : s ≤ t) (htu : t ≤ u) :
    b.Contains t := by
  refine ⟨⟨hs.1.1.trans hst, htu.trans hu.1.2⟩, fun h => h.elim (fun h => ?_) fun h => ?_⟩
  · exact hs.2 (.inl (le_antisymm (hst.trans_eq h) hs.1.1))
  · exact hu.2 (.inr (le_antisymm hu.1.2 (h.symm.trans_le htu)))

theorem IsProper.contains_value (hb : b.IsProper) : b.Contains b.value := by
  have hlow : (b.low : ℚ) < b.value := by exact_mod_cast hb.low_lt
  have hhigh : (b.value : ℚ) < b.high := by exact_mod_cast hb.lt_high
  exact ⟨⟨hlow.le, hhigh.le⟩, fun h => (h.elim hlow.ne' hhigh.ne).elim⟩

theorem eq_of_neighbour? (h : b.neighbour? step = some d) :
    b.Holds (d * step) ∧ d ≤ b.value / step + 1 := by
  unfold neighbour? at h
  dsimp only at h
  split at h
  · next hbelow =>
    cases h
    exact ⟨hbelow.1, Nat.le_succ _⟩
  · split at h
    · next habove =>
      cases h
      exact ⟨habove, Nat.le_refl _⟩
    · cases h

theorem neighbour?_eq_none_iff : b.neighbour? step = none ↔
    ¬ b.Holds (b.value / step * step) ∧ ¬ b.Holds ((b.value / step + 1) * step) := by
  unfold neighbour?
  dsimp only
  split
  · next h => exact iff_of_false nofun fun hnot => hnot.1 h.1
  · next h =>
    split
    · next habove => exact iff_of_false nofun fun hnot => hnot.2 habove
    · next habove => exact iff_of_true rfl ⟨fun hbelow => h ⟨hbelow, .inl habove⟩, habove⟩

theorem not_holds_of_neighbour? (hb : b.IsProper) (hstep : 0 < step)
    (h : b.neighbour? step = none) (k : Nat) : ¬ b.Holds (k * step) := by
  obtain ⟨hbelow, habove⟩ := neighbour?_eq_none_iff.mp h
  have hvalue := hb.contains_value
  have hle : b.value / step * step ≤ b.value := Nat.div_mul_le_self _ _
  have hlt : b.value < (b.value / step + 1) * step :=
    Nat.lt_mul_of_div_lt (Nat.lt_succ_self _) hstep
  intro hk
  rw [holds_iff] at hbelow habove hk
  rcases Nat.lt_or_ge (b.value / step) k with hlarge | hsmall
  · have hmul : (b.value / step + 1) * step ≤ k * step := Nat.mul_le_mul_right _ hlarge
    exact habove (hvalue.between hk (by exact_mod_cast hlt.le) (by exact_mod_cast hmul))
  · have hmul : k * step ≤ b.value / step * step := Nat.mul_le_mul_right _ hsmall
    exact hbelow (hk.between hvalue (by exact_mod_cast hmul) (by exact_mod_cast hle))

theorem exists_neighbour? (hb : b.IsProper) (hstep : 0 < step) (h : b.low + step < b.high) :
    ∃ d, b.neighbour? step = some d := by
  by_contra hnone
  rw [← Option.isSome_iff_exists, Option.not_isSome_iff_eq_none, neighbour?_eq_none_iff] at hnone
  obtain ⟨hbelow, habove⟩ := hnone
  have hle : b.value / step * step ≤ b.value := Nat.div_mul_le_self _ _
  have hlt : b.value < (b.value / step + 1) * step :=
    Nat.lt_mul_of_div_lt (Nat.lt_succ_self _) hstep
  have hlow := hb.low_lt
  have hhigh := hb.lt_high
  rw [Nat.succ_mul] at hlt habove
  generalize b.value / step * step = multiple at *
  unfold Holds at hbelow habove
  by_cases hclosed : b.closed = true
  · rw [if_pos hclosed] at hbelow habove
    omega
  · rw [if_neg hclosed] at hbelow habove
    omega

theorem exists_of_findSome?_range {α : Type} {f : ℕ → Option α} {n : ℕ} {a : α}
    (h : (List.range n).findSome? f = some a) : ∃ k < n, f k = some a ∧ ∀ j < k, f j = none := by
  obtain ⟨l, k, l', hrange, hk, hnone⟩ := List.findSome?_eq_some_iff.mp h
  have hlength : l.length < n := by
    have hlength := congrArg List.length hrange
    rw [List.length_range, List.length_append, List.length_cons] at hlength
    omega
  have hl : l = List.range l.length := by
    have htake := congrArg (List.take l.length) hrange
    rw [List.take_left, List.take_range, Nat.min_eq_left hlength.le] at htake
    exact htake.symm
  have hindex : k = l.length := by
    have hget := congrArg (fun s => s[l.length]?) hrange
    simpa [hlength] using hget.symm
  rw [hl, ← hindex] at hnone
  exact ⟨k, hindex ▸ hlength, hk, fun j hj => hnone j (List.mem_range.mpr hj)⟩

theorem exists_shortest (hb : b.IsProper) (hwide : b.IsWide) :
    let size := (natText b.value).length
    ∃ k d, k < maxDigits ∧ b.neighbour? (10 ^ (size - 1 - k)) = some d ∧
      (∀ j < k, b.neighbour? (10 ^ (size - 1 - j)) = none) ∧
      b.shortest = (stripZeros (natText d),
        (size - 1 - b.places : ℤ) + ((natText d).length - (k + 1) : ℤ)) := by
  intro size
  let search (k : ℕ) := (b.neighbour? (10 ^ (size - 1 - k))).map fun d => (k, d)
  obtain ⟨d, hd⟩ : ∃ d, b.neighbour? (10 ^ (size - maxDigits)) = some d :=
    exists_neighbour? hb (Nat.pow_pos (by decide)) hwide.width
  have hlast : search (maxDigits - 1) = some (maxDigits - 1, d) := by
    have hstep : size - 1 - (maxDigits - 1) = size - maxDigits := by
      rw [Nat.sub_sub, Nat.add_sub_cancel' (by decide)]
    simp only [search, hstep, hd, Option.map_some]
  obtain ⟨⟨k, d⟩, hfound⟩ : ∃ a, (List.range maxDigits).findSome? search = some a := by
    rw [← Option.isSome_iff_exists, List.findSome?_isSome_iff]
    exact ⟨maxDigits - 1, by decide, Option.isSome_of_eq_some hlast⟩
  obtain ⟨k', hk, hsearch, hnone⟩ := exists_of_findSome?_range hfound
  obtain ⟨d', hneighbour, heq⟩ := Option.map_eq_some_iff.mp hsearch
  obtain ⟨rfl, rfl⟩ := Prod.mk.inj heq
  refine ⟨k', d', hk, hneighbour, fun j hj => Option.map_eq_none_iff.mp (hnone j hj), ?_⟩
  unfold shortest
  dsimp only
  rw [hfound]
  rfl

/-- Where no multiple of a power of ten lies in the bracket, no decimal with so few digits does. One
that is no multiple would have all its digits below the first digit of the value, and the power of
ten there is a multiple. -/
theorem not_contains_of_neighbour? (hb : b.IsProper) {j p : ℕ} (h : b.neighbour? (10 ^ p) = none)
    (hvalue : 10 ^ (j + p) ≤ b.value) {m : ℕ} (hm : m < 10 ^ (j + 1)) (e : ℤ) :
    ¬ b.Contains (m * (10 : ℚ) ^ e) := by
  have hmultiple (k : ℕ) : ¬ b.Contains (k * (10 : ℚ) ^ p) := by
    have hnot := not_holds_of_neighbour? hb (Nat.pow_pos (by decide)) h k
    rw [holds_iff] at hnot
    exact_mod_cast hnot
  intro hcontains
  rcases Int.lt_or_le e p with he | he
  · refine hmultiple (10 ^ j) (hcontains.between hb.contains_value ?_ ?_)
    · calc (m : ℚ) * 10 ^ e ≤ (10 ^ (j + 1) : ℕ) * 10 ^ e := by gcongr
        _ = 10 ^ ((j + 1 : ℕ) + e) := by
          rw [zpow_add₀ (by norm_num), zpow_natCast, Nat.cast_pow, Nat.cast_ofNat]
        _ ≤ 10 ^ ((j + p : ℕ) : ℤ) := zpow_le_zpow_right₀ (by norm_num) (by omega)
        _ = (10 ^ j : ℕ) * 10 ^ p := by rw [zpow_natCast, pow_add, Nat.cast_pow, Nat.cast_ofNat]
    · rw [Nat.cast_pow, Nat.cast_ofNat, ← pow_add]
      exact_mod_cast hvalue
  · obtain ⟨i, rfl⟩ : ∃ i : ℕ, e = i + p := ⟨(e - p).toNat, by omega⟩
    apply hmultiple (m * 10 ^ i)
    rw [zpow_add₀ (by norm_num), zpow_natCast, zpow_natCast] at hcontains
    push_cast
    rwa [mul_assoc]

/-- What is found lies in the bracket, and no decimal with fewer digits does. -/
theorem shortest_spec (hb : b.IsProper) (hwide : b.IsWide) :
    ∃ digits exponent, b.shortest = (digits, exponent) ∧ IsSignificant digits ∧
      b.Contains (Nat.ofDigitChars 10 digits 0 *
        (10 : ℚ) ^ (exponent - (digits.length - 1) + b.places)) ∧
      ∀ n < digits.length, ∀ (m : ℕ) (k : ℤ), m < 10 ^ n → ¬ b.Contains (m * (10 : ℚ) ^ k) := by
  obtain ⟨k, d, hk, hd, hnone, hshortest⟩ := exists_shortest hb hwide
  obtain ⟨hvaluelow, hvaluehigh⟩ := natText_bounds (Nat.ne_zero_of_lt hb.low_lt)
  have hk : k + 1 ≤ (natText b.value).length := Nat.le_trans hk hwide.size
  generalize (natText b.value).length = size at *
  obtain ⟨hholds, hle⟩ := eq_of_neighbour? hd
  rw [holds_iff] at hholds
  have hzero : ¬ b.Contains 0 := fun h => absurd h.1.1 (not_le.mpr (by exact_mod_cast hb.low_pos))
  have hne : d ≠ 0 := by
    rintro rfl
    rw [Nat.zero_mul, Nat.cast_zero] at hholds
    exact hzero hholds
  obtain ⟨z, hlength, hvalue⟩ := exists_eq_pow_mul_stripZeros d
  refine ⟨_, _, hshortest, .stripZeros_natText hne, ?_, ?_⟩
  · rw [hlength]
    generalize stripZeros (natText d) = digits at *
    have hexponent : (size - 1 - b.places + ((digits.length + z : ℕ) - (k + 1)) -
        (digits.length - 1) + b.places : ℤ) = (z + (size - 1 - k) : ℕ) := by omega
    rw [hexponent, zpow_natCast, pow_add]
    rw [hvalue] at hholds
    push_cast at hholds
    convert hholds using 1
    ring
  · have hdigits : (stripZeros (natText d)).length ≤ k + 1 := by
      apply length_stripZeros_natText_le (Nat.succ_pos k)
      refine hle.trans (Nat.succ_le_of_lt ?_)
      rw [Nat.div_lt_iff_lt_mul (Nat.pow_pos (by decide)), ← Nat.pow_add]
      exact hvaluehigh.trans_le (Nat.pow_le_pow_right (by decide) (by omega))
    intro n hn m e hm
    cases n with
    | zero =>
      rw [Nat.pow_zero, Nat.lt_one_iff] at hm
      rw [hm, Nat.cast_zero, zero_mul]
      exact hzero
    | succ j =>
      refine not_contains_of_neighbour? hb (hnone j (by omega)) ?_ hm e
      rwa [Nat.add_comm, Nat.sub_add_cancel (by omega)]

end Bracket

namespace Magnitude

variable {x : Magnitude} {v : ℚ}

theorem below_lt_units (hx : x.significand ≠ 0) : x.below < 4 * x.units := by
  have hstep : 2 ^ x.scale ≤ x.units := Nat.le_mul_of_pos_left _ (Nat.pos_of_ne_zero hx)
  have hpos := Nat.two_pow_pos x.scale
  unfold below
  split <;> omega

theorem isProper_bracket (hx : x.significand ≠ 0) : x.bracket.IsProper := by
  have hbelow := below_lt_units hx
  have hpos := x.below_pos
  have hstep := Nat.two_pow_pos x.scale
  have hunit (k : ℕ) : 0 < 5 ^ k := Nat.pow_pos (by decide)
  constructor
  · exact Nat.mul_pos (Nat.sub_pos_of_lt hbelow) (hunit 1076)
  · exact Nat.mul_lt_mul_of_pos_right (Nat.sub_lt (by omega) hpos) (hunit 1076)
  · exact Nat.mul_lt_mul_of_pos_right (by omega) (hunit 1076)

theorem isReading_iff_contains (hx : x.significand ≠ 0) :
    x.IsReading v ↔ x.bracket.Contains (v * 10 ^ x.bracket.places) := by
  have hscaled (k : ℕ) : v * 10 ^ (k + 2) = 4 * (v * 2 ^ k) * 5 ^ (k + 2) := by
    rw [show (10 : ℚ) = 2 * 5 by norm_num, mul_pow, pow_add 2 k 2]
    ring
  have hunit (k : ℕ) : (0 : ℚ) < 5 ^ k := pow_pos (by norm_num) k
  have hlow (k : ℕ) : (((4 * x.units - x.below) * 5 ^ k : ℕ) : ℚ) =
      (4 * x.units - x.below) * 5 ^ k := by
    rw [Nat.cast_mul, Nat.cast_sub (below_lt_units hx).le]
    push_cast
    rfl
  have hhigh (k : ℕ) : (((4 * x.units + 2 * 2 ^ x.scale) * 5 ^ k : ℕ) : ℚ) =
      (4 * x.units + 2 * 2 ^ x.scale) * 5 ^ k := by
    push_cast
    rfl
  have hcontains (k places : ℕ) (hplaces : places = k + 2) (b : Bracket)
      (hb : b.low = (4 * x.units - x.below) * 5 ^ places)
      (hb' : b.high = (4 * x.units + 2 * 2 ^ x.scale) * 5 ^ places)
      (hclosed : b.closed = decide (x.significand % 2 = 0)) :
      b.Contains (v * 10 ^ places) ↔ x.Covers (v * 2 ^ k) := by
    rw [Covers, Bracket.Contains, hb, hb', hclosed, hlow, hhigh, hplaces, hscaled,
      mul_le_mul_iff_left₀ (hunit _), mul_le_mul_iff_left₀ (hunit _), mul_left_inj' (hunit _).ne',
      mul_left_inj' (hunit _).ne', Nat.even_iff, decide_eq_true_eq]
  exact (isReading_iff_covers hx).trans (hcontains 1074 1076 rfl x.bracket rfl rfl rfl).symm

theorem units_lt_width {unit : ℕ} (hunit : 0 < unit) :
    4 * x.units * unit < 10 ^ 16 * ((x.below + 2 * 2 ^ x.scale) * unit) := by
  have hlt := x.significand_lt
  have hcoefficient : 4 * x.significand <
      10 ^ 16 * ((if x.significand = 2 ^ 52 ∧ x.scale ≠ 0 then 1 else 2) + 2) := by
    split <;> omega
  calc 4 * x.units * unit = 4 * x.significand * (2 ^ x.scale * unit) := by
        rw [units]
        ac_rfl
    _ < _ := Nat.mul_lt_mul_of_pos_right hcoefficient (Nat.mul_pos (Nat.two_pow_pos _) hunit)
    _ = 10 ^ 16 * ((x.below + 2 * 2 ^ x.scale) * unit) := by
      rw [below, ← Nat.add_mul]
      ac_rfl

theorem isWide_bracket (hx : x.significand ≠ 0) : x.bracket.IsWide := by
  have hbelow := below_lt_units hx
  have hlarge (k : ℕ) (hk : 24 ≤ k) : 10 ^ 16 ≤ 4 * x.units * 5 ^ k :=
    calc 10 ^ 16 ≤ 5 ^ 24 := by decide
      _ ≤ 5 ^ k := Nat.pow_le_pow_right (by decide) hk
      _ ≤ 4 * x.units * 5 ^ k := Nat.le_mul_of_pos_left _ (by omega)
  have hvalue : 10 ^ 16 ≤ x.bracket.value := hlarge 1076 (by decide)
  have hsize : Bracket.maxDigits ≤ (natText x.bracket.value).length := lt_length_natText hvalue
  obtain ⟨hbounds, -⟩ := natText_bounds (Nat.ne_zero_of_lt (isProper_bracket hx).low_lt)
  have hexponent : (natText x.bracket.value).length - 1 =
      16 + ((natText x.bracket.value).length - Bracket.maxDigits) := by
    simp only [Bracket.maxDigits] at hsize ⊢
    omega
  rw [hexponent, Nat.pow_add] at hbounds
  have hwidth (b : Bracket) (k p : ℕ) (hlow : b.low = (4 * x.units - x.below) * 5 ^ k)
      (hhigh : b.high = (4 * x.units + 2 * 2 ^ x.scale) * 5 ^ k)
      (hp : 10 ^ 16 * 10 ^ p ≤ 4 * x.units * 5 ^ k) : b.low + 10 ^ p < b.high := by
    have hsum : b.high = b.low + (x.below + 2 * 2 ^ x.scale) * 5 ^ k := by
      rw [hlow, hhigh, ← Nat.add_mul]
      congr 1
      omega
    rw [hsum, Nat.add_lt_add_iff_left]
    exact Nat.lt_of_mul_lt_mul_left (hp.trans_lt (units_lt_width (Nat.pow_pos (by decide))))
  exact ⟨hsize, hwidth x.bracket 1076 _ rfl rfl hbounds⟩

/-- The decimal is read as the magnitude and as no other, and no decimal with fewer significant
digits is read as it. An exponent is written where the weight of the first digit asks for one. -/
structure IsShortest (x : Magnitude) (w : WrittenDecimal) : Prop where
  isReading_iff : ∀ y : Magnitude, y.IsReading w.value ↔ y = x
  minimal : ∀ n < w.significant.length, ∀ (m : ℕ) (k : ℤ), m < 10 ^ n →
    ¬ x.IsReading (m * (10 : ℚ) ^ k)
  exponent_iff : w.exponent?.isSome ↔ ∃ e : ℤ, (10 : ℚ) ^ e ≤ w.value ∧
    w.value < (10 : ℚ) ^ (e + 1) ∧ (e < -4 ∨ 16 ≤ e)

theorem IsReading.iff_eq (hx : x.IsReading v) (y : Magnitude) : y.IsReading v ↔ y = x := by
  constructor
  · exact fun hy => hy.1.unique hx.1
  · rintro rfl
    exact hx

theorem exists_written_zero (hx : x.significand = 0) : ∃ w : WrittenDecimal,
    w.text = x.text ".0".toList ∧ w.IsProper ∧ x.IsShortest w := by
  have hvalue : (WrittenDecimal.ofDigits true ['0'] ['0'] none).value = x.value := by
    have hzero : Nat.ofDigitChars 10 (['0'] ++ ['0']) 0 = 0 := by decide
    rw [WrittenDecimal.value_ofDigits hzero rfl, Nat.cast_zero, zero_mul, value_eq_zero_iff.mpr hx]
  have hdigit : ∀ c ∈ ['0'], c.isDigit = true := by decide
  refine ⟨.ofDigits true ['0'] ['0'] none, ?_, WrittenDecimal.isProper_ofDigits
    (List.cons_ne_nil _ _) hdigit (noLeadingZero_of_length_le (Nat.le_refl _)) hdigit,
    IsReading.iff_eq ?_, nofun, ?_⟩
  · rw [text, if_pos hx]
    rfl
  · rw [hvalue]
    exact ⟨x.isNearest_value, x.value_lt_overflow⟩
  · refine iff_of_false Bool.false_ne_true ?_
    rintro ⟨e, hlow, -⟩
    rw [hvalue, value_eq_zero_iff.mpr hx] at hlow
    exact absurd hlow (not_le.mpr (zpow_pos (by norm_num) e))

theorem exists_written_nonzero (hx : x.significand ≠ 0) : ∃ w : WrittenDecimal,
    w.text = x.text ".0".toList ∧ w.IsProper ∧ x.IsShortest w := by
  obtain ⟨digits, exponent, hshortest, hdigits, hcontains, hminimal⟩ :=
    Bracket.shortest_spec (isProper_bracket hx) (isWide_bracket hx)
  obtain ⟨w, htext, hshows, hexponent⟩ := hdigits.exists_written_shortestText exponent
  have hscaled (m : ℕ) (k : ℤ) : m * (10 : ℚ) ^ k * 10 ^ x.bracket.places =
      m * 10 ^ (k + x.bracket.places) := by
    rw [mul_assoc, zpow_add₀ (by norm_num), zpow_natCast]
  refine ⟨w, ?_, hshows.proper, IsReading.iff_eq ?_, ?_, ?_⟩
  · rw [htext, text, if_neg hx, hshortest]
  · rw [isReading_iff_contains hx, hshows.value, hscaled]
    exact hcontains
  · intro n hn m k hm
    rw [hshows.significant] at hn
    rw [isReading_iff_contains hx, hscaled]
    exact hminimal n hn m _ hm
  · have hbounds := hdigits.zpow_bounds exponent
    rw [← hshows.value] at hbounds
    rw [hexponent]
    constructor
    · exact fun h => ⟨exponent, hbounds.1, hbounds.2, h⟩
    · rintro ⟨e, hlow, hhigh, h⟩
      rwa [eq_of_zpow_bounds ⟨hlow, hhigh⟩ hbounds] at h

theorem exists_written_text (x : Magnitude) : ∃ w : WrittenDecimal,
    w.text = x.text ".0".toList ∧ w.IsProper ∧ x.IsShortest w := by
  by_cases hx : x.significand = 0
  · exact exists_written_zero hx
  · exact exists_written_nonzero hx

end Magnitude

end Stencil
