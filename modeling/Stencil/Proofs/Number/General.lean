import Stencil.Proofs.Number.Rounding

/-! # General notation

General notation is fixed or scientific notation, by the exponent that scientific notation shows. In
both the same digits are written, as the last of them is at the same place. This holds too where
rounding carries into one more digit and all that are written are zeros but the first.
-/

namespace Stencil

theorem roundHalfEven_mul (n d : Nat) {k : Nat} (hk : 0 < k) :
    roundHalfEven (n * k) (d * k) = roundHalfEven n d := by
  have hlt : 2 * (n % d * k) < d * k ↔ 2 * (n % d) < d := by
    rw [← Nat.mul_assoc, Nat.mul_lt_mul_right hk]
  have heq : 2 * (n % d * k) = d * k ↔ 2 * (n % d) = d := by
    rw [← Nat.mul_assoc, Nat.mul_left_inj hk.ne']
  simp only [roundHalfEven, Nat.mul_div_mul_right _ _ hk, Nat.mul_mod_mul_right, hlt, heq]

theorem roundHalfEven_congr {n d n' d' : Nat} (hd : 0 < d) (hd' : 0 < d')
    (h : n * d' = n' * d) : roundHalfEven n d = roundHalfEven n' d' := by
  calc roundHalfEven n d = roundHalfEven (n * d') (d * d') := (roundHalfEven_mul n d hd').symm
    _ = roundHalfEven (n' * d) (d' * d) := by rw [h, Nat.mul_comm d]
    _ = roundHalfEven n' d' := roundHalfEven_mul n' d' hd

/-- A number just below a multiple of ten is rounded to it with one place less too. -/
theorem roundHalfEven_of_carry {n d k : Nat} (hn : n < 10 * k * d)
    (h : roundHalfEven n d = 10 * k) : roundHalfEven n (d * 10) = k := by
  have hlt : n / d < 10 * k := Nat.div_lt_of_lt_mul (by rwa [Nat.mul_comm d])
  have hhalf : n / d + 1 = 10 * k ∧ d ≤ 2 * (n % d) := by
    unfold roundHalfEven at h
    dsimp only at h
    split at h <;> omega
  have hquotient : n / (d * 10) = n / d / 10 := (Nat.div_div_eq_div_mul n d 10).symm
  have hremainder : n % (d * 10) = n % d + d * (n / d % 10) := Nat.mod_mul
  have hnine : n / d % 10 = 9 := by omega
  have hup : ¬ (2 * (n % (d * 10)) < d * 10 ∨
      2 * (n % (d * 10)) = d * 10 ∧ n / (d * 10) % 2 = 0) := by
    have hd : d ≠ 0 := by
      rintro rfl
      exact Nat.not_lt_zero n hn
    rw [hremainder, hnine]
    omega
  rw [roundHalfEven, if_neg hup, hquotient]
  omega

namespace Scientific

variable {places : Nat} {y : Scientific places}

theorem splitAtPoint_of_neg (hlt : y.significand < 10 ^ (places + 1)) {k : Nat}
    (hexponent : y.exponent = -(k + 1)) :
    splitAtPoint y.digits y.exponent =
      ((natText y.significand).leftpad (places + k + 2) '0').splitAt 1 := by
  have hlength : (natText y.significand).length ≤ places + 1 :=
    (Nat.length_toDigits_le_iff (by decide) (Nat.succ_pos _)).mpr hlt
  have hzeros : places + k + 2 - (natText y.significand).length =
      k + 1 + (places + 1 - (natText y.significand).length) := by omega
  have hdigits : (natText y.significand).leftpad (places + k + 2) '0' =
      '0' :: (List.replicate k '0' ++ y.digits) := by
    rw [List.leftpad, hzeros, List.replicate_add, List.append_assoc]
    rfl
  have hneg : (-y.exponent - 1).toNat = k := by omega
  rw [splitAtPoint, if_pos (by omega), hdigits, hneg, List.splitAt_eq]
  rfl

theorem splitAtPoint_digits (hlt : y.significand < 10 ^ (places + 1))
    (hall : y.exponent = 0 ∨ 10 ^ places ≤ y.significand) (hle : y.exponent ≤ places) :
    let rest := (places - y.exponent).toNat
    let digits := (natText y.significand).leftpad (rest + 1) '0'
    splitAtPoint y.digits y.exponent = digits.splitAt (digits.length - rest) := by
  intro rest digits
  have hpadded := length_digits hlt
  have hlength : digits.length = max (rest + 1) (natText y.significand).length :=
    List.length_leftpad ..
  have hshort : (natText y.significand).length ≤ places + 1 :=
    (Nat.length_toDigits_le_iff (by decide) (Nat.succ_pos _)).mpr hlt
  rcases Int.lt_or_le y.exponent 0 with hneg | hnonneg
  · obtain ⟨k, hk⟩ : ∃ k : Nat, y.exponent = -(k + 1) := ⟨(-y.exponent - 1).toNat, by omega⟩
    have hrest : rest + 1 = places + k + 2 := by omega
    have hone : digits.length - rest = 1 := by omega
    rw [splitAtPoint_of_neg hlt hk, hone, ← hrest]
  · have hdigits : y.digits = digits := by
      change List.leftpad _ _ _ = List.leftpad _ _ _
      rcases hall with hzero | hall
      · have hrest : rest = places := by omega
        rw [hrest]
      · have hfull := lt_length_natText hall
        have hnone : places + 1 - (natText y.significand).length = 0 := by omega
        have hnone' : rest + 1 - (natText y.significand).length = 0 := by omega
        rw [List.leftpad, List.leftpad, hnone, hnone']
    have hwhole : digits.length - rest = y.exponent.toNat + 1 := by
      rw [← hdigits, hpadded]
      omega
    have hnone : y.exponent.toNat + 1 - y.digits.length = 0 := by omega
    rw [splitAtPoint, if_neg (Int.not_lt.mpr hnonneg), hwhole, ← hdigits, List.rightpad, hnone,
      List.replicate_zero, List.append_nil]

end Scientific

namespace Decimal

variable {x : Decimal} {places : Nat}

theorem significand_spec (x : Decimal) (places : Nat) :
    (x.toScientific places).exponent = 0 ∨ 10 ^ places ≤ (x.toScientific places).significand := by
  by_cases hx : x.coefficient = 0
  · rw [toScientific_zero hx]
    exact .inl rfl
  · exact .inr (toScientific_spec hx places).1

theorem toPlaces_eq_roundHalfEven {q k : Nat} (h : q + k = places + x.places) :
    x.toPlaces q = roundHalfEven (x.coefficient * 10 ^ places) (10 ^ k) := by
  have hpow (k : Nat) : 0 < 10 ^ k := Nat.pow_pos (by decide)
  apply roundHalfEven_congr (hpow _) (hpow _)
  rw [Nat.mul_assoc, Nat.mul_assoc, ← Nat.pow_add, ← Nat.pow_add, h]

theorem toPlaces_eq_significand (h : (x.toScientific places).exponent ≤ places) :
    x.toPlaces (places - (x.toScientific places).exponent).toNat =
      (x.toScientific places).significand := by
  by_cases hx : x.coefficient = 0
  · rw [toPlaces, hx, Nat.zero_mul, toScientific_zero hx]
    simp [roundHalfEven]
  obtain ⟨-, hlt, -⟩ := coefficient_bounds hx
  rw [toScientific, if_neg hx] at h ⊢
  split at h
  · -- The digits are one place longer than those of fixed notation, and the last is a zero.
    next hcarry =>
    rw [if_pos hcarry]
    dsimp only at h ⊢
    have hplaces : x.toPlaces (places - (x.size - 1 - x.places + 1 : ℤ)).toNat =
        roundHalfEven (x.coefficient * 10 ^ (places + 1)) (10 ^ (x.size + 1)) :=
      toPlaces_eq_roundHalfEven (by omega)
    rw [hplaces, Nat.pow_succ 10 x.size]
    apply roundHalfEven_of_carry
    · rw [← Nat.pow_succ', Nat.mul_comm]
      exact Nat.mul_lt_mul_of_pos_left hlt (Nat.pow_pos (by decide))
    · rw [hcarry, Nat.pow_succ']
  · next hcarry =>
    rw [if_neg hcarry]
    dsimp only at h ⊢
    exact toPlaces_eq_roundHalfEven (by omega)

end Decimal

/-- The zeros at the end of the fraction are dropped, and with the whole fraction the point, unless
they are to be kept. -/
def WrittenDecimal.trim (keepZeros : Bool) (w : WrittenDecimal) : WrittenDecimal :=
  let fraction := stripZeros w.fraction
  if keepZeros then w else { w with fraction, point := decide (fraction ≠ []) }

theorem WrittenDecimal.text_trim (keepZeros : Bool) (whole fraction : List Char)
    (exponent? : Option ℤ) : ((ofDigits keepZeros whole fraction exponent?).trim keepZeros).text =
      withPoint keepZeros whole (if keepZeros then fraction else stripZeros fraction) ++
        (exponent?.map Stencil.exponentText).getD [] := by
  rw [← text_ofDigits]
  cases keepZeros with
  | true => rfl
  | false => simp [trim, ofDigits]

/-- General notation is fixed or scientific notation without the zeros that it can do without. The
exponent that decides is the one that is shown, after rounding. -/
theorem Decimal.exists_written_generalText (x : Decimal) (precision : Nat) (keepZeros : Bool) :
    let places := precision - 1
    ∃ w : WrittenDecimal, w.text = x.scientificText keepZeros places ∧ w.IsProper ∧
      w.exponent?.isSome ∧
      if -4 ≤ w.exponent ∧ w.exponent ≤ places then
        ∃ u : WrittenDecimal, u.text = x.fixedText keepZeros (places - w.exponent).toNat ∧
          u.IsProper ∧ x.generalText keepZeros precision = (u.trim keepZeros).text
      else x.generalText keepZeros precision = (w.trim keepZeros).text := by
  intro places
  obtain ⟨d, fraction, hdigits, -, -⟩ := x.digits_toScientific places
  obtain ⟨htext, hproper⟩ := x.written_scientificText places keepZeros hdigits
  refine ⟨_, htext, hproper, rfl, ?_⟩
  rw [WrittenDecimal.exponent_ofDigits, Option.getD_some]
  split
  · next h =>
    obtain ⟨whole, rest, hsplit, hne, hleading, -, hisDigit, -⟩ :=
      x.exists_fixedDigits (places - (x.toScientific places).exponent).toNat
    obtain ⟨hwhole, hrest⟩ := List.forall_mem_append.mp hisDigit
    have hpoint : splitAtPoint (x.toScientific places).digits (x.toScientific places).exponent =
        (whole, rest) := by
      rw [← hsplit, Scientific.splitAtPoint_digits (x.significand_lt places)
        (x.significand_spec places) h.2, toPlaces_eq_significand h.2]
    refine ⟨.ofDigits keepZeros whole rest none, ?_,
      WrittenDecimal.isProper_ofDigits hne hwhole hleading hrest, ?_⟩
    · rw [WrittenDecimal.text_ofDigits, fixedText, hsplit]
      exact List.append_nil _
    · rw [WrittenDecimal.text_trim, generalText, if_pos h, hpoint]
      exact (List.append_nil _).symm
  · next h =>
    rw [WrittenDecimal.text_trim, generalText, if_neg h, hdigits, List.splitAt_eq]
    rfl

end Stencil
