import Mathlib.Data.List.DropRight
import Mathlib.Tactic.Ring
import Stencil.Decimal.Shortest
import Stencil.Proofs.Number.Written

/-! # Significant digits

Zeros at both ends of the digits of a number say where the point stands. The digits between them are
the significant ones, and they are the same however the number is written.
-/

namespace Stencil

/-- A row of digits, of which neither the first nor the last is a zero. -/
structure IsSignificant (s : List Char) : Prop where
  ne_nil : s ≠ []
  isDigit : ∀ c ∈ s, c.isDigit = true
  head : s.head? ≠ some '0'
  last : stripZeros s = s

def WrittenDecimal.significant (w : WrittenDecimal) : List Char :=
  stripZeros ((w.whole ++ w.fraction).dropWhile (· == '0'))

theorem stripZeros_append_replicate (s : List Char) (k : Nat) :
    stripZeros (s ++ List.replicate k '0') = stripZeros s := by
  induction k with
  | zero => rw [List.replicate_zero, List.append_nil]
  | succ k ih =>
    rw [List.replicate_succ', ← List.append_assoc, ← ih]
    exact List.rdropWhile_concat_pos _ _ _ rfl

theorem exists_eq_stripZeros_append (s : List Char) :
    ∃ k, s = stripZeros s ++ List.replicate k '0' := by
  refine ⟨(s.rtakeWhile (· == '0')).length, ?_⟩
  rw [← List.eq_replicate_iff.mpr ⟨rfl, fun c hc => ?_⟩]
  · exact List.rdropWhile_append_rtakeWhile.symm
  · exact beq_iff_eq.mp (List.mem_rtakeWhile_imp (p := (· == '0')) hc)

theorem length_stripZeros_le (s : List Char) : (stripZeros s).length ≤ s.length :=
  (List.rdropWhile_prefix _ _).length_le

theorem ofDigitChars_append_replicate (s : List Char) (k : Nat) :
    Nat.ofDigitChars 10 (s ++ List.replicate k '0') 0 = 10 ^ k * Nat.ofDigitChars 10 s 0 := by
  rw [Nat.ofDigitChars_append, Nat.ofDigitChars_replicate_zero]

theorem ofDigitChars_replicate_append (s : List Char) (k : Nat) :
    Nat.ofDigitChars 10 (List.replicate k '0' ++ s) 0 = Nat.ofDigitChars 10 s 0 := by
  rw [Nat.ofDigitChars_append, Nat.ofDigitChars_replicate_zero, Nat.mul_zero]

theorem ofDigitChars_natText (n : Nat) : Nat.ofDigitChars 10 (natText n) 0 = n :=
  Nat.ofDigitChars_ten_toDigits

/-- A number is its significant digits and as many zeros as its digits end with. -/
theorem exists_eq_pow_mul_stripZeros (n : Nat) :
    ∃ k, (natText n).length = (stripZeros (natText n)).length + k ∧
      n = 10 ^ k * Nat.ofDigitChars 10 (stripZeros (natText n)) 0 := by
  obtain ⟨k, hk⟩ := exists_eq_stripZeros_append (natText n)
  refine ⟨k, ?_, ?_⟩
  · have hlength := congrArg List.length hk
    rwa [List.length_append, List.length_replicate] at hlength
  · rw [← ofDigitChars_append_replicate, ← hk, ofDigitChars_natText]

theorem natText_ten_mul {n : Nat} (hn : 0 < n) : natText (10 * n) = natText n ++ ['0'] := by
  have happend := Nat.toDigits_append_toDigits (b := 10) (d := 0) (by decide) hn (by decide)
  exact happend.symm

theorem stripZeros_natText_pow (k : Nat) : stripZeros (natText (10 ^ k)) = ['1'] := by
  induction k with
  | zero => decide
  | succ k ih =>
    rw [Nat.pow_succ', natText_ten_mul (Nat.pow_pos (by decide)), ← ih]
    exact stripZeros_append_replicate _ 1

theorem length_stripZeros_natText_le {n k : Nat} (hk : 0 < k) (h : n ≤ 10 ^ k) :
    (stripZeros (natText n)).length ≤ k := by
  rcases Nat.lt_or_eq_of_le h with hlt | rfl
  · exact (length_stripZeros_le _).trans ((Nat.length_toDigits_le_iff (by decide) hk).mpr hlt)
  · rw [stripZeros_natText_pow]
    exact hk

namespace IsSignificant

variable {s : List Char}

theorem stripZeros_natText {n : Nat} (hn : n ≠ 0) : IsSignificant (stripZeros (natText n)) := by
  obtain ⟨k, hk⟩ := exists_eq_stripZeros_append (natText n)
  have hvalue := ofDigitChars_natText n
  refine ⟨?_, ?_, ?_, List.rdropWhile_idempotent _ _⟩
  · intro hnil
    rw [hk, ofDigitChars_append_replicate, hnil, Nat.ofDigitChars_nil, Nat.mul_zero] at hvalue
    exact hn hvalue.symm
  · intro c hc
    exact isDigit_natText n c ((List.rdropWhile_prefix _ _).subset hc)
  · intro hhead
    obtain ⟨t, ht⟩ := List.head?_eq_some_iff.mp hhead
    rw [ht, List.cons_append] at hk
    have hnil := noLeadingZero_natText n _ hk
    rw [hk, hnil] at hvalue
    exact hn hvalue.symm

theorem bounds (h : IsSignificant s) :
    10 ^ (s.length - 1) ≤ Nat.ofDigitChars 10 s 0 ∧ Nat.ofDigitChars 10 s 0 < 10 ^ s.length := by
  refine ⟨?_, ofDigitChars_lt h.isDigit⟩
  obtain ⟨c, t, rfl⟩ := List.exists_cons_of_ne_nil h.ne_nil
  have hc : 1 ≤ c.toNat - '0'.toNat := by
    have hge : 48 ≤ c.toNat := (Char.isDigit_iff_toNat.mp (h.isDigit c (List.mem_cons_self ..))).1
    have hne : c.toNat ≠ '0'.toNat := fun heq => h.head (by rw [Char.toNat_inj.mp heq]; rfl)
    exact Nat.le_sub_of_add_le (Nat.lt_of_le_of_ne hge hne.symm)
  rw [Nat.ofDigitChars_cons, Nat.ofDigitChars_eq_ofDigitChars_zero, List.length_cons,
    Nat.add_sub_cancel, Nat.mul_zero, Nat.zero_add]
  exact Nat.le_trans (Nat.le_mul_of_pos_right _ hc) (Nat.le_add_right _ _)

theorem zpow_bounds (h : IsSignificant s) (exponent : ℤ) :
    let v : ℚ := Nat.ofDigitChars 10 s 0 * (10 : ℚ) ^ (exponent - (s.length - 1))
    (10 : ℚ) ^ exponent ≤ v ∧ v < (10 : ℚ) ^ (exponent + 1) := by
  intro v
  obtain ⟨hlow, hhigh⟩ := h.bounds
  have hlength : 1 ≤ s.length := List.length_pos_iff.mpr h.ne_nil
  have hunit : (0 : ℚ) < 10 ^ (exponent - (s.length - 1)) := zpow_pos (by norm_num) _
  have hpow (k : ℕ) : (10 : ℚ) ^ (k + (exponent - (s.length - 1))) =
      (10 ^ k : ℕ) * 10 ^ (exponent - (s.length - 1)) := by
    rw [zpow_add₀ (by norm_num), zpow_natCast, Nat.cast_pow, Nat.cast_ofNat]
  have hfirst : exponent = (s.length - 1 : ℕ) + (exponent - (s.length - 1)) := by omega
  have hnext : exponent + 1 = s.length + (exponent - (s.length - 1)) := by omega
  constructor
  · rw [hfirst, hpow]
    exact mul_le_mul_of_nonneg_right (by exact_mod_cast hlow) hunit.le
  · rw [hnext, hpow]
    exact mul_lt_mul_of_pos_right (by exact_mod_cast hhigh) hunit

theorem significant_eq (h : IsSignificant s) {w : WrittenDecimal} {j k : Nat}
    (hw : w.whole ++ w.fraction = List.replicate j '0' ++ (s ++ List.replicate k '0')) :
    w.significant = s := by
  have hdrop : (s ++ List.replicate k '0').dropWhile (· == '0') = s ++ List.replicate k '0' := by
    obtain ⟨c, t, rfl⟩ := List.exists_cons_of_ne_nil h.ne_nil
    have hc : (c == '0') = false := beq_false_of_ne fun hc => h.head (by rw [hc]; rfl)
    rw [List.cons_append, List.dropWhile_cons_of_neg (by rw [hc]; exact Bool.false_ne_true)]
  have hzeros : ∀ c ∈ List.replicate j '0', (c == '0') = true := fun c hc =>
    beq_iff_eq.mpr (List.eq_of_mem_replicate hc)
  rw [WrittenDecimal.significant, hw, List.dropWhile_append_of_pos hzeros, hdrop,
    stripZeros_append_replicate, h.last]

end IsSignificant

/-- The decimal has these digits, and the first one has the weight `10 ^ exponent`. -/
structure WrittenDecimal.Shows (w : WrittenDecimal) (s : List Char) (exponent : ℤ) : Prop where
  proper : w.IsProper
  significant : w.significant = s
  value : w.value = Nat.ofDigitChars 10 s 0 * (10 : ℚ) ^ (exponent - (s.length - 1))

namespace IsSignificant

variable {s whole fraction : List Char} {exponent : ℤ} {exponent? : Option ℤ} {keepPoint : Bool}

theorem shows (h : IsSignificant s) {j k : Nat} (hne : whole ≠ []) (hleading : NoLeadingZero whole)
    (hdigits : whole ++ fraction = List.replicate j '0' ++ (s ++ List.replicate k '0'))
    (hexponent : exponent?.getD 0 - fraction.length + k = exponent - (s.length - 1)) :
    (WrittenDecimal.ofDigits keepPoint whole fraction exponent?).Shows s exponent := by
  have hzeros (k : Nat) : ∀ c ∈ List.replicate k '0', c.isDigit = true := fun c hc => by
    rw [List.eq_of_mem_replicate hc]
    rfl
  have hisDigit : ∀ c ∈ whole ++ fraction, c.isDigit = true := by
    rw [hdigits]
    exact List.forall_mem_append.mpr
      ⟨hzeros j, List.forall_mem_append.mpr ⟨h.isDigit, hzeros k⟩⟩
  obtain ⟨hwhole, hfraction⟩ := List.forall_mem_append.mp hisDigit
  refine ⟨WrittenDecimal.isProper_ofDigits hne hwhole hleading hfraction, h.significant_eq hdigits,
    ?_⟩
  rw [WrittenDecimal.value_ofDigits rfl rfl, hdigits, ofDigitChars_replicate_append,
    ofDigitChars_append_replicate, ← hexponent, zpow_add₀ (by norm_num), zpow_natCast]
  push_cast
  ring

theorem noLeadingZero_take (h : IsSignificant s) (rest : List Char) (k : Nat) :
    NoLeadingZero ((s ++ rest).take k) := by
  obtain ⟨c, t, rfl⟩ := List.exists_cons_of_ne_nil h.ne_nil
  intro t' ht
  cases k with
  | zero => cases ht
  | succ k =>
    obtain ⟨rfl, -⟩ := List.cons.inj ht
    exact absurd rfl h.head

theorem exists_written_splitAtPoint (h : IsSignificant s)
    (hsplit : splitAtPoint s exponent = (whole, fraction)) :
    ∃ w : WrittenDecimal, w.text =
        (if fraction = [] then whole ++ ".0".toList else withPoint false whole fraction) ∧
      w.exponent? = none ∧ w.Shows s exponent := by
  unfold splitAtPoint at hsplit
  split at hsplit
  · next hneg =>
    obtain ⟨rfl, rfl⟩ := Prod.mk.inj hsplit
    rw [if_neg (List.append_ne_nil_of_right_ne_nil _ h.ne_nil)]
    refine ⟨.ofDigits false ['0'] (List.replicate (-exponent - 1).toNat '0' ++ s) none, ?_, rfl, ?_⟩
    · rw [WrittenDecimal.text_ofDigits]
      exact List.append_nil _
    · apply h.shows (j := (-exponent - 1).toNat + 1) (k := 0) (List.cons_ne_nil '0' [])
        (noLeadingZero_of_length_le (Nat.le_refl _))
      · rw [List.replicate_zero, List.append_nil]
        rfl
      · rw [Option.getD_none, List.length_append, List.length_replicate]
        omega
  · next hnonneg =>
    obtain ⟨e, rfl⟩ := Int.eq_ofNat_of_zero_le (Int.not_lt.mp hnonneg)
    rw [Int.toNat_natCast, List.rightpad, List.splitAt_eq] at hsplit
    obtain ⟨rfl, rfl⟩ := Prod.mk.inj hsplit
    generalize hpadding : e + 1 - s.length = padding
    have hleading := h.noLeadingZero_take (List.replicate padding '0') (e + 1)
    have hlength : (s ++ List.replicate padding '0').length = s.length + padding := by
      rw [List.length_append, List.length_replicate]
    have hne : (s ++ List.replicate padding '0').take (e + 1) ≠ [] := by
      rw [← List.length_pos_iff, List.length_take, hlength]
      omega
    have hjoin := List.take_append_drop (e + 1) (s ++ List.replicate padding '0')
    split
    · next hnil =>
      rw [hnil, List.append_nil] at hjoin
      rw [List.drop_eq_nil_iff, hlength] at hnil
      refine ⟨.ofDigits true _ ['0'] none, ?_, rfl,
        h.shows (j := 0) (k := padding + 1) hne hleading ?_ ?_⟩
      · rw [WrittenDecimal.text_ofDigits]
        exact List.append_nil _
      · rw [hjoin, List.replicate_succ', List.append_assoc]
        rfl
      · rw [Option.getD_none, List.length_singleton]
        omega
    · next hsome =>
      rw [List.drop_eq_nil_iff, hlength, Nat.not_le] at hsome
      refine ⟨.ofDigits false _ _ none, ?_, rfl,
        h.shows (j := 0) (k := padding) hne hleading hjoin ?_⟩
      · rw [WrittenDecimal.text_ofDigits]
        exact List.append_nil _
      · rw [Option.getD_none, List.length_drop, hlength]
        omega

theorem exists_written_shortestText (h : IsSignificant s) (exponent : ℤ) :
    ∃ w : WrittenDecimal, w.text = shortestText ".0".toList s exponent ∧ w.Shows s exponent ∧
      (w.exponent?.isSome ↔ exponent < -4 ∨ 16 ≤ exponent) := by
  unfold shortestText
  split
  · next hrange =>
    rcases hsplit : splitAtPoint s exponent with ⟨whole, fraction⟩
    obtain ⟨w, htext, hnone, hshows⟩ := h.exists_written_splitAtPoint hsplit
    refine ⟨w, htext, hshows, iff_of_false ?_ (by omega)⟩
    rw [hnone]
    exact Bool.false_ne_true
  · next hrange =>
    obtain ⟨d, rest, rfl⟩ := List.exists_cons_of_ne_nil h.ne_nil
    refine ⟨.ofDigits false [d] rest (some exponent), ?_, ?_, iff_of_true rfl (by omega)⟩
    · rw [WrittenDecimal.text_ofDigits, List.splitAt_eq]
      rfl
    · apply h.shows (j := 0) (k := 0) (List.cons_ne_nil d [])
        (noLeadingZero_of_length_le (Nat.le_refl _))
      · rw [List.replicate_zero, List.append_nil]
        rfl
      · rw [Option.getD_some, List.length_cons]
        omega

end IsSignificant

end Stencil
