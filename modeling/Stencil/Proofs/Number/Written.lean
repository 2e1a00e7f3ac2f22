import Mathlib.Data.Rat.Cast.Order
import Mathlib.Tactic.FinCases
import Stencil.Proofs.Field.Parts
import Stencil.Proofs.Number.Numeral

/-! # Reading decimals

A decimal is written as digits, perhaps a point and further digits, and perhaps an exponent. It is
read back from its text, from which a sign is taken off and zeros in front that the number can do
without.
-/

namespace Stencil

/-- A decimal as it is written, apart from its sign. -/
structure WrittenDecimal where
  whole : List Char
  point : Bool
  fraction : List Char
  /-- Whether the exponent has a minus, and its digits. -/
  exponent? : Option (Bool × List Char)
  deriving DecidableEq

def trimZeros : List Char → List Char
  | '0' :: c :: s => trimZeros (c :: s)
  | s => s

def NoLeadingZero (s : List Char) : Prop := ∀ t, s = '0' :: t → t = []

namespace WrittenDecimal

def exponent (w : WrittenDecimal) : ℤ :=
  match w.exponent? with
  | none => 0
  | some (true, digits) => -(Nat.ofDigitChars 10 digits 0 : ℕ)
  | some (false, digits) => (Nat.ofDigitChars 10 digits 0 : ℕ)

def value (w : WrittenDecimal) : ℚ :=
  Nat.ofDigitChars 10 (w.whole ++ w.fraction) 0 * (10 : ℚ) ^ (w.exponent - w.fraction.length)

def exponentPart (w : WrittenDecimal) : List Char :=
  match w.exponent? with
  | none => []
  | some (negative, digits) => 'e' :: (if negative then '-' else '+') :: digits

def text (w : WrittenDecimal) : List Char :=
  w.whole ++ ((if w.point then '.' :: w.fraction else []) ++ w.exponentPart)

/-- There are digits wherever digits are wanted, and the point stands before a fraction. -/
structure IsProper (w : WrittenDecimal) : Prop where
  ne_nil : w.whole ≠ []
  whole : ∀ c ∈ w.whole, c.isDigit = true
  leading : NoLeadingZero w.whole
  point : w.fraction ≠ [] → w.point = true
  fraction : ∀ c ∈ w.fraction, c.isDigit = true
  exponent : ∀ e ∈ w.exponent?, e.2 ≠ [] ∧ ∀ c ∈ e.2, c.isDigit = true

end WrittenDecimal

def readPoint : List Char → Bool × List Char
  | '.' :: s => (true, s)
  | s => (false, s)

def readExponent? : List Char → Option (Option (Bool × List Char))
  | [] => some none
  | 'e' :: s =>
    let (negative, digits) := splitSign s
    if digits ≠ [] ∧ ∀ c ∈ digits, c.isDigit = true then some (some (negative, digits)) else none
  | _ => none

/-- Whether the decimal has a minus, and what is written after the sign and the zeros in front. -/
def readDecimal? (s : List Char) : Option (Bool × WrittenDecimal) := do
  let (negative, rest) := splitSign s
  let whole := rest.takeWhile Char.isDigit
  let (point, rest) := readPoint (rest.dropWhile Char.isDigit)
  let exponent? ← readExponent? (rest.dropWhile Char.isDigit)
  if whole = [] then none
  else return (negative, ⟨trimZeros whole, point, rest.takeWhile Char.isDigit, exponent?⟩)

theorem trimZeros_replicate {s : List Char} (hs : s ≠ []) (k : Nat) :
    trimZeros (List.replicate k '0' ++ s) = trimZeros s := by
  induction k with
  | zero => rfl
  | succ k ih =>
    rw [List.replicate_succ, List.cons_append, ← ih]
    cases h : List.replicate k '0' ++ s with
    | nil => exact absurd (List.append_eq_nil_iff.mp h).2 hs
    | cons c t => rfl

theorem NoLeadingZero.trimZeros_eq {s : List Char} (h : NoLeadingZero s) : trimZeros s = s := by
  rw [trimZeros]
  rintro c t rfl
  cases h _ rfl

theorem NoLeadingZero.take {s : List Char} (h : NoLeadingZero s) (k : Nat) :
    NoLeadingZero (s.take k) := by
  intro t ht
  cases s with
  | nil => simp at ht
  | cons c s =>
    cases k with
    | zero => cases ht
    | succ k =>
      obtain ⟨rfl, rfl⟩ := List.cons.inj ht
      rw [h s rfl, List.take_nil]

theorem noLeadingZero_of_length_le {s : List Char} (h : s.length ≤ 1) : NoLeadingZero s := by
  rintro t rfl
  exact List.eq_nil_of_length_eq_zero (Nat.le_zero.mp (Nat.le_of_succ_le_succ h))

theorem ofDigitChars_lt {s : List Char} (h : ∀ c ∈ s, c.isDigit = true) :
    Nat.ofDigitChars 10 s 0 < 10 ^ s.length := by
  induction s with
  | nil => exact Nat.one_pos
  | cons c s ih =>
    obtain ⟨hc, hs⟩ := List.forall_mem_cons.mp h
    have hdigit : c.toNat - '0'.toNat ≤ 9 := by
      have hle : c.toNat ≤ 57 := (Char.isDigit_iff_toNat.mp hc).2
      exact Nat.sub_le_of_le_add hle
    rw [Nat.ofDigitChars_cons, Nat.mul_zero, Nat.zero_add, Nat.ofDigitChars_eq_ofDigitChars_zero,
      List.length_cons, Nat.pow_succ]
    have hle := Nat.mul_le_mul_left (10 ^ s.length) hdigit
    have hlt := ih hs
    omega

theorem isDigit_natText (n : Nat) : ∀ c ∈ natText n, c.isDigit = true :=
  fun _ hc => Nat.isDigit_of_mem_toDigits (by decide) (by decide) hc

theorem noLeadingZero_natText (n : Nat) : NoLeadingZero (natText n) := by
  have hnumeral : IsNumeral "0123456789".toList n ((natText n).map id) :=
    .map_toDigits id (by decide) (by decide) n
  rw [List.map_id] at hnumeral
  exact fun t ht => hnumeral.leading '0' t ht rfl

theorem isDigit_leftpad_natText (n k : Nat) : ∀ c ∈ (natText n).leftpad k '0', c.isDigit = true := by
  refine List.forall_mem_append.mpr ⟨fun c hc => ?_, isDigit_natText n⟩
  rw [List.eq_of_mem_replicate hc]
  rfl

theorem ofDigitChars_leftpad_natText (n k : Nat) :
    Nat.ofDigitChars 10 ((natText n).leftpad k '0') 0 = n := by
  rw [List.leftpad, Nat.ofDigitChars_append, Nat.ofDigitChars_replicate_zero, Nat.mul_zero, natText,
    Nat.ofDigitChars_ten_toDigits]

theorem lt_length_natText {n k : Nat} (h : 10 ^ k ≤ n) : k < (natText n).length := by
  rcases Nat.eq_zero_or_pos k with rfl | hk
  · exact Nat.length_toDigits_pos
  · rw [← Nat.not_le, natText, Nat.length_toDigits_le_iff (by decide) hk, Nat.not_lt]
    exact h

theorem natText_bounds {n : Nat} (hn : n ≠ 0) :
    10 ^ ((natText n).length - 1) ≤ n ∧ n < 10 ^ (natText n).length := by
  have hpos : 0 < (natText n).length := Nat.length_toDigits_pos
  refine ⟨?_, (Nat.length_toDigits_le_iff (by decide) hpos).mp (Nat.le_refl _)⟩
  by_contra hlt
  rw [Nat.not_le] at hlt
  rcases Nat.eq_zero_or_pos ((natText n).length - 1) with hzero | hlength
  · rw [hzero, Nat.pow_zero, Nat.lt_one_iff] at hlt
    exact hn hlt
  · have hle := (Nat.length_toDigits_le_iff (by decide) hlength).mpr hlt
    exact absurd hle (Nat.not_le.mpr (Nat.sub_one_lt hpos.ne'))

namespace WrittenDecimal

variable {w : WrittenDecimal}

theorem avoids_exponentPart (w : WrittenDecimal) :
    Avoids (fun c => c.isDigit = true ∨ c = '.') w.exponentPart := by
  unfold exponentPart
  split
  · exact nofun
  · exact avoids_cons.mpr (by decide)

theorem readExponent?_exponentPart (h : w.IsProper) :
    readExponent? w.exponentPart = some w.exponent? := by
  have hexponent := h.exponent
  unfold exponentPart
  split
  · next he => rw [he]; rfl
  · next negative digits he =>
    rw [he] at hexponent ⊢
    have hdigits := hexponent (negative, digits) rfl
    cases negative <;> exact if_pos hdigits

theorem readPoint_text (h : w.IsProper) :
    let rest := (if w.point then '.' :: w.fraction else []) ++ w.exponentPart
    Avoids (fun c => c.isDigit = true) rest ∧
      readPoint rest = (w.point, w.fraction ++ w.exponentPart) := by
  intro rest
  cases hpoint : w.point with
  | true =>
    have hrest : rest = '.' :: (w.fraction ++ w.exponentPart) := by simp [rest, hpoint]
    rw [hrest]
    exact ⟨avoids_cons.mpr (by decide), rfl⟩
  | false =>
    have hfraction : w.fraction = [] := by
      by_contra hne
      rw [h.point hne] at hpoint
      cases hpoint
    have hrest : rest = w.exponentPart := by simp [rest, hpoint]
    have havoids := w.avoids_exponentPart
    rw [hrest, hfraction]
    refine ⟨havoids.mono fun c => .inl, ?_⟩
    unfold readPoint
    split
    · next hdot =>
      rw [hdot] at havoids
      exact absurd (.inr rfl) (avoids_cons.mp havoids)
    · rfl

/-- With any sign, and with any number of zeros after it, the text is read as the decimal. -/
theorem readDecimal?_text (h : w.IsProper) (sign : Sign) (negative : Bool) (zeros : Nat) :
    readDecimal? (sign.shown negative ++ (List.replicate zeros '0' ++ w.text)) =
      some (negative, w) := by
  have hdigits : ∀ c ∈ List.replicate zeros '0' ++ w.whole, c.isDigit = true := by
    refine List.forall_mem_append.mpr ⟨fun c hc => ?_, h.whole⟩
    rw [List.eq_of_mem_replicate hc]
    rfl
  have hne : List.replicate zeros '0' ++ w.whole ≠ [] :=
    List.append_ne_nil_of_right_ne_nil _ h.ne_nil
  obtain ⟨havoids, hpoint⟩ := readPoint_text h
  generalize hrest : (if w.point then '.' :: w.fraction else []) ++ w.exponentPart = rest at *
  obtain ⟨htake, hdrop⟩ := Reader.digits_append hdigits havoids
  obtain ⟨hfractionTake, hfractionDrop⟩ :=
    Reader.digits_append h.fraction (w.avoids_exponentPart.mono fun c => .inl)
  have hsign : ∀ c ∈ (List.replicate zeros '0' ++ w.whole ++ rest).head?, c ∉ "+- ".toList := by
    intro c hc
    rw [List.head?_append_of_ne_nil _ hne] at hc
    have hdigit := hdigits c (List.mem_of_mem_head? hc)
    intro hmem
    fin_cases hmem <;> exact absurd hdigit (by decide)
  rw [text, hrest, ← List.append_assoc (List.replicate zeros '0'), readDecimal?,
    splitSign_shown sign negative hsign]
  simp only [htake, hdrop, hpoint, hfractionTake, hfractionDrop, readExponent?_exponentPart h,
    Option.bind_eq_bind, Option.bind_some, if_neg hne, trimZeros_replicate h.ne_nil,
    h.leading.trimZeros_eq]
  rfl

end WrittenDecimal

/-- The point is there if it is kept or a fraction follows it. -/
def WrittenDecimal.ofDigits (keepPoint : Bool) (whole fraction : List Char) (exponent? : Option ℤ) :
    WrittenDecimal where
  whole := whole
  point := decide (fraction ≠ [] ∨ keepPoint)
  fraction := fraction
  exponent? := exponent?.map fun e => (decide (e < 0), (natText e.natAbs).leftpad 2 '0')

namespace WrittenDecimal

variable {keepPoint : Bool} {whole fraction : List Char} {exponent? : Option ℤ}

theorem isProper_ofDigits (hne : whole ≠ []) (hwhole : ∀ c ∈ whole, c.isDigit = true)
    (hleading : NoLeadingZero whole) (hfraction : ∀ c ∈ fraction, c.isDigit = true) :
    (ofDigits keepPoint whole fraction exponent?).IsProper := by
  refine ⟨hne, hwhole, hleading, fun h => decide_eq_true (.inl h), hfraction, ?_⟩
  intro e he
  obtain ⟨n, -, rfl⟩ := Option.map_eq_some_iff.mp he
  exact ⟨List.append_ne_nil_of_right_ne_nil _ Nat.toDigits_ne_nil, isDigit_leftpad_natText _ _⟩

theorem text_ofDigits : (ofDigits keepPoint whole fraction exponent?).text =
    withPoint keepPoint whole fraction ++ (exponent?.map Stencil.exponentText).getD [] := by
  have hpoint : whole ++ (if decide (fraction ≠ [] ∨ keepPoint) then '.' :: fraction else []) =
      withPoint keepPoint whole fraction := by
    unfold withPoint
    by_cases hfraction : fraction = [] <;> cases keepPoint <;> simp [hfraction]
  have hexponent : (ofDigits keepPoint whole fraction exponent?).exponentPart =
      (exponent?.map Stencil.exponentText).getD [] := by
    cases exponent? with
    | none => rfl
    | some e => by_cases he : e < 0 <;> simp [ofDigits, exponentPart, Stencil.exponentText, he]
  rw [← hpoint, ← hexponent, text, List.append_assoc]
  rfl

theorem exponent_ofDigits :
    (ofDigits keepPoint whole fraction exponent?).exponent = exponent?.getD 0 := by
  cases exponent? with
  | none => rfl
  | some e =>
    have hvalue := ofDigitChars_leftpad_natText e.natAbs 2
    by_cases he : e < 0
    · simp only [exponent, ofDigits, Option.map_some, decide_eq_true he, hvalue, Option.getD_some]
      omega
    · simp only [exponent, ofDigits, Option.map_some, decide_eq_false he, hvalue, Option.getD_some]
      omega

theorem value_ofDigits {n places : Nat} (hn : Nat.ofDigitChars 10 (whole ++ fraction) 0 = n)
    (h : fraction.length = places) : (ofDigits keepPoint whole fraction exponent?).value =
      n * (10 : ℚ) ^ (exponent?.getD 0 - places) := by
  rw [value, exponent_ofDigits, ← hn, ← h]
  rfl

theorem point_ofDigits_iff {places : Nat} (h : fraction.length = places) :
    (ofDigits keepPoint whole fraction exponent?).point ↔ 0 < places ∨ keepPoint := by
  rw [ofDigits, decide_eq_true_eq, ← List.length_pos_iff, h]

end WrittenDecimal

end Stencil
