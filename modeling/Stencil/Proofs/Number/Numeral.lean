import Mathlib.Data.List.Basic
import Mathlib.Data.List.Induction
import Stencil.Number

/-! # Reading numerals

The digits of a base are given in their order, and a digit stands for its place among them. A
numeral without superfluous zeros is the only one of its number, and zeros in front of a numeral
make no difference to its value.
-/

namespace Stencil

/-- The value of a row of digits, with the last one for the units. -/
def digitsValue? (digits s : List Char) : Option Nat :=
  s.foldlM (fun n c => (digits.idxOf? c).map (n * digits.length + ·)) 0

/-- The row of digits begins with a zero only if that is all. -/
structure IsNumeral (digits : List Char) (n : Nat) (s : List Char) : Prop where
  value : digitsValue? digits s = some n
  ne_nil : s ≠ []
  leading : ∀ c t, s = c :: t → digits.idxOf? c = some 0 → t = []

variable {digits s t : List Char} {n : Nat}

theorem digitsValue?_concat (digits s : List Char) (c : Char) : digitsValue? digits (s ++ [c]) =
    (digitsValue? digits s).bind fun n => (digits.idxOf? c).map (n * digits.length + ·) := by
  rw [digitsValue?, List.foldlM_append]
  simp [digitsValue?]

theorem digitsValue?_singleton (digits : List Char) (c : Char) :
    digitsValue? digits [c] = digits.idxOf? c := by
  simp [digitsValue?]

theorem digitsValue?_zeros {zero : Char} (hzero : digits.idxOf? zero = some 0) (k : Nat)
    (s : List Char) : digitsValue? digits (List.replicate k zero ++ s) = digitsValue? digits s := by
  induction k with
  | zero => rfl
  | succ k ih =>
    rw [← ih, List.replicate_succ, List.cons_append, digitsValue?, List.foldlM_cons, hzero]
    simp [digitsValue?]

theorem eq_of_idxOf? {c c' : Char} {i : Nat} (h : digits.idxOf? c = some i)
    (h' : digits.idxOf? c' = some i) : c = c' := by
  obtain ⟨hi, rfl, -⟩ := List.idxOf?_eq_some_iff.mp h
  obtain ⟨-, rfl, -⟩ := List.idxOf?_eq_some_iff.mp h'
  rfl

theorem digitsValue?_concat_eq_some {c : Char} (h : digitsValue? digits (s ++ [c]) = some n) :
    digitsValue? digits s = some (n / digits.length) ∧
      digits.idxOf? c = some (n % digits.length) := by
  rw [digitsValue?_concat] at h
  obtain ⟨m, hm, h⟩ := Option.bind_eq_some_iff.mp h
  obtain ⟨d, hd, rfl⟩ := Option.map_eq_some_iff.mp h
  obtain ⟨hlt, -⟩ := List.idxOf?_eq_some_iff.mp hd
  rw [hm, hd, Nat.mul_comm, Nat.mul_add_div (by omega), Nat.mul_add_mod, Nat.div_eq_of_lt hlt,
    Nat.mod_eq_of_lt hlt]
  exact ⟨rfl, rfl⟩

namespace IsNumeral

theorem init {c : Char} (h : IsNumeral digits n (s ++ [c])) (hs : s ≠ []) :
    IsNumeral digits (n / digits.length) s := by
  refine ⟨(digitsValue?_concat_eq_some h.value).1, hs, ?_⟩
  rintro d t rfl hd
  exact (List.append_ne_nil_of_right_ne_nil t (List.cons_ne_nil c []) (h.leading d _ rfl hd)).elim

theorem div_ne_zero {c : Char} (h : IsNumeral digits n (s ++ [c])) (hs : s ≠ []) :
    n / digits.length ≠ 0 := by
  induction s using List.reverseRecOn generalizing n c with
  | nil => exact (hs rfl).elim
  | append_singleton s d ih =>
    intro hn
    have hvalue := (h.init hs).value
    rw [hn] at hvalue
    by_cases hnil : s = []
    · subst hnil
      rw [List.nil_append, digitsValue?_singleton] at hvalue
      cases h.leading d [c] rfl hvalue
    · apply ih (h.init hs) hnil
      rw [hn, Nat.zero_div]

/-- A number has no other numeral. -/
theorem unique (h : IsNumeral digits n s) (h' : IsNumeral digits n t) : s = t := by
  induction s using List.reverseRecOn generalizing n t with
  | nil => exact (h.ne_nil rfl).elim
  | append_singleton s c ih =>
    cases t using List.reverseRecOn with
    | nil => exact (h'.ne_nil rfl).elim
    | append_singleton t c' _ =>
      obtain ⟨hs, hc⟩ := digitsValue?_concat_eq_some h.value
      obtain ⟨ht, hc'⟩ := digitsValue?_concat_eq_some h'.value
      rw [eq_of_idxOf? hc hc', List.append_cancel_right_eq]
      by_cases hsnil : s = []
      · subst hsnil
        by_contra htnil
        exact h'.div_ne_zero (Ne.symm htnil) (Option.some.inj hs).symm
      · by_cases htnil : t = []
        · subst htnil
          exact (h.div_ne_zero hsnil (Option.some.inj ht).symm).elim
        · exact ih (h.init hsnil) (h'.init htnil)

theorem map_toDigits (glyph : Char → Char) (hbase : 1 < digits.length)
    (hglyph : ∀ d < digits.length, digits.idxOf? (glyph d.digitChar) = some d) (n : Nat) :
    IsNumeral digits n ((Nat.toDigits digits.length n).map glyph) := by
  induction n using Nat.strongRecOn with
  | ind n ih =>
    rcases Nat.lt_or_ge n digits.length with hlt | hge
    · rw [Nat.toDigits_of_lt_base hlt]
      refine ⟨?_, by simp, ?_⟩
      · rw [List.map_singleton, digitsValue?_singleton, hglyph n hlt]
      · rintro c t ⟨⟩ -
        rfl
    · have hdiv : 0 < n / digits.length := Nat.div_pos hge (by omega)
      have hrest := ih (n / digits.length) (Nat.div_lt_self (by omega) hbase)
      have hlast := hglyph (n % digits.length) (Nat.mod_lt n (by omega))
      rw [Nat.toDigits_of_base_le hbase hge, List.map_append]
      generalize (Nat.toDigits digits.length (n / digits.length)).map glyph = s at hrest
      refine ⟨?_, by simp, ?_⟩
      · rw [List.map_singleton, digitsValue?_concat, hrest.value]
        simp [hlast, Nat.div_add_mod']
      · intro c t hs hc
        cases s with
        | nil => exact (hrest.ne_nil rfl).elim
        | cons d s =>
          cases hs
          obtain rfl := hrest.leading c s rfl hc
          have hzero := hrest.value
          rw [digitsValue?_singleton, hc] at hzero
          exact (Nat.ne_of_lt hdiv (Option.some.inj hzero)).elim

end IsNumeral

def splitSign : List Char → Bool × List Char
  | '-' :: s => (true, s)
  | '+' :: s | ' ' :: s => (false, s)
  | s => (false, s)

/-- The integer whose sign, mark of a base and digits are the text. Zeros can stand in front of the
digits, but there is a digit in any case. -/
def readInteger? (digits mark s : List Char) : Option Int := do
  let (negative, rest) := splitSign s
  let row ← rest.dropPrefix? mark
  if row = [] then none
  else
    let n ← digitsValue? digits row
    return if negative then -n else n

theorem mem_of_digitsValue? (h : digitsValue? digits s = some n) : ∀ c ∈ s, c ∈ digits := by
  induction s using List.reverseRecOn generalizing n with
  | nil => exact fun c hc => (List.not_mem_nil hc).elim
  | append_singleton s c ih =>
    obtain ⟨hs, hc⟩ := digitsValue?_concat_eq_some h
    have hmem : c ∈ digits := List.isSome_idxOf?.mp (by rw [hc]; rfl)
    exact List.forall_mem_append.mpr ⟨ih hs, List.forall_mem_singleton.mpr hmem⟩

theorem splitSign_shown (sign : Sign) (negative : Bool)
    (h : ∀ c ∈ s.head?, c ∉ "+- ".toList) :
    splitSign (sign.shown negative ++ s) = (negative, s) := by
  have hs : splitSign s = (false, s) := by
    unfold splitSign
    split
    · exact (h '-' rfl (by decide)).elim
    · exact (h '+' rfl (by decide)).elim
    · exact (h ' ' rfl (by decide)).elim
    · rfl
  cases negative with
  | true => rfl
  | false =>
    cases sign with
    | plus | space => rfl
    | unset | minus => exact hs

theorem readInteger?_shown (sign : Sign) {mark row : List Char} {n : Int}
    (hmark : ∀ c ∈ mark ++ digits, c ∉ "+- ".toList) (hne : row ≠ [])
    (hrow : digitsValue? digits row = some n.natAbs) :
    readInteger? digits mark (sign.shown (n < 0) ++ (mark ++ row)) = some n := by
  have hhead : ∀ c ∈ (mark ++ row).head?, c ∉ "+- ".toList := by
    intro c hc
    rcases List.mem_append.mp (List.mem_of_mem_head? hc) with hc | hc
    · exact hmark c (List.mem_append_left _ hc)
    · exact hmark c (List.mem_append_right _ (mem_of_digitsValue? hrow c hc))
  have hvalue : (if n < 0 then -(n.natAbs : Int) else n.natAbs) = n := by
    split <;> omega
  rw [readInteger?, splitSign_shown sign _ hhead]
  simp only [List.dropPrefix?_append_of_beq row (beq_self_eq_true mark), Option.bind_eq_bind,
    Option.bind_some, if_neg hne, hrow, decide_eq_true_eq, Option.pure_def, hvalue]

end Stencil
