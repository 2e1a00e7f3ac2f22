import Stencil.Failure
import Stencil.Spec

/-! # Reading a field

Each part of a field is read off the front of a text, and what is left goes to the next part. A fill
is recognised only by the alignment after it, and a zero in front of the width is always the flag.
What is left is a suffix of the text, and a proper one after a whole field.
-/

namespace Stencil

/-- Why no field could be read: something else was wanted in front of the rest, or a run of digits
is longer than the limit allows. -/
inductive Fault
  | unexpected (wanted : Wanted) (rest : List Char)
  | tooManyDigits
  deriving DecidableEq

def Fault.toFailure (offset : Nat) (s : List Char) : Fault → Failure
  | unexpected wanted rest => .malformedField wanted rest.head? (offset + (s.length - rest.length))
  | tooManyDigits => .exceeded .digits

def Align.ofGlyph? : Char → Option Align
  | '<' => some .left
  | '>' => some .right
  | '^' => some .center
  | '=' => some .afterSign
  | _ => none

def Conversion.ofLetter? : Char → Option (Conversion × Case)
  | 'b' => some (.binary, .lower)
  | 'c' => some (.char, .lower)
  | 'd' => some (.decimal, .lower)
  | 'e' => some (.scientific, .lower)
  | 'E' => some (.scientific, .upper)
  | 'f' => some (.fixed, .lower)
  | 'F' => some (.fixed, .upper)
  | 'g' => some (.general, .lower)
  | 'G' => some (.general, .upper)
  | 'o' => some (.octal, .lower)
  | 's' => some (.string, .lower)
  | 'x' => some (.hex, .lower)
  | 'X' => some (.hex, .upper)
  | '%' => some (.percent, .lower)
  | '?' => some (.debug, .lower)
  | _ => none

namespace Reader

def delimiter (c : Char) : List Char → Except Fault (List Char)
  | [] => .error (.unexpected (.delimiter c) [])
  | d :: rest => if d = c then .ok rest else .error (.unexpected (.delimiter c) (d :: rest))

def number (s : List Char) : Except Fault (Option Nat × List Char) :=
  let digits := s.takeWhile Char.isDigit
  if digits = [] then .ok (none, s)
  else if digits.length ≤ digitLimit then
    .ok (some (Nat.ofDigitChars 10 digits 0), s.dropWhile Char.isDigit)
  else .error .tooManyDigits

def flag (c : Char) : List Char → Bool × List Char
  | [] => (false, [])
  | d :: rest => if d = c then (true, rest) else (false, d :: rest)

def align : List Char → Option Align × List Char
  | [] => (none, [])
  | glyph :: rest =>
    match Align.ofGlyph? glyph with
    | some a => (some a, rest)
    | none => (none, glyph :: rest)

/-- A brace is no fill. -/
def fillAndAlign : List Char → Option Char × Option Align × List Char
  | fill :: glyph :: rest =>
    match Align.ofGlyph? glyph with
    | some a =>
      if fill = '\x7b' ∨ fill = '\x7d' then (none, align (fill :: glyph :: rest))
      else (some fill, some a, rest)
    | none => (none, align (fill :: glyph :: rest))
  | s => (none, align s)

def sign : List Char → Sign × List Char
  | '+' :: rest => (.plus, rest)
  | '-' :: rest => (.minus, rest)
  | ' ' :: rest => (.space, rest)
  | s => (.unset, s)

def count (s : List Char) : Except Fault (Option Count × List Char) :=
  match flag '\x7b' s with
  | (true, s) => do
    let (position, s) ← number s
    let s ← delimiter '\x7d' s
    return (some (.argument position), s)
  | (false, s) => do
    let (n, s) ← number s
    return (n.map .literal, s)

def precision (s : List Char) : Except Fault (Option Count × List Char) :=
  match flag '.' s with
  | (true, s) => do
    match ← count s with
    | (some n, rest) => return (some n, rest)
    | (none, _) => throw (.unexpected .countAfterPoint s)
  | (false, s) => return (none, s)

def conversion : List Char → (Conversion × Case) × List Char
  | [] => ((.standard, .lower), [])
  | letter :: rest =>
    match Conversion.ofLetter? letter with
    | some c => (c, rest)
    | none => ((.standard, .lower), letter :: rest)

/-- The flag `0` stands for zeros between sign and digits, unless an alignment is given. -/
def spec (s : List Char) : Except Fault (Spec × List Char) := do
  let (fill, align, s) := fillAndAlign s
  let (sign, s) := sign s
  let (alternate, s) := flag '#' s
  let (zeroPad, s) := flag '0' s
  let (width, s) ← count s
  let (precision, s) ← precision s
  let ((conversion, case), s) := conversion s
  let shorthand := zeroPad && align.isNone
  return ({
    fill := [if shorthand then '0' else fill.getD ' ']
    align := if shorthand then some .afterSign else align
    sign, alternate, zeroPad, precision, conversion, case
    width := width.getD (.literal 0) }, s)

def specAfterColon (s : List Char) : Except Fault (Spec × List Char) :=
  match flag ':' s with
  | (true, s) => spec s
  | (false, s) => .ok ({}, s)

def field (s : List Char) : Except Fault (Field × List Char) := do
  let s ← delimiter '\x7b' s
  let (position, s) ← number s
  let (spec, s) ← specAfterColon s
  let s ← delimiter '\x7d' s
  return ({ position, spec }, s)

section Suffix

variable {s rest : List Char}

theorem eq_cons_of_delimiter {c : Char} (h : delimiter c s = .ok rest) : s = c :: rest := by
  cases s with
  | nil => simp [delimiter] at h
  | cons d s =>
    simp only [delimiter] at h
    split at h
    · cases h; simp_all
    · cases h

theorem delimiter_suffix {c : Char} (h : delimiter c s = .ok rest) : rest <:+ s :=
  eq_cons_of_delimiter h ▸ List.suffix_cons c rest

theorem number_suffix {n : Option Nat} (h : number s = .ok (n, rest)) : rest <:+ s := by
  simp only [number] at h
  split at h
  · cases h; exact List.suffix_refl _
  · split at h
    · cases h; exact List.dropWhile_suffix _
    · cases h

theorem flag_suffix (c : Char) (s : List Char) : (flag c s).2 <:+ s := by
  cases s with
  | nil => exact List.suffix_refl _
  | cons d s =>
    simp only [flag]
    split
    · exact List.suffix_cons d s
    · exact List.suffix_refl _

theorem align_suffix (s : List Char) : (align s).2 <:+ s := by
  cases s with
  | nil => exact List.suffix_refl _
  | cons d s =>
    simp only [align]
    split
    · exact List.suffix_cons d s
    · exact List.suffix_refl _

theorem fillAndAlign_suffix (s : List Char) : (fillAndAlign s).2.2 <:+ s := by
  unfold fillAndAlign
  split
  · split
    · split
      · exact align_suffix _
      · exact (List.suffix_cons _ _).trans (List.suffix_cons _ _)
    · exact align_suffix _
  · exact align_suffix _

theorem sign_suffix (s : List Char) : (sign s).2 <:+ s := by
  unfold sign
  split
  all_goals first | exact List.suffix_cons _ _ | exact List.suffix_refl _

theorem conversion_suffix (s : List Char) : (conversion s).2 <:+ s := by
  cases s with
  | nil => exact List.suffix_refl _
  | cons d s =>
    simp only [conversion]
    split
    · exact List.suffix_cons d s
    · exact List.suffix_refl _

theorem count_suffix {n : Option Count} (h : count s = .ok (n, rest)) : rest <:+ s := by
  have hf := flag_suffix '\x7b' s
  unfold count at h
  split at h <;> rename_i hs <;> rw [hs] at hf
  · obtain ⟨_, hn, h⟩ := bind_eq_ok_iff.mp h
    obtain ⟨_, hd, h⟩ := bind_eq_ok_iff.mp h
    cases h
    exact (delimiter_suffix hd).trans ((number_suffix hn).trans hf)
  · obtain ⟨_, hn, h⟩ := bind_eq_ok_iff.mp h
    cases h
    exact (number_suffix hn).trans hf

theorem precision_suffix {n : Option Count} (h : precision s = .ok (n, rest)) : rest <:+ s := by
  have hf := flag_suffix '.' s
  unfold precision at h
  split at h <;> rename_i hs <;> rw [hs] at hf
  · obtain ⟨⟨m, t⟩, hn, h⟩ := bind_eq_ok_iff.mp h
    cases m with
    | none => cases h
    | some m => cases h; exact (count_suffix hn).trans hf
  · cases h; exact hf

theorem spec_suffix {x : Spec} (h : spec s = .ok (x, rest)) : rest <:+ s := by
  obtain ⟨_, hw, h⟩ := bind_eq_ok_iff.mp h
  obtain ⟨_, hp, h⟩ := bind_eq_ok_iff.mp h
  cases h
  exact (conversion_suffix _).trans ((precision_suffix hp).trans ((count_suffix hw).trans
    ((flag_suffix _ _).trans ((flag_suffix _ _).trans ((sign_suffix _).trans
      (fillAndAlign_suffix s))))))

theorem specAfterColon_suffix {x : Spec} (h : specAfterColon s = .ok (x, rest)) : rest <:+ s := by
  have hf := flag_suffix ':' s
  unfold specAfterColon at h
  split at h <;> rename_i hs <;> rw [hs] at hf
  · exact (spec_suffix h).trans hf
  · cases h; exact hf

theorem field_suffix {f : Field} (h : field s = .ok (f, rest)) :
    ∃ inner, s = '\x7b' :: inner ∧ '\x7d' :: rest <:+ inner := by
  obtain ⟨_, hd, h⟩ := bind_eq_ok_iff.mp h
  obtain ⟨_, hn, h⟩ := bind_eq_ok_iff.mp h
  obtain ⟨_, hx, h⟩ := bind_eq_ok_iff.mp h
  obtain ⟨_, he, h⟩ := bind_eq_ok_iff.mp h
  cases h
  refine ⟨_, eq_cons_of_delimiter hd, ?_⟩
  rw [← eq_cons_of_delimiter he]
  exact (specAfterColon_suffix hx).trans (number_suffix hn)

theorem length_lt_of_field {f : Field} (h : field s = .ok (f, rest)) :
    rest.length < s.length := by
  obtain ⟨inner, rfl, hr⟩ := field_suffix h
  have := hr.length_le
  simp only [List.length_cons] at *
  omega

end Suffix

end Reader

/-- The field that opens at the given offset of the text, and how many characters it takes up. -/
def Field.readAt (offset : Nat) (text : List Char) : Except Failure (Field × Nat) :=
  let s := text.drop offset
  match Reader.field s with
  | .ok (field, rest) => .ok (field, s.length - rest.length)
  | .error fault => .error (fault.toFailure offset s)

end Stencil
