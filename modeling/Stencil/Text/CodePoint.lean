/-! # Code points

Rendered text is a list of code points. Every character is one; the others are the surrogates, which
no character stands for and which arise only where a number is shown as the code point it counts.
-/

namespace Stencil

/-- A character, or the surrogate `0xD800 + k`. -/
inductive CodePoint
  | scalar (c : Char)
  | surrogate (k : Fin 0x800)
  deriving DecidableEq

namespace CodePoint

def toNat : CodePoint → Nat
  | scalar c => c.toNat
  | surrogate k => 0xD800 + k

def ofNat? (n : Nat) : Option CodePoint :=
  if h : 0xD800 ≤ n ∧ n < 0xE000 then some (surrogate ⟨n - 0xD800, by omega⟩)
  else if n.isValidChar then some (scalar (Char.ofNat n))
  else none

theorem toNat_of_ofNat? {n : Nat} {p : CodePoint} (h : ofNat? n = some p) : p.toNat = n := by
  unfold ofNat? at h
  split at h
  · cases h; simp only [toNat]; omega
  · split at h
    · cases h
      rename_i hv
      rw [toNat, Char.ofNat, dif_pos hv]
      rfl
    · cases h

theorem ofNat?_isSome_iff {n : Nat} : (ofNat? n).isSome ↔ n ≤ 0x10FFFF := by
  unfold ofNat?
  split
  · simp; omega
  · split
    · rename_i hv; simp [Nat.isValidChar] at *; omega
    · rename_i hv; simp [Nat.isValidChar] at *; omega

end CodePoint

abbrev Text := List CodePoint

def Text.ofChars (s : List Char) : Text := s.map .scalar

end Stencil
