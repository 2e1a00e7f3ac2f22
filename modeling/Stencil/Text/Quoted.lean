import Stencil.Text.Printable

/-! # Quoted literals

A quoted literal shows a string, or a string of bytes, on one line and in printable characters only.
Single quotes enclose it unless it holds one and no double quote, and what cannot stand for itself
is escaped.
-/

namespace Stencil.Quoted

/-- `n` in base sixteen, with zeros in front up to `width` digits. -/
def hex (width n : Nat) : List Char :=
  (Nat.toDigits 16 n).leftpad width '0'

def quoteFor (s : List Char) : Char :=
  if '\x27' ∈ s ∧ '\x22' ∉ s then '\x22' else '\x27'

def escape (quote c : Char) : List Char :=
  if c = quote ∨ c = '\\' then ['\\', c]
  else if c = '\t' then ['\\', 't']
  else if c = '\n' then ['\\', 'n']
  else if c = '\r' then ['\\', 'r']
  else if isPrintable c then [c]
  else if c.toNat < 0x100 then '\\' :: 'x' :: hex 2 c.toNat
  else if c.toNat < 0x10000 then '\\' :: 'u' :: hex 4 c.toNat
  else '\\' :: 'U' :: hex 8 c.toNat

def literal (s : List Char) : List Char :=
  let quote := quoteFor s
  quote :: s.flatMap (escape quote) ++ [quote]

/-- A byte outside ASCII has no character to show and is always escaped. -/
def escapeByte (quote c : Char) : List Char :=
  if c.toNat < 0x80 then escape quote c else '\\' :: 'x' :: hex 2 c.toNat

def bytesLiteral (bytes : List UInt8) : List Char :=
  let s := bytes.map fun b => Char.ofNat b.toNat
  let quote := quoteFor s
  'b' :: quote :: s.flatMap (escapeByte quote) ++ [quote]

end Stencil.Quoted
