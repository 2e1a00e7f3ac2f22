import Stencil.Proofs.Number.Numeral
import Stencil.Text.Quoted

/-! # Reading quoted literals

A literal is read one character after the other. Behind a backslash a character stands for another
one, or begins the number of one. The literal of a string reads back as the string, and what a
literal begins with is none.
-/

namespace Stencil

theorem isPrintable_iff {c : Char} : isPrintable c ↔
    ∀ block ∈ unprintableBlocks, c.toNat < block.1 ∨ block.2 < c.toNat := by
  have hblocks : ∀ block ∈ unprintableBlocks,
      block = (0x0, 0x1f) ∨ 0x7f ≤ block.1 := by decide +kernel
  unfold isPrintable
  split
  · next hc =>
    rw [decide_eq_true_eq]
    constructor
    · intro hle block hblock
      rcases hblocks block hblock with rfl | hfirst
      · exact .inr hle
      · exact .inl (Nat.lt_of_lt_of_le hc hfirst)
    · intro h
      exact (h (0x0, 0x1f) (List.mem_cons_self ..)).resolve_left (Nat.not_lt_zero _)
  · simp

namespace Quoted

def quotes : List Char := ['\x27', '\x22']

def octalDigits : List Char := "01234567".toList

def hexDigits : List Char := "0123456789abcdef".toList

def hexDigit? (c : Char) : Option Nat :=
  hexDigits.idxOf? c <|> (hexDigits.map Char.toUpper).idxOf? c

def escapes : List (Char × Char) :=
  [('\\', '\\'), ('\x27', '\x27'), ('\x22', '\x22'), ('a', '\x07'), ('b', '\x08'), ('f', '\x0c'),
    ('n', '\n'), ('r', '\r'), ('t', '\t'), ('v', '\x0b')]

/-- The letters behind a backslash that a number follows, with the number of its digits. -/
def codes : List (Char × Nat) := [('x', 2), ('u', 4), ('U', 8)]

/-- Where in a literal the next character stands. A number has up to so many digits more, or exactly
so many. -/
inductive Place
  | inside
  | escaped
  | octal (more value : Nat)
  | hex (more value : Nat)
  | behind
  deriving DecidableEq

abbrev Progress := Option (Place × List Char)

/-- A line does not end in a literal. -/
def readInside (quote : Char) (read : List Char) (c : Char) : Progress :=
  if c = quote then some (.behind, read)
  else if c = '\\' then some (.escaped, read)
  else if c = '\n' then none
  else some (.inside, read ++ [c])

/-- The end of a line is left out, and a character without a meaning stands for itself and the
backslash. Characters are not read by their names. -/
def readEscaped (read : List Char) (c : Char) : Progress :=
  match escapes.lookup c, codes.lookup c, octalDigits.idxOf? c with
  | some d, _, _ => some (.inside, read ++ [d])
  | none, some more, _ => some (.hex more 0, read)
  | none, none, some n => some (.octal 2 n, read)
  | none, none, none =>
    if c = '\n' then some (.inside, read)
    else if c = 'N' then none
    else some (.inside, read ++ ['\\', c])

def charOf? (n : Nat) : Option Char := if n.isValidChar then some (Char.ofNat n) else none

def readNext (quote : Char) : Place × List Char → Char → Progress
  | (.inside, read), c => readInside quote read c
  | (.escaped, read), c => readEscaped read c
  | (.octal more n, read), c =>
    match more, octalDigits.idxOf? c with
    | more + 1, some d => some (.octal more (n * 8 + d), read)
    | _, _ => readInside quote (read ++ [Char.ofNat n]) c
  | (.hex more n, read), c => do
    let d ← hexDigit? c
    if more = 1 then return (.inside, read ++ [← charOf? (n * 16 + d)])
    else return (.hex (more - 1) (n * 16 + d), read)
  | (.behind, _), _ => none

/-- The string whose literal the text is, from its first quote to its last. -/
def readLiteral? : List Char → Option (List Char)
  | [] => none
  | quote :: s =>
    if quote ∈ quotes then
      match s.foldlM (readNext quote) (.inside, []) with
      | some (.behind, read) => some read
      | _ => none
    else none

/-- Numbers end with their last digit, or before what is no digit. -/
example : readLiteral? "\x27\\x41b\\1012\\u0041\\q\\\x27\x27".toList =
    some "AbA2A\\q\x27".toList := by decide

theorem foldlM_behind {quote : Char} {read v : List Char} (hv : v ≠ []) :
    v.foldlM (readNext quote) (.behind, read) = none := by
  obtain ⟨c, v, rfl⟩ := List.exists_cons_of_ne_nil hv
  rfl

theorem readLiteral?_eq_none_of_prefix {u text s : List Char} (h : readLiteral? text = some s)
    (hu : u <+: text) (hne : u ≠ text) : readLiteral? u = none := by
  obtain ⟨v, rfl⟩ := hu
  have hv : v ≠ [] := by
    rintro rfl
    exact hne (List.append_nil u).symm
  cases u with
  | nil => rfl
  | cons quote u =>
    simp only [List.cons_append, readLiteral?, List.foldlM_append] at h ⊢
    split at h
    · next hquote =>
      rw [if_pos hquote]
      split
      · next read hread =>
        rw [hread] at h
        simp only [Option.bind_eq_bind, Option.bind_some, foldlM_behind hv] at h
        cases h
      · rfl
    · cases h

variable {quote : Char} {read : List Char}

theorem foldlM_hex {row : List Char} {n m more : Nat} {c : Char}
    (hrow : row.foldlM (fun n c => (hexDigits.idxOf? c).map (n * hexDigits.length + ·)) n = some m)
    (hmore : row.length = more) (hne : row ≠ []) (hc : charOf? m = some c) :
    row.foldlM (readNext quote) (.hex more n, read) = some (.inside, read ++ [c]) := by
  induction row generalizing n more with
  | nil => exact (hne rfl).elim
  | cons d row ih =>
    simp only [List.foldlM_cons, Option.bind_eq_bind, Option.bind_eq_some_iff,
      Option.map_eq_some_iff] at hrow
    obtain ⟨_, ⟨i, hi, rfl⟩, hrow⟩ := hrow
    have hdigit : hexDigit? d = some i := by rw [hexDigit?, hi]; rfl
    have hlength : hexDigits.length = 16 := rfl
    rw [hlength] at hrow
    cases row with
    | nil =>
      cases hrow
      cases hmore
      simp [readNext, hdigit, hc]
    | cons e row =>
      have hnext : more ≠ 1 := by
        rintro rfl
        cases hmore
      have hlast : (e :: row).length = more - 1 := by rw [← hmore]; rfl
      have hrest := ih hrow hlast (List.cons_ne_nil e row)
      rw [List.foldlM_cons]
      simp only [readNext, hdigit, if_neg hnext, Option.bind_eq_bind, Option.bind_some,
        Option.pure_def]
      exact hrest

theorem charOf?_toNat (c : Char) : charOf? c.toNat = some c :=
  (if_pos c.valid).trans (congrArg some c.ofNat_toNat)

theorem foldlM_hex_toNat {width : Nat} {c : Char} (hc : c.toNat < 16 ^ width) (hw : 0 < width) :
    (hex width c.toNat).foldlM (readNext quote) (.hex width 0, read) =
      some (.inside, read ++ [c]) := by
  have hnumeral : IsNumeral hexDigits c.toNat ((Nat.toDigits 16 c.toNat).map id) :=
    .map_toDigits id (by decide) (by decide) c.toNat
  have hlength : (hex width c.toNat).length = width := by
    rw [hex, List.length_leftpad, Nat.max_eq_left]
    exact (Nat.length_toDigits_le_iff (by decide) hw).mpr hc
  apply foldlM_hex _ hlength _ (charOf?_toNat c)
  · have hzero : hexDigits.idxOf? '0' = some 0 := by decide
    have hvalue := digitsValue?_zeros hzero (width - (Nat.toDigits 16 c.toNat).length)
      (Nat.toDigits 16 c.toNat)
    rw [List.map_id] at hnumeral
    rw [hnumeral.value] at hvalue
    exact hvalue
  · exact List.append_ne_nil_of_right_ne_nil _ Nat.toDigits_ne_nil

theorem mem_of_escaped {c : Char} (hquote : quote ∈ quotes) (h : c = quote ∨ c = '\\') :
    c ∈ '\\' :: quotes := by
  rcases h with rfl | rfl
  · exact List.mem_cons_of_mem _ hquote
  · exact List.mem_cons_self ..

theorem foldlM_backslash (hquote : quote ∈ quotes) (s : List Char) :
    ('\\' :: s).foldlM (readNext quote) (.inside, read) =
      s.foldlM (readNext quote) (.escaped, read) := by
  have hne : '\\' ≠ quote := by
    rintro rfl
    exact absurd hquote (by decide)
  simp [readNext, readInside, hne]

theorem foldlM_code (hquote : quote ∈ quotes) (letter : Char) {width : Nat} {c : Char}
    (hletter : (letter, width) ∈ codes) (hc : c.toNat < 16 ^ width) :
    ('\\' :: letter :: hex width c.toNat).foldlM (readNext quote) (.inside, read) =
      some (.inside, read ++ [c]) := by
  have hcodes : ∀ code ∈ codes,
      readEscaped read code.1 = some (.hex code.2 0, read) ∧ 0 < code.2 := by
    simp only [codes, List.forall_mem_cons]
    exact ⟨⟨rfl, by decide⟩, ⟨rfl, by decide⟩, ⟨rfl, by decide⟩, by simp⟩
  obtain ⟨hread, hwidth⟩ := hcodes _ hletter
  rw [foldlM_backslash hquote, List.foldlM_cons]
  simp only [readNext, hread, Option.bind_eq_bind, Option.bind_some]
  exact foldlM_hex_toNat hc hwidth

theorem foldlM_escape (hquote : quote ∈ quotes) (c : Char) :
    (escape quote c).foldlM (readNext quote) (.inside, read) = some (.inside, read ++ [c]) := by
  unfold escape
  split_ifs with hself htab hnewline hreturn hprintable hsmall hmiddle
  · have hescapes : ∀ c ∈ '\\' :: quotes, escapes.lookup c = some c := by decide
    rw [foldlM_backslash hquote]
    simp [readNext, readEscaped, hescapes c (mem_of_escaped hquote hself)]
  · rw [foldlM_backslash hquote, htab]
    rfl
  · rw [foldlM_backslash hquote, hnewline]
    rfl
  · rw [foldlM_backslash hquote, hreturn]
    rfl
  · obtain ⟨hcquote, hcback⟩ := not_or.mp hself
    simp [readNext, readInside, hcquote, hcback, hnewline]
  · exact foldlM_code hquote 'x' (by decide) hsmall
  · exact foldlM_code hquote 'u' (by decide) hmiddle
  · have hvalid : c.toNat.isValidChar := c.valid
    have hlt : c.toNat < 0x110000 := by
      unfold Nat.isValidChar at hvalid
      omega
    exact foldlM_code hquote 'U' (by decide) (Nat.lt_trans hlt (by decide))

theorem foldlM_flatMap_escape (hquote : quote ∈ quotes) (s : List Char) :
    (s.flatMap (escape quote)).foldlM (readNext quote) (.inside, read) =
      some (.inside, read ++ s) := by
  induction s generalizing read with
  | nil => simp
  | cons c s ih =>
    rw [List.flatMap_cons, List.foldlM_append, foldlM_escape hquote, Option.bind_eq_bind,
      Option.bind_some, ih, List.append_assoc]
    rfl

theorem quoteFor_mem_quotes (s : List Char) : quoteFor s ∈ quotes := by
  unfold quoteFor
  split <;> decide

/-- The literal of a string reads back as the string. -/
theorem readLiteral?_literal (s : List Char) : readLiteral? (literal s) = some s := by
  have hquote := quoteFor_mem_quotes s
  have hend : readInside (quoteFor s) s (quoteFor s) = some (.behind, s) := if_pos rfl
  simp only [literal, List.cons_append, readLiteral?, if_pos hquote, List.foldlM_append,
    foldlM_flatMap_escape hquote, Option.bind_eq_bind, Option.bind_some, List.nil_append,
    List.foldlM_cons, List.foldlM_nil, readNext, hend, Option.pure_def]

theorem isPrintable_hex (width n : Nat) : ∀ c ∈ hex width n, isPrintable c := by
  have hdigits : ∀ c ∈ hexDigits, isPrintable c := by decide
  have hnumeral : IsNumeral hexDigits n ((Nat.toDigits 16 n).map id) :=
    .map_toDigits id (by decide) (by decide) n
  rw [List.map_id] at hnumeral
  refine List.forall_mem_append.mpr ⟨fun c hc => ?_, fun c hc => ?_⟩
  · rw [List.eq_of_mem_replicate hc]
    rfl
  · exact hdigits c (mem_of_digitsValue? hnumeral.value c hc)

theorem isPrintable_escape (hquote : quote ∈ quotes) (c : Char) :
    ∀ d ∈ escape quote c, isPrintable d := by
  have hquotes : ∀ d ∈ '\\' :: quotes, isPrintable d := by decide
  have hcode (letter : Char) (width : Nat) (hletter : isPrintable letter) :
      ∀ d ∈ '\\' :: letter :: hex width c.toNat, isPrintable d :=
    List.forall_mem_cons.mpr ⟨rfl, List.forall_mem_cons.mpr ⟨hletter, isPrintable_hex _ _⟩⟩
  unfold escape
  split_ifs with hself htab hnewline hreturn hprintable hsmall hmiddle
  · have hc := hquotes c (mem_of_escaped hquote hself)
    exact List.forall_mem_cons.mpr ⟨rfl, List.forall_mem_singleton.mpr hc⟩
  · decide
  · decide
  · decide
  · simpa using hprintable
  · exact hcode 'x' 2 rfl
  · exact hcode 'u' 4 rfl
  · exact hcode 'U' 8 rfl

theorem isPrintable_literal (s : List Char) : ∀ c ∈ literal s, isPrintable c := by
  have hquote := quoteFor_mem_quotes s
  have hprintable : isPrintable (quoteFor s) := by
    have hquotes : ∀ d ∈ quotes, isPrintable d := by decide
    exact hquotes _ hquote
  intro c hc
  simp only [literal, List.cons_append, List.mem_cons, List.mem_append, List.mem_flatMap,
    List.not_mem_nil, or_false] at hc
  rcases hc with rfl | ⟨d, -, hc⟩ | rfl
  · exact hprintable
  · exact isPrintable_escape hquote d c hc
  · exact hprintable

end Quoted

end Stencil
