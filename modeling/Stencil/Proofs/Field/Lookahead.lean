import Stencil.Proofs.Field.Parts

/-! # Looking ahead

What a reader does in front of a character it does whatever comes after the character. Only an
alignment can make a fill of the character before it, and only where nothing but the colon of the
field has been read.
-/

namespace Stencil

namespace Reader

variable {α β : Type}

/-- Where a reader may look beyond a character: what comes before it, the character, and what comes
after it. -/
abbrev Exceptions := List Char → Char → List Char → Prop

def never : Exceptions := fun _ _ _ => False

/-- The reader leaves the end of its text. Where it goes on or fails in front of a character, it
does the same with another text behind the character, exceptions apart. -/
structure LooksAtOne (except : Exceptions) (x : List Char → Except Fault (α × List Char)) :
    Prop where
  suffix : ∀ {s a rest}, x s = .ok (a, rest) → rest <:+ s
  suffix_of_fault : ∀ {s wanted rest}, x s = .error (.unexpected wanted rest) → rest <:+ s
  ok : ∀ {s c t t' a rest}, ¬ except s c t' → x (s ++ c :: t) = .ok (a, rest ++ c :: t) →
    x (s ++ c :: t') = .ok (a, rest ++ c :: t')
  fault : ∀ {s c t t' wanted rest}, ¬ except s c t' →
    x (s ++ c :: t) = .error (.unexpected wanted (rest ++ c :: t)) →
    x (s ++ c :: t') = .error (.unexpected wanted (rest ++ c :: t'))

theorem ne_append_cons (t s : List Char) (c : Char) : t ≠ s ++ c :: t := by
  intro h
  have := congrArg List.length h
  simp only [List.length_append, List.length_cons] at this
  omega

namespace LooksAtOne

variable {except except' : Exceptions} {x : List Char → Except Fault (α × List Char)}
  {f : α × List Char → Except Fault (β × List Char)}

theorem mono (hx : LooksAtOne except x) (h : ∀ s c t, except s c t → except' s c t) :
    LooksAtOne except' x where
  suffix := hx.suffix
  suffix_of_fault := hx.suffix_of_fault
  ok he := hx.ok fun h' => he (h _ _ _ h')
  fault he := hx.fault fun h' => he (h _ _ _ h')

theorem pure (a : α) : LooksAtOne never fun s => .ok (a, s) where
  suffix h := by
    cases h
    exact List.suffix_rfl
  suffix_of_fault h := nomatch h
  ok _ h := by
    rw [Except.ok.injEq, Prod.mk.injEq] at h
    obtain ⟨rfl, hs⟩ := h
    rw [List.append_cancel_right hs]
  fault _ h := nomatch h

theorem bind {except' : α → Exceptions} (hx : LooksAtOne except x)
    (hf : ∀ a, LooksAtOne (except' a) fun s => f (a, s))
    (h : ∀ s c t t' a rest, x (s ++ c :: t) = .ok (a, rest ++ c :: t) → except' a rest c t' →
      except s c t') :
    LooksAtOne except fun s => x s >>= f where
  suffix h := by
    obtain ⟨⟨a, left⟩, hr, h⟩ := bind_eq_ok_iff.mp h
    exact ((hf a).suffix h).trans (hx.suffix hr)
  suffix_of_fault h := by
    rcases bind_eq_error_iff.mp h with h | ⟨⟨a, left⟩, hr, h⟩
    · exact hx.suffix_of_fault h
    · exact ((hf a).suffix_of_fault h).trans (hx.suffix hr)
  ok {s c t t' b rest} he hok := by
    obtain ⟨⟨a, left⟩, hr, hok⟩ := bind_eq_ok_iff.mp hok
    obtain ⟨read, rfl⟩ := (hf a).suffix hok
    rw [← List.append_assoc] at hr hok
    have hsecond := (hf a).ok (fun hrest => he (h s c t t' a _ hr hrest)) hok
    rw [hx.ok he hr]
    exact hsecond
  fault {s c t t' wanted rest} he hfault := by
    rcases bind_eq_error_iff.mp hfault with hfault | ⟨⟨a, left⟩, hr, hfault⟩
    · rw [hx.fault he hfault]
      rfl
    · obtain ⟨read, rfl⟩ := (hf a).suffix_of_fault hfault
      rw [← List.append_assoc] at hr hfault
      have hsecond := (hf a).fault (fun hrest => he (h s c t t' a _ hr hrest)) hfault
      rw [hx.ok he hr]
      exact hsecond

theorem bind_never (hx : LooksAtOne except x) (hf : ∀ a, LooksAtOne never fun s => f (a, s)) :
    LooksAtOne except fun s => x s >>= f :=
  hx.bind hf fun _ _ _ _ _ _ _ => False.elim

end LooksAtOne

def optional (meaning : Char → Option α) (absent : α) : List Char → α × List Char
  | [] => (absent, [])
  | c :: s =>
    match meaning c with
    | some a => (a, s)
    | none => (absent, c :: s)

theorem optional_looksAtOne (meaning : Char → Option α) (absent : α) :
    LooksAtOne never fun s => .ok (optional meaning absent s) where
  suffix {s a rest} h := by
    cases s with
    | nil =>
      cases h
      exact List.suffix_rfl
    | cons c s =>
      cases hm : meaning c <;> simp only [optional, hm] at h <;> cases h
      · exact List.suffix_rfl
      · exact List.suffix_cons c _
  suffix_of_fault h := nomatch h
  ok {s c t t' a rest} _ h := by
    cases s with
    | nil =>
      simp only [List.nil_append, optional] at h ⊢
      cases hm : meaning c <;> simp only [hm, Except.ok.injEq, Prod.mk.injEq] at h
      · obtain ⟨rfl, h⟩ := h
        rw [List.self_eq_append_left.mp h, List.nil_append]
      · exact absurd h.2 (ne_append_cons t rest c)
    | cons d s =>
      simp only [List.cons_append, optional] at h ⊢
      cases hm : meaning d <;> simp only [hm, Except.ok.injEq, Prod.mk.injEq] at h
      · have hs : d :: s ++ c :: t = rest ++ c :: t := h.2
        rw [← h.1, ← List.append_cancel_right hs]
        rfl
      · rw [← h.1, ← List.append_cancel_right h.2]
  fault _ h := nomatch h

def flagMeaning (c d : Char) : Option Bool := if d = c then some true else none

theorem flag_eq (c : Char) : flag c = optional (flagMeaning c) false := by
  funext s
  cases s with
  | nil => rfl
  | cons d s =>
    simp only [flag, optional, flagMeaning]
    split <;> rfl

def signMeaning : Char → Option Sign
  | '+' => some .plus
  | '-' => some .minus
  | ' ' => some .space
  | _ => none

theorem sign_eq : sign = optional signMeaning .unset := by
  funext s
  cases s with
  | nil => rfl
  | cons c s =>
    unfold sign optional signMeaning
    split <;> simp_all

theorem conversion_eq : conversion = optional Conversion.ofLetter? (.standard, .lower) := by
  funext s
  cases s with
  | nil => rfl
  | cons c s =>
    simp only [conversion, optional]
    cases Conversion.ofLetter? c <;> rfl

theorem align_eq : align = optional (fun c => (Align.ofGlyph? c).map some) none := by
  funext s
  cases s with
  | nil => rfl
  | cons c s =>
    simp only [align, optional]
    cases Align.ofGlyph? c <;> rfl

theorem flag_looksAtOne (c : Char) : LooksAtOne never fun s => .ok (flag c s) :=
  flag_eq c ▸ optional_looksAtOne _ _

theorem sign_looksAtOne : LooksAtOne never fun s => .ok (sign s) :=
  sign_eq ▸ optional_looksAtOne _ _

theorem align_looksAtOne : LooksAtOne never fun s => .ok (align s) :=
  align_eq ▸ optional_looksAtOne _ _

theorem conversion_looksAtOne : LooksAtOne never fun s => .ok (conversion s) :=
  conversion_eq ▸ optional_looksAtOne _ _

theorem delimiter_looksAtOne (d : Char) :
    LooksAtOne never fun s => (delimiter d s).map ((), ·) where
  suffix {s a rest} h := by
    cases hd : delimiter d s <;> rw [hd] at h <;> cases h
    exact delimiter_suffix hd
  suffix_of_fault {s wanted rest} h := by
    cases s with
    | nil => cases h; exact List.suffix_rfl
    | cons c s =>
      simp only [delimiter] at h
      split at h <;> cases h
      exact List.suffix_rfl
  ok {s c t t' a rest} _ h := by
    cases s with
    | nil =>
      simp only [List.nil_append, delimiter] at h ⊢
      split at h
      · exact absurd (Prod.mk.inj (Except.ok.inj h)).2 (ne_append_cons t rest c)
      · cases h
    | cons e s =>
      simp only [List.cons_append, delimiter] at h ⊢
      split at h
      · next he =>
        rw [if_pos he, ← List.append_cancel_right (Prod.mk.inj (Except.ok.inj h)).2]
        rfl
      · cases h
  fault {s c t t' wanted rest} _ h := by
    cases s with
    | nil =>
      simp only [List.nil_append, delimiter] at h ⊢
      split at h
      · cases h
      · next hc =>
        simp only [Except.map, Except.error.injEq, Fault.unexpected.injEq] at h
        rw [if_neg hc, ← h.1, List.self_eq_append_left.mp h.2]
        rfl
    | cons e s =>
      simp only [List.cons_append, delimiter] at h ⊢
      split at h
      · cases h
      · next he =>
        simp only [Except.map, Except.error.injEq, Fault.unexpected.injEq] at h
        have hs : e :: s ++ c :: t = rest ++ c :: t := h.2
        rw [if_neg he, ← h.1, ← List.append_cancel_right hs]
        rfl

theorem delimiter_bind_looksAtOne {except except' : Exceptions} {d : Char}
    {x : List Char → Except Fault (α × List Char)} (hx : LooksAtOne except x)
    (h : ∀ s c t, except s c t → except' (d :: s) c t) :
    LooksAtOne except' fun s => delimiter d s >>= x := by
  have hunit : (fun s => delimiter d s >>= x) =
      fun s => (delimiter d s).map ((), ·) >>= fun r => x r.2 := by
    funext s
    cases delimiter d s <;> rfl
  rw [hunit]
  refine ((delimiter_looksAtOne d).mono fun _ _ _ => False.elim).bind (fun _ => hx) ?_
  intro s c t t' a rest hok he
  cases hd : delimiter d (s ++ c :: t) with
  | error fault => rw [hd] at hok; cases hok
  | ok left =>
    rw [hd] at hok
    cases hok
    have hs := eq_cons_of_delimiter hd
    rw [← List.cons_append] at hs
    rw [List.append_cancel_right hs]
    exact h rest c t' he

theorem delimiter_bind_never {d : Char} {x : List Char → Except Fault (α × List Char)}
    (hx : LooksAtOne never x) : LooksAtOne never fun s => delimiter d s >>= x :=
  delimiter_bind_looksAtOne hx fun _ _ _ => False.elim

theorem dropWhile_append_cons {s rest : List Char} {c : Char} {t : List Char}
    (h : (s ++ c :: t).dropWhile Char.isDigit = rest ++ c :: t) (t' : List Char) :
    (s ++ c :: t').takeWhile Char.isDigit = (s ++ c :: t).takeWhile Char.isDigit ∧
      (s ++ c :: t').dropWhile Char.isDigit = rest ++ c :: t' := by
  induction s with
  | nil =>
    cases hc : c.isDigit with
    | true =>
      rw [List.nil_append, List.dropWhile_cons_of_pos hc] at h
      have hle := (List.dropWhile_suffix (l := t) Char.isDigit).length_le
      rw [h, List.length_append, List.length_cons] at hle
      omega
    | false =>
      simp only [List.nil_append, List.dropWhile_cons, List.takeWhile_cons, hc,
        Bool.false_eq_true, if_false] at h ⊢
      exact ⟨trivial, by rw [List.self_eq_append_left.mp h, List.nil_append]⟩
  | cons d s ih =>
    cases hd : d.isDigit with
    | true =>
      simp only [List.cons_append, List.dropWhile_cons, List.takeWhile_cons, hd, if_true] at h ⊢
      rw [(ih h).1]
      exact ⟨rfl, (ih h).2⟩
    | false =>
      simp only [List.cons_append, List.dropWhile_cons, List.takeWhile_cons, hd,
        Bool.false_eq_true, if_false] at h ⊢
      have hs : d :: s ++ c :: t = rest ++ c :: t := h
      exact ⟨trivial, by rw [← List.append_cancel_right hs, List.cons_append]⟩

theorem number_eq (s : List Char) :
    number s = if (s.takeWhile Char.isDigit).length ≤ digitLimit then
      .ok (if s.takeWhile Char.isDigit = [] then none
        else some (Nat.ofDigitChars 10 (s.takeWhile Char.isDigit) 0), s.dropWhile Char.isDigit)
    else .error .tooManyDigits := by
  by_cases h : s.takeWhile Char.isDigit = []
  · have hdrop := List.takeWhile_append_dropWhile (p := Char.isDigit) (l := s)
    rw [h, List.nil_append] at hdrop
    simp [number, h, hdrop]
  · simp only [number, if_neg h]

theorem number_looksAtOne : LooksAtOne never number where
  suffix := number_suffix
  suffix_of_fault {s wanted rest} h := by
    rw [number_eq] at h
    split at h <;> cases h
  ok {s c t t' n rest} _ h := by
    rw [number_eq] at h ⊢
    split at h
    · next hlimit =>
      rw [Except.ok.injEq, Prod.mk.injEq] at h
      obtain ⟨htake, hdrop⟩ := dropWhile_append_cons h.2 t'
      rw [htake, hdrop, if_pos hlimit, h.1]
    · cases h
  fault {s c t t' wanted rest} _ h := by
    rw [number_eq] at h
    split at h <;> cases h

def countAfterBrace : Bool × List Char → Except Fault (Option Count × List Char)
  | (true, s) => do
    let (position, s) ← number s
    let s ← delimiter '\x7d' s
    return (some (.argument position), s)
  | (false, s) => do
    let (n, s) ← number s
    return (n.map .literal, s)

theorem count_eq : count = fun s => .ok (flag '\x7b' s) >>= countAfterBrace := rfl

theorem count_looksAtOne : LooksAtOne never count := by
  rw [count_eq]
  refine (flag_looksAtOne '\x7b').bind_never fun b => ?_
  cases b with
  | true =>
    exact number_looksAtOne.bind_never fun n =>
      delimiter_bind_never (.pure (some (Count.argument n)))
  | false => exact number_looksAtOne.bind_never fun n => .pure (n.map Count.literal)

theorem eq_of_count_eq_none {s rest : List Char} (h : count s = .ok (none, rest)) : rest = s := by
  obtain ⟨form, rfl, hform, -⟩ := exists_of_count h
  obtain rfl := Option.map_eq_none_iff.mp hform.symm
  rfl

def countAfterPoint : Option Count × List Char → Except Fault (Option Count × List Char)
  | (some n, s) => .ok (some n, s)
  | (none, s) => .error (.unexpected .countAfterPoint s)

def precisionAfterPoint : Bool × List Char → Except Fault (Option Count × List Char)
  | (true, s) => count s >>= countAfterPoint
  | (false, s) => .ok (none, s)

theorem precision_eq : precision = fun s => .ok (flag '.' s) >>= precisionAfterPoint := by
  funext s
  rw [precision, ok_bind]
  rcases flag '.' s with ⟨- | -, s⟩
  · rfl
  · simp only [precisionAfterPoint]
    cases hn : count s with
    | error fault => rfl
    | ok r =>
      obtain ⟨- | n, rest⟩ := r
      · rw [eq_of_count_eq_none hn]
        rfl
      · rfl

theorem countAfterPoint_looksAtOne (n : Option Count) :
    LooksAtOne never fun s => countAfterPoint (n, s) := by
  cases n with
  | some n => exact .pure (some n)
  | none =>
    constructor
    · exact nofun
    · intro s wanted rest h
      cases h
      exact List.suffix_rfl
    · exact nofun
    · intro s c t t' wanted rest _ h
      simp only [countAfterPoint, Except.error.injEq, Fault.unexpected.injEq] at h ⊢
      exact ⟨h.1, by rw [List.append_cancel_right h.2]⟩

theorem precision_looksAtOne : LooksAtOne never precision := by
  rw [precision_eq]
  refine (flag_looksAtOne '.').bind_never fun b => ?_
  cases b with
  | true => exact count_looksAtOne.bind_never countAfterPoint_looksAtOne
  | false => exact .pure none

def options (fill : Option Char) (align : Option Align) (s : List Char) :
    Except Fault (Spec × List Char) := do
  let (sign, s) ← .ok (sign s)
  let (alternate, s) ← .ok (flag '#' s)
  let (zeroPad, s) ← .ok (flag '0' s)
  let (width, s) ← count s
  let (precision, s) ← precision s
  let ((conversion, case), s) ← .ok (conversion s)
  let shorthand := zeroPad && align.isNone
  return ({
    fill := [if shorthand then '0' else fill.getD ' ']
    align := if shorthand then some .afterSign else align
    sign, alternate, zeroPad, precision, conversion, case
    width := width.getD (.literal 0) }, s)

theorem options_looksAtOne (fill : Option Char) (align : Option Align) :
    LooksAtOne never (options fill align) := by
  refine sign_looksAtOne.bind_never fun sign => ?_
  refine (flag_looksAtOne '#').bind_never fun alternate => ?_
  refine (flag_looksAtOne '0').bind_never fun zeroPad => ?_
  refine count_looksAtOne.bind_never fun width => ?_
  refine precision_looksAtOne.bind_never fun precision => ?_
  exact conversion_looksAtOne.bind_never fun conversion => .pure _

def fillAfter (p : List Char → Prop) : Exceptions :=
  fun s c t => p s ∧ isFill c ∧ ¬ Avoids isGlyph t

theorem fillAndAlign_of_isFill {c d : Char} {a : Align} (hc : isFill c)
    (ha : Align.ofGlyph? d = some a) (s : List Char) :
    fillAndAlign (c :: d :: s) = (some c, some a, s) := by
  have hc : ¬ (c = '\x7b' ∨ c = '\x7d') := not_or.mpr hc
  simp [fillAndAlign, ha, hc]

theorem fillAndAlign_of_not_isFill {c : Char} {s : List Char}
    (h : ¬ (isFill c ∧ ¬ Avoids isGlyph s)) : fillAndAlign (c :: s) = (none, align (c :: s)) := by
  cases s with
  | nil => rfl
  | cons d s =>
    rw [fillAndAlign]
    cases ha : Align.ofGlyph? d with
    | none => rfl
    | some a =>
      have hc : c = '\x7b' ∨ c = '\x7d' := by
        simpa only [avoids_cons, isGlyph, ha, isFill, not_and_or, not_not, Option.isSome_some,
          not_true_eq_false, or_false] using h
      exact if_pos hc

theorem exists_glyph_of_not_avoids {s : List Char} (h : ¬ Avoids isGlyph s) :
    ∃ d a t, s = d :: t ∧ Align.ofGlyph? d = some a := by
  cases s with
  | nil => exact (h nofun).elim
  | cons d t =>
    obtain ⟨a, ha⟩ := Option.isSome_iff_exists.mp (not_not.mp fun hd => h (avoids_cons.mpr hd))
    exact ⟨d, a, t, rfl, ha⟩

def alignment (s : List Char) : (Option Char × Option Align) × List Char :=
  (((fillAndAlign s).1, (fillAndAlign s).2.1), (fillAndAlign s).2.2)

theorem head?_append_cons (s t t' : List Char) (c : Char) :
    (s ++ c :: t).head? = (s ++ c :: t').head? := by
  cases s <;> rfl

theorem alignment_looksAtOne : LooksAtOne (fillAfter (· = [])) fun s => .ok (alignment s) where
  suffix {s a rest} h := by
    cases h
    exact fillAndAlign_suffix s
  suffix_of_fault h := nomatch h
  ok {s c t t' a rest} he h := by
    rw [Except.ok.injEq, alignment, Prod.mk.injEq] at h
    have halign (hfill : fillAndAlign (s ++ c :: t) = (none, align (s ++ c :: t)))
        (hfill' : fillAndAlign (s ++ c :: t') = (none, align (s ++ c :: t'))) :
        (Except.ok (alignment (s ++ c :: t')) : Except Fault _) = .ok (a, rest ++ c :: t') := by
      rw [hfill] at h
      have hok : (Except.ok (align (s ++ c :: t')) : Except Fault _) =
          .ok ((align (s ++ c :: t)).1, rest ++ c :: t') :=
        align_looksAtOne.ok id (congrArg Except.ok (Prod.ext rfl h.2))
      rw [alignment, hfill', Except.ok.inj hok, ← h.1]
    cases s with
    | nil =>
      have hfill' : ¬ (isFill c ∧ ¬ Avoids isGlyph t') := fun h => he ⟨rfl, h⟩
      refine halign (fillAndAlign_of_not_isFill ?_) (fillAndAlign_of_not_isFill hfill')
      rintro ⟨hc, hg⟩
      obtain ⟨d, b, t, rfl, hb⟩ := exists_glyph_of_not_avoids hg
      rw [List.nil_append, fillAndAlign_of_isFill hc hb, List.append_cons] at h
      exact ne_append_cons t _ d h.2
    | cons e s =>
      have hhead : Avoids isGlyph (s ++ c :: t') ↔ Avoids isGlyph (s ++ c :: t) := by
        rw [Avoids, Avoids, head?_append_cons s t t' c]
      by_cases hfill : isFill e ∧ ¬ Avoids isGlyph (s ++ c :: t)
      · obtain ⟨d, b, u, hs, hb⟩ := exists_glyph_of_not_avoids hfill.2
        cases s with
        | nil =>
          cases hs
          rw [List.cons_append, List.nil_append, fillAndAlign_of_isFill hfill.1 hb] at h
          exact absurd h.2 (ne_append_cons t rest c)
        | cons d' s =>
          cases hs
          rw [List.cons_append, List.cons_append, fillAndAlign_of_isFill hfill.1 hb] at h
          rw [List.cons_append, List.cons_append, alignment, fillAndAlign_of_isFill hfill.1 hb,
            ← h.1, ← List.append_cancel_right h.2]
      · have hfill' : ¬ (isFill e ∧ ¬ Avoids isGlyph (s ++ c :: t')) := by rwa [hhead]
        exact halign (fillAndAlign_of_not_isFill hfill) (fillAndAlign_of_not_isFill hfill')
  fault _ h := nomatch h

theorem spec_eq :
    spec = fun s => .ok (alignment s) >>= fun ((fill, align), s) => options fill align s := rfl

theorem spec_looksAtOne : LooksAtOne (fillAfter (· = [])) spec := by
  rw [spec_eq]
  exact alignment_looksAtOne.bind_never fun a => options_looksAtOne a.1 a.2

def specAfterFlag : Bool × List Char → Except Fault (Spec × List Char)
  | (true, s) => spec s
  | (false, s) => .ok ({}, s)

theorem specAfterColon_eq :
    specAfterColon = fun s => .ok (flag ':' s) >>= specAfterFlag := rfl

theorem specAfterColon_looksAtOne : LooksAtOne (fillAfter (· = [':'])) specAfterColon := by
  rw [specAfterColon_eq]
  let except (colon : Bool) : Exceptions := if colon then fillAfter (· = []) else never
  have hafter (colon : Bool) : LooksAtOne (except colon) fun s => specAfterFlag (colon, s) := by
    cases colon with
    | true => exact spec_looksAtOne
    | false => exact .pure ({} : Spec)
  refine ((flag_looksAtOne ':').mono fun _ _ _ => False.elim).bind hafter ?_
  intro s c t t' colon rest h he
  cases colon with
  | false => exact he.elim
  | true =>
    obtain ⟨rfl, hfill⟩ := he
    have hs : s ++ c :: t = [':'] ++ c :: t := (eq_of_flag (Except.ok.inj h)).1
    exact ⟨List.append_cancel_right hs, hfill⟩

def afterPosition : Option Nat × List Char → Except Fault (Field × List Char)
  | (position, s) => do
    let (spec, s) ← specAfterColon s
    let s ← delimiter '\x7d' s
    return ({ position, spec }, s)

theorem afterPosition_looksAtOne (position : Option Nat) :
    LooksAtOne (fillAfter (· = [':'])) fun s => afterPosition (position, s) :=
  specAfterColon_looksAtOne.bind_never fun spec =>
    delimiter_bind_never (.pure ({ position, spec } : Field))

def IsPositionAndColon (s : List Char) : Prop :=
  ∃ position : Option DigitRun, s = partText DigitRun.text position ++ [':']

theorem number_afterPosition_looksAtOne :
    LooksAtOne (fillAfter IsPositionAndColon) fun s => number s >>= afterPosition := by
  refine (number_looksAtOne.mono fun _ _ _ => False.elim).bind afterPosition_looksAtOne ?_
  intro s c t t' n rest h he
  obtain ⟨rfl, hfill⟩ := he
  obtain ⟨position, hs, -, -⟩ := exists_of_number h
  rw [← List.append_assoc] at hs
  exact ⟨⟨position, List.append_cancel_right hs⟩, hfill⟩

end Reader

/-- The field has been opened and its colon read, but nothing behind it. -/
def BehindColon (s : List Char) : Prop :=
  ∃ position : Option DigitRun, s = '\x7b' :: (partText DigitRun.text position ++ [':'])

namespace Reader

theorem field_eq :
    field = fun s => delimiter '\x7b' s >>= fun s => number s >>= afterPosition := rfl

/-- A field is read with one character of lookahead, apart from a fill behind the colon. -/
theorem field_looksAtOne : LooksAtOne (fillAfter BehindColon) field := by
  rw [field_eq]
  refine delimiter_bind_looksAtOne number_afterPosition_looksAtOne ?_
  rintro s c t ⟨⟨position, rfl⟩, hfill⟩
  exact ⟨⟨position, rfl⟩, hfill⟩

end Reader

end Stencil
