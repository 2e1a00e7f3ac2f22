import Stencil.Proofs.Template.Cut

/-! # Scanning literal text

Literal text is read from the left, one unit after the other, up to the end or to a brace that opens
a field. At every offset there is at most one unit, so each reading goes on where an earlier one has
been broken off. A scan that takes whole runs of characters at once reads the same units.
-/

namespace Stencil

variable {t : List Char} {offset stop : Nat}

theorem drop_of_append {r s : List Char} (h : t.drop offset = r ++ s) :
    t.drop (offset + r.length) = s := by
  rw [← List.drop_drop, h, List.drop_left]

/-- A unit of literal text is a character that is no brace, a brace that is written twice, or a
closing brace alone. -/
inductive LiteralUnit
  | plain (c : Char) (h : ¬ isBrace c)
  | doubled (c : Char) (h : isBrace c)
  | closing

namespace LiteralUnit

def source : LiteralUnit → List Char
  | plain c _ => [c]
  | doubled c _ => [c, c]
  | closing => ['\x7d']

def meaning : LiteralUnit → Char
  | plain c _ | doubled c _ => c
  | closing => '\x7d'

/-- The unit stands in the text at the given offset. A closing brace is alone only if the text has
no other one behind it. -/
structure IsAt (u : LiteralUnit) (t : List Char) (offset : Nat) : Prop where
  source_prefix : u.source <+: t.drop offset
  alone : u = closing → t[offset + 1]? ≠ some '\x7d'

variable {u v : LiteralUnit}

theorem length_source_pos (u : LiteralUnit) : 0 < u.source.length := by
  cases u <;> simp [source]

theorem isAt_iff : u.IsAt t offset ↔
    ∃ s, t.drop offset = u.source ++ s ∧ (u = closing → s.head? ≠ some '\x7d') := by
  have hnext (s : List Char) (hs : t.drop offset = closing.source ++ s) :
      t[offset + 1]? = s.head? := by
    rw [← List.getElem?_drop, hs, List.head?_eq_getElem?]
    rfl
  constructor
  · rintro ⟨⟨s, hs⟩, halone⟩
    refine ⟨s, hs.symm, ?_⟩
    rintro rfl
    rw [← hnext s hs.symm]
    exact halone rfl
  · rintro ⟨s, hs, halone⟩
    refine ⟨⟨s, hs.symm⟩, ?_⟩
    rintro rfl
    rw [hnext s hs]
    exact halone rfl

theorem IsAt.add_length_le (h : u.IsAt t offset) : offset + u.source.length ≤ t.length := by
  have hle := h.source_prefix.length_le
  have hpos := u.length_source_pos
  rw [List.length_drop] at hle
  omega

theorem IsAt.unique (hu : u.IsAt t offset) (hv : v.IsAt t offset) : u = v := by
  obtain ⟨s, hs, halone⟩ := isAt_iff.mp hu
  obtain ⟨s', hs', halone'⟩ := isAt_iff.mp hv
  have heq := hs.symm.trans hs'
  cases u with
  | plain c hc =>
    cases v with
    | plain d hd => cases heq; rfl
    | doubled d hd => cases heq; exact absurd hd hc
    | closing => cases heq; exact absurd (.inr rfl) hc
  | doubled c hc =>
    cases v with
    | plain d hd => cases heq; exact absurd hc hd
    | doubled d hd => cases heq; rfl
    | closing => cases heq; exact absurd rfl (halone' rfl)
  | closing =>
    cases v with
    | plain d hd => cases heq; exact absurd (.inr rfl) hd
    | doubled d hd => cases heq; exact absurd rfl (halone rfl)
    | closing => rfl

theorem literal_source_append {s : List Char} (h : u = closing → s.head? ≠ some '\x7d') :
    literal (u.source ++ s) = (u.meaning :: (literal s).1, (literal s).2) := by
  cases u with
  | plain c hc => exact literal_plain (isPlain_of_not_isBrace hc s)
  | doubled c hc => exact literal_doubled hc s
  | closing =>
    have hplain : IsPlain '\x7d' s := ⟨by decide, fun _ => h rfl⟩
    exact literal_plain hplain

theorem IsAt.literalAt_eq (h : u.IsAt t offset) :
    literalAt offset t = (u.meaning :: (literalAt (offset + u.source.length) t).1,
      u.source.length + (literalAt (offset + u.source.length) t).2) := by
  obtain ⟨s, hs, halone⟩ := isAt_iff.mp h
  have hle := length_literal_le s
  simp only [literalAt, hs, drop_of_append hs, literal_source_append halone, List.length_append,
    Prod.mk.injEq, true_and]
  omega

end LiteralUnit

/-- Where literal text ends: at the end of the text, or where a field is opened. -/
def EndsLiteral (t : List Char) (offset : Nat) : Prop :=
  t.length ≤ offset ∨ OpensField (t.drop offset)

/-- The units that are read between two offsets of the text. -/
inductive ReadsUnits (t : List Char) : Nat → List LiteralUnit → Nat → Prop
  | nil (offset : Nat) : ReadsUnits t offset [] offset
  | cons {offset stop : Nat} {u : LiteralUnit} {units : List LiteralUnit} (h : u.IsAt t offset)
      (hrest : ReadsUnits t (offset + u.source.length) units stop) :
      ReadsUnits t offset (u :: units) stop

theorem EndsLiteral.literalAt_eq (h : EndsLiteral t offset) : literalAt offset t = ([], 0) := by
  rcases h with h | h
  · rw [literalAt, List.drop_eq_nil_of_le h]
    rfl
  · rw [literalAt, literal_of_opensField h, Nat.sub_self]

theorem LiteralUnit.IsAt.not_endsLiteral {u : LiteralUnit} (h : u.IsAt t offset) :
    ¬ EndsLiteral t offset := by
  intro hend
  have hnil := congrArg Prod.fst (h.literalAt_eq.symm.trans hend.literalAt_eq)
  exact List.cons_ne_nil _ _ hnil

namespace ReadsUnits

variable {units earlier : List LiteralUnit}

theorem append {middle : Nat} {later : List LiteralUnit} (h : ReadsUnits t offset earlier middle)
    (hlater : ReadsUnits t middle later stop) : ReadsUnits t offset (earlier ++ later) stop := by
  induction h with
  | nil => exact hlater
  | cons hu _ ih => exact .cons hu (ih hlater)

theorem stop_eq (h : ReadsUnits t offset units stop) :
    stop = offset + (units.flatMap LiteralUnit.source).length := by
  induction h with
  | nil => rfl
  | cons _ _ ih => rw [ih, List.flatMap_cons, List.length_append, Nat.add_assoc]

theorem drop_eq (h : ReadsUnits t offset units stop) :
    t.drop offset = units.flatMap LiteralUnit.source ++ t.drop stop := by
  induction h with
  | nil => rfl
  | cons hu _ ih =>
    obtain ⟨s, hs, -⟩ := LiteralUnit.isAt_iff.mp hu
    rw [drop_of_append hs] at ih
    rw [List.flatMap_cons, List.append_assoc, ← ih, hs]

theorem extract_eq (h : ReadsUnits t offset units stop) :
    t.extract offset stop = units.flatMap LiteralUnit.source := by
  rw [List.extract, h.drop_eq, h.stop_eq, Nat.add_sub_cancel_left, List.take_left]

theorem stop_le (h : ReadsUnits t offset units stop) (ho : offset ≤ t.length) :
    stop ≤ t.length := by
  induction h with
  | nil => exact ho
  | cons hu _ ih => exact ih hu.add_length_le

theorem literalAt_eq (h : ReadsUnits t offset units stop) :
    literalAt offset t = (units.map LiteralUnit.meaning ++ (literalAt stop t).1,
      (units.flatMap LiteralUnit.source).length + (literalAt stop t).2) := by
  induction h with
  | nil => simp
  | cons hu _ ih =>
    rw [hu.literalAt_eq, ih, List.map_cons, List.cons_append, List.flatMap_cons,
      List.length_append, Nat.add_assoc]

theorem literalAt_of_endsLiteral (h : ReadsUnits t offset units stop) (hend : EndsLiteral t stop) :
    literalAt offset t =
      (units.map LiteralUnit.meaning, (units.flatMap LiteralUnit.source).length) := by
  rw [h.literalAt_eq, hend.literalAt_eq, List.append_nil, Nat.add_zero]

theorem exists_append {boundary : Nat} (h : ReadsUnits t offset earlier boundary)
    (hunits : ReadsUnits t offset units stop) (hend : EndsLiteral t stop) :
    ∃ later, units = earlier ++ later ∧ ReadsUnits t boundary later stop := by
  induction h generalizing units with
  | nil => exact ⟨units, rfl, hunits⟩
  | cons hu _ ih =>
    cases hunits with
    | nil => exact absurd hend hu.not_endsLiteral
    | cons hv hrest =>
      obtain rfl := hu.unique hv
      obtain ⟨later, rfl, hlater⟩ := ih hrest
      exact ⟨later, rfl, hlater⟩

theorem of_plain {run s : List Char} (hrun : ∀ c ∈ run, ¬ isBrace c)
    (hs : t.drop offset = run ++ s) :
    ReadsUnits t offset (run.pmap LiteralUnit.plain hrun) (offset + run.length) := by
  induction run generalizing offset with
  | nil => exact .nil offset
  | cons c run ih =>
    rw [List.pmap_cons, List.length_cons, Nat.add_comm run.length, ← Nat.add_assoc]
    have hc : (LiteralUnit.plain c (hrun c List.mem_cons_self)).IsAt t offset :=
      LiteralUnit.isAt_iff.mpr ⟨run ++ s, hs, nofun⟩
    have hrest : t.drop (offset + 1) = run ++ s := drop_of_append (r := [c]) hs
    exact .cons hc (ih _ hrest)

end ReadsUnits

structure Scan where
  text : List Char
  offset : Nat

namespace Scan

variable {scan next : Scan}

/-- A round takes a whole run of characters up to the next brace, and where there is none a doubled
brace or a closing brace alone. The scan is over if there is nothing to take. -/
def round? (t : List Char) (scan : Scan) : Option Scan :=
  match t.drop scan.offset with
  | [] => none
  | c :: s =>
    let run := (c :: s).takeWhile (¬ isBrace ·)
    if run ≠ [] then some ⟨scan.text ++ run, scan.offset + run.length⟩
    else if s.head? = some c then some ⟨scan.text ++ [c], scan.offset + 2⟩
    else if c = '\x7d' then some ⟨scan.text ++ [c], scan.offset + 1⟩
    else none

theorem isBrace_of_takeWhile_eq_nil {c : Char} {s : List Char}
    (h : (c :: s).takeWhile (¬ isBrace ·) = []) : isBrace c := by
  by_contra hc
  simp [hc] at h

theorem exists_units_of_round? (h : scan.round? t = some next) :
    ∃ units ≠ [], ReadsUnits t scan.offset units next.offset ∧
      next.text = scan.text ++ units.map LiteralUnit.meaning := by
  unfold round? at h
  split at h
  · cases h
  · next c s hs =>
    dsimp only at h
    split at h
    · next hne =>
      cases h
      have hplain : ∀ d ∈ (c :: s).takeWhile (¬ isBrace ·), ¬ isBrace d := by
        intro d hd
        simpa using List.mem_takeWhile_imp hd
      refine ⟨_, ?_, .of_plain hplain (hs.trans List.takeWhile_append_dropWhile.symm), ?_⟩
      · simpa using hne
      · simp [LiteralUnit.meaning, List.map_pmap]
    · next hrun =>
      have hc := isBrace_of_takeWhile_eq_nil (not_not.mp hrun)
      split at h
      · next hd =>
        cases h
        obtain ⟨r, rfl⟩ := List.head?_eq_some_iff.mp hd
        have hu : (LiteralUnit.doubled c hc).IsAt t scan.offset :=
          LiteralUnit.isAt_iff.mpr ⟨r, hs, nofun⟩
        exact ⟨_, List.cons_ne_nil _ [], .cons hu (.nil _), rfl⟩
      · next hd =>
        split at h
        · next hclosing =>
          cases h
          subst hclosing
          have hu : LiteralUnit.closing.IsAt t scan.offset :=
            LiteralUnit.isAt_iff.mpr ⟨s, hs, fun _ => hd⟩
          exact ⟨_, List.cons_ne_nil _ [], .cons hu (.nil _), rfl⟩
        · cases h

theorem endsLiteral_of_round? (h : scan.round? t = none) : EndsLiteral t scan.offset := by
  unfold round? at h
  split at h
  · next hs => exact .inl (List.drop_eq_nil_iff.mp hs)
  · next c s hs =>
    dsimp only at h
    split_ifs at h with hrun hd hclosing
    have hc := (isBrace_of_takeWhile_eq_nil (not_not.mp hrun)).resolve_right hclosing
    subst hc
    exact .inr ⟨s, hs, hd⟩

theorem offset_lt_of_round? (h : scan.round? t = some next) :
    scan.offset < next.offset ∧ next.offset ≤ t.length := by
  obtain ⟨units, hne, hreads, -⟩ := exists_units_of_round? h
  generalize next.offset = stop at hreads
  cases hreads with
  | nil => exact absurd rfl hne
  | @cons _ _ u _ hu hrest =>
    have hpos := u.length_source_pos
    have hle := hrest.stop_eq
    exact ⟨by omega, hrest.stop_le hu.add_length_le⟩

def finish (t : List Char) (scan : Scan) : Scan :=
  match h : scan.round? t with
  | some next =>
    have := offset_lt_of_round? h
    next.finish t
  | none => scan
  termination_by t.length - scan.offset

/-- A scan reads units until literal text ends. -/
theorem exists_units (t : List Char) (scan : Scan) :
    ∃ units, ReadsUnits t scan.offset units (scan.finish t).offset ∧
      (scan.finish t).text = scan.text ++ units.map LiteralUnit.meaning ∧
      EndsLiteral t (scan.finish t).offset := by
  fun_induction finish t scan with
  | case1 scan next h this ih =>
    obtain ⟨first, -, hfirst, htext⟩ := exists_units_of_round? h
    obtain ⟨units, hunits, htext', hend⟩ := ih
    refine ⟨first ++ units, hfirst.append hunits, ?_, hend⟩
    rw [htext', htext, List.append_assoc, List.map_append]
  | case2 scan h => exact ⟨[], .nil _, by simp, endsLiteral_of_round? h⟩

end Scan

/-- Literal text is unescaped unit by unit, up to the end or to a brace that opens a field. A scan
by whole runs agrees, and there is no more to scan where it stops. Taken up again behind any units
that can be read, it goes on to the same place with the units that are left. -/
theorem literalAt_unescapes {t : List Char} {start : Nat} (h : start ≤ t.length) :
    ∃ units text size, literalAt start t = (text, size) ∧
      (Scan.mk [] start).finish t = ⟨text, start + size⟩ ∧
      ReadsUnits t start units (start + size) ∧
      t.extract start (start + size) = units.flatMap LiteralUnit.source ∧
      text = units.map LiteralUnit.meaning ∧
      (start + size = t.length ∨ OpensField (t.drop (start + size))) ∧
      literalAt (start + size) t = ([], 0) ∧
      ∀ earlier boundary, ReadsUnits t start earlier boundary →
        ∃ later rest, units = earlier ++ later ∧ ReadsUnits t boundary later (start + size) ∧
          literalAt boundary t = (later.map LiteralUnit.meaning, rest) ∧
          boundary + rest = start + size := by
  obtain ⟨units, hunits, htext, hend⟩ := Scan.exists_units t ⟨[], start⟩
  generalize hscan : (Scan.mk [] start).finish t = scan at hunits htext hend
  obtain ⟨text, stop⟩ := scan
  have hstop := hunits.stop_eq
  dsimp only [List.nil_append] at hunits htext hend hstop
  subst hstop htext
  refine ⟨units, _, _, hunits.literalAt_of_endsLiteral hend, rfl, hunits, hunits.extract_eq, rfl,
    ?_, hend.literalAt_eq, ?_⟩
  · exact hend.imp_left (Nat.le_antisymm (hunits.stop_le h))
  · intro earlier boundary hearlier
    obtain ⟨later, hsplit, hlater⟩ := hearlier.exists_append hunits hend
    exact ⟨later, _, hsplit, hlater, hlater.literalAt_of_endsLiteral hend, hlater.stop_eq.symm⟩

/-- Odd runs of braces behind a field and in front of one. The scan is taken up again within the
first of them. -/
theorem literalAt_unescapes_odd_runs :
    let t := "\x7b0\x7d\x7d\x7d\x7da\x7b\x7b\x7b1\x7d".toList
    3 ≤ t.length ∧ literalAt 3 t = ("\x7d\x7da\x7b".toList, 6) ∧
      (Scan.mk [] 3).finish t = ⟨"\x7d\x7da\x7b".toList, 9⟩ ∧ OpensField (t.drop 9) ∧
      literalAt 5 t = ("\x7da\x7b".toList, 4) := by
  intro t
  have hle : 3 ≤ t.length := by decide
  have hliteral : literalAt 3 t = ("\x7d\x7da\x7b".toList, 6) := by decide
  obtain ⟨units, text, size, h, hscan, -, -, htext, hstop, -, hboundary⟩ :=
    literalAt_unescapes hle
  cases h.symm.trans hliteral
  have hdoubled : (LiteralUnit.doubled '\x7d' (.inr rfl)).IsAt t 3 :=
    LiteralUnit.isAt_iff.mpr ⟨t.drop 5, rfl, nofun⟩
  obtain ⟨later, rest, rfl, -, hlater, hrest⟩ := hboundary _ 5 (.cons hdoubled (.nil 5))
  obtain rfl : rest = 4 := by omega
  have hmeaning : later.map LiteralUnit.meaning = "\x7da\x7b".toList :=
    (List.cons.inj htext).2.symm
  exact ⟨hle, hliteral, hscan, hstop.resolve_left (by decide), hmeaning ▸ hlater⟩

end Stencil
