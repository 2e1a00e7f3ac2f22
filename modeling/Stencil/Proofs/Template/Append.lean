import Stencil.Proofs.Template.Cut
import Stencil.Proofs.Template.Taking
import Stencil.Proofs.Tree.Limits

/-! # Templates one after the other

A run of two templates in a row is a run of the first and then of the second, from the turn that the
first has come to, as long as the first can be read to its end and the two do not meet in a doubled
brace. Nothing that comes later has a say in how the first fails.
-/

namespace Stencil

section Runs

variable (heap : Heap) (args : List Value) (registry : Registry)

theorem runPieces_glue (offset : Nat) (source text : List Char) (ps : List Piece) :
    runPieces heap args registry (glue offset source text ps) = do
      let rest ← runPieces heap args registry ps
      return Text.ofChars text ++ rest := by
  unfold glue
  split
  · simp only [runPieces, runPiece, pure_bind, bind_assoc, Text.ofChars, List.map_append,
      List.append_assoc]
  · simp only [runPieces, runPiece, pure_bind]

end Runs

def Piece.isReadable (p : Piece) : Bool :=
  match p.content with
  | .literal _ | .field _ => true
  | .failure _ => false

theorem forall_isReadable_glue_iff {offset : Nat} {source text : List Char} {ps : List Piece} :
    (∀ p ∈ glue offset source text ps, p.isReadable) ↔ ∀ p ∈ ps, p.isReadable := by
  apply forall_glue_iff
  intro p t ht
  rw [Piece.isReadable, ht]

/-- Every field of the template can be read. -/
def Walkable (template : List Char) : Prop := ∀ p ∈ pieces 0 template, p.isReadable

def scannedUnits (template : List Char) : List (List Char) :=
  (pieces 0 template).flatMap Piece.units

section Seam

variable (heap : Heap) (args : List Value) (registry : Registry) {s t : List Char} {offset : Nat}

theorem runPieces_append
    (hw : ∀ p ∈ pieces offset s, p.isReadable)
    (hs : ((pieces offset s).flatMap Piece.units).getLast? = some ['\x7d'] →
      t.head? ≠ some '\x7d') :
    runPieces heap args registry (pieces offset (s ++ t)) = do
      let text ← runPieces heap args registry (pieces offset s)
      let more ← runPieces heap args registry (pieces (offset + s.length) t)
      return text ++ more := by
  induction s using cut_induct generalizing offset with
  | nil => simp [pieces_nil, runPieces]
  | doubled c s hc ih =>
    rw [pieces_doubled offset hc, forall_isReadable_glue_iff] at hw
    rw [units_pieces_doubled offset hc] at hs
    have hs := ih hw fun h => hs (by rw [List.getLast?_cons, h]; rfl)
    have hk : offset + (c :: c :: s).length = offset + 2 + s.length := by
      simp only [List.length_cons]
      omega
    rw [List.cons_append, List.cons_append, pieces_doubled offset hc, pieces_doubled offset hc,
      runPieces_glue, runPieces_glue, hs, hk]
    simp only [bind_assoc, pure_bind, List.append_assoc]
  | plain c s hc ih =>
    rw [pieces_plain offset hc, forall_isReadable_glue_iff] at hw
    rw [units_pieces_plain offset hc] at hs
    have hct : IsPlain c (s ++ t) := by
      refine ⟨hc.1, ?_⟩
      rintro rfl
      cases s with
      | nil => exact hs (by rw [pieces_nil]; rfl)
      | cons d s => exact hc.2 rfl
    have hs := ih hw fun h => hs (by rw [List.getLast?_cons, h]; rfl)
    have hk : offset + (c :: s).length = offset + 1 + s.length := by
      rw [List.length_cons]
      omega
    rw [List.cons_append, pieces_plain offset hc, pieces_plain offset hct, runPieces_glue,
      runPieces_glue, hs, hk]
    simp only [bind_assoc, pure_bind, List.append_assoc]
  | field f s hz hf ih =>
    rw [pieces_field offset f hz hf] at hw hs
    have hs := ih (fun p hp => hw p (List.mem_cons_of_mem _ hp)) fun h => hs (by
      rw [List.flatMap_cons, List.getLast?_append, h]
      rfl)
    rw [List.append_assoc, pieces_field offset f hz hf, pieces_field offset f hz hf,
      List.length_append, ← Nat.add_assoc]
    simp only [runPieces, hs, bind_assoc, pure_bind, List.append_assoc]
  | unreadable s fault ho h =>
    rw [pieces_unreadable offset ho h] at hw
    exact absurd (hw _ (List.mem_singleton_self _)) Bool.false_ne_true

end Seam

def Piece.positions (p : Piece) : List (Option Nat) :=
  match p.content with
  | .field f => f.positions
  | .literal _ | .failure _ => []

def autoReferences (template : List Char) : Nat :=
  ((pieces 0 template).flatMap Piece.positions).count none

section Turns

variable {heap : Heap} {args : List Value} {registry : Registry} {next next' : Nat} {text : Text}

theorem next_of_runPiece {p : Piece}
    (h : (runPiece heap args registry p).result next = .ok (text, next')) :
    next' = next + p.positions.count none := by
  obtain ⟨offset, source, content⟩ := p
  cases content with
  | literal s => cases h; rfl
  | field f =>
    simp only [runPiece, Run.result_bind, Run.result_note] at h
    exact next_of_runField h
  | failure e => cases h

theorem next_of_runPieces {ps : List Piece}
    (h : (runPieces heap args registry ps).result next = .ok (text, next')) :
    next' = next + (ps.flatMap Piece.positions).count none := by
  induction ps generalizing next text with
  | nil => cases h; rfl
  | cons p ps ih =>
    simp only [runPieces, Run.result_bind] at h
    obtain ⟨⟨a, next₁⟩, hp, h⟩ := bind_eq_ok_iff.mp h
    obtain ⟨⟨b, next₂⟩, hps, h⟩ := bind_eq_ok_iff.mp h
    cases h
    rw [ih hps, next_of_runPiece hp, List.flatMap_cons, List.count_append, Nat.add_assoc]

end Turns

def Failure.shift (n : Nat) : Failure → Failure
  | malformedField wanted found offset => malformedField wanted found (offset + n)
  | e => e

def Content.shift (n : Nat) : Content → Content
  | failure e => failure (e.shift n)
  | c => c

def Piece.shift (n : Nat) (p : Piece) : Piece := ⟨p.offset + n, p.source, p.content.shift n⟩

theorem toFailure_add (fault : Fault) (offset n : Nat) (s : List Char) :
    fault.toFailure (offset + n) s = (fault.toFailure offset s).shift n := by
  cases fault with
  | unexpected wanted rest => simp only [Fault.toFailure, Failure.shift, Nat.add_right_comm]
  | tooManyDigits => rfl

theorem map_shift_glue (offset n : Nat) (source text : List Char) (ps : List Piece) :
    (glue offset source text ps).map (Piece.shift n) =
      glue (offset + n) source text (ps.map (Piece.shift n)) := by
  rcases ps with - | ⟨⟨offset', source', content⟩, ps⟩
  · rfl
  · cases content <;> rfl

theorem pieces_add (offset n : Nat) (s : List Char) :
    pieces (offset + n) s = (pieces offset s).map (Piece.shift n) := by
  induction s using cut_induct generalizing offset with
  | nil => simp [pieces_nil]
  | doubled c s hc ih =>
    rw [pieces_doubled _ hc, pieces_doubled _ hc, map_shift_glue, ← ih, Nat.add_right_comm]
  | plain c s hc ih =>
    rw [pieces_plain _ hc, pieces_plain _ hc, map_shift_glue, ← ih, Nat.add_right_comm]
  | field f s hz hf ih =>
    rw [pieces_field _ f hz hf, pieces_field _ f hz hf, List.map_cons, ← ih, Nat.add_right_comm]
    rfl
  | unreadable s fault ho h =>
    rw [pieces_unreadable _ ho h, pieces_unreadable _ ho h, toFailure_add]
    rfl

section Shift

variable (heap : Heap) (args : List Value) (registry : Registry)

/-- Whether a run gets as far as the first field that cannot be read. -/
def Registry.rendersReadable (next : Nat) (template : List Char) : Bool :=
  ((runPieces heap args registry ((pieces 0 template).takeWhile Piece.isReadable)).result next).isOk

theorem result_runPieces_cons (p : Piece) (ps : List Piece) (next : Nat) :
    (runPieces heap args registry (p :: ps)).result next =
      (runPiece heap args registry p).result next >>= fun (text, next) =>
        (runPieces heap args registry ps).result next >>= fun (more, next) =>
          .ok (text ++ more, next) := by
  simp only [runPieces, Run.result_bind, Run.result_pure]

theorem result_eq_error_of_prefix {ps qs : List Piece} {next : Nat} {e : Failure} (hp : ps <+: qs)
    (h : (runPieces heap args registry ps).result next = .error e) :
    (runPieces heap args registry qs).result next = .error e := by
  obtain ⟨rest, rfl⟩ := hp
  induction ps generalizing next with
  | nil => cases h
  | cons p ps ih =>
    rw [result_runPieces_cons, bind_eq_error_iff] at h
    rw [List.cons_append, result_runPieces_cons, bind_eq_error_iff]
    rcases h with h | ⟨⟨text, next₁⟩, hp, h⟩
    · exact .inl h
    · rcases bind_eq_error_iff.mp h with h | ⟨⟨more, next₂⟩, -, h⟩
      · exact .inr ⟨_, hp, bind_eq_error_iff.mpr (.inl (ih h))⟩
      · cases h

theorem result_runPiece_shift {p : Piece} (h : p.isReadable = true) (n next : Nat) :
    (runPiece heap args registry (p.shift n)).result next =
      (runPiece heap args registry p).result next := by
  obtain ⟨offset, source, content⟩ := p
  cases content with
  | literal s => rfl
  | field f =>
    simp only [Piece.shift, Content.shift, runPiece, Run.result_bind, Run.result_note]
  | failure e => cases h

/-- Shifting the pieces shifts the failure of the one that cannot be read, and no other. -/
theorem result_map_shift (n : Nat) (ps : List Piece) (next : Nat) :
    (runPieces heap args registry (ps.map (Piece.shift n))).result next =
      match (runPieces heap args registry ps).result next with
      | .ok r => .ok r
      | .error e => .error (if ((runPieces heap args registry
          (ps.takeWhile Piece.isReadable)).result next).isOk then e.shift n else e) := by
  induction ps generalizing next with
  | nil => rfl
  | cons p ps ih =>
    rw [List.map_cons, result_runPieces_cons, result_runPieces_cons]
    cases hp : p.isReadable with
    | true =>
      rw [List.takeWhile_cons_of_pos hp, result_runPieces_cons, result_runPiece_shift _ _ _ hp]
      rcases (runPiece heap args registry p).result next with e | ⟨text, next₁⟩
      · rfl
      · have hok : ∀ x : Except Failure (Text × Nat),
            (x >>= fun (more, next) => .ok (text ++ more, next)).isOk = x.isOk := by
          rintro (e | r) <;> rfl
        simp only [ok_bind, ih next₁, hok]
        cases (runPieces heap args registry ps).result next₁ <;> simp only [ok_bind, error_bind]
    | false =>
      rw [List.takeWhile_cons_of_neg (by simp [hp])]
      obtain ⟨offset, source, content⟩ := p
      cases content with
      | failure e => rfl
      | literal s => cases hp
      | field f => cases hp

end Shift

def Failure.Unplaced (e : Failure) : Prop := ∀ n, e.shift n = e

section Unplaced

variable {heap : Heap} {args : List Value} {registry : Registry}

theorem Failure.unplaced_iff {e : Failure} :
    e.Unplaced ↔ ∀ wanted found offset, e ≠ .malformedField wanted found offset := by
  constructor
  · rintro h wanted found offset rfl
    have := h 1
    simp [shift] at this
  · intro h n
    cases e with
    | malformedField wanted found offset => exact absurd rfl (h wanted found offset)
    | _ => rfl

theorem take_failsOnly (role : Role) (position : Option Nat) (next : Nat) :
    FailsOnly Failure.Unplaced ((take args role position).result next) := by
  intro e h
  simp only [Run.result, take] at h
  split at h
  · cases h
  · split at h <;> cases h <;> exact fun n => rfl

theorem takeCount_failsOnly (role : Role) (count : Count) (next : Nat) :
    FailsOnly Failure.Unplaced ((takeCount heap args role count).result next) := by
  cases count with
  | literal n => exact .ok _
  | argument position =>
    rw [takeCount, Run.result_bind]
    apply (take_failsOnly role position next).bind
    rintro ⟨⟨index, v⟩, next'⟩
    simp only
    split
    · exact .ok _
    · next w hw =>
      intro e h
      simp only [Run.result_lift] at h
      cases hl : w.literal heap with
      | error e' =>
        rw [hl] at h
        cases h
        rw [w.literalWithin_failsOnly heap [] e hl]
        exact fun n => rfl
      | ok s =>
        rw [hl] at h
        cases h
        exact fun n => rfl

theorem takeCount?_failsOnly (role : Role) (count : Option Count) (next : Nat) :
    FailsOnly Failure.Unplaced ((takeCount? heap args role count).result next) := by
  cases count with
  | none => exact .ok _
  | some count =>
    simp only [takeCount?, Run.result_bind]
    exact (takeCount_failsOnly role count next).bind fun _ => .ok _

variable (hr : ∀ spec width precision v,
  FailsOnly Failure.Unplaced (registry.render heap spec width precision v))

include hr

theorem runField_failsOnly (f : Field) (next : Nat) :
    FailsOnly Failure.Unplaced ((runField heap args registry f).result next) := by
  simp only [runField, Run.result_bind]
  apply (take_failsOnly _ _ _).bind
  rintro ⟨⟨index, v⟩, next₁⟩
  apply (takeCount_failsOnly _ _ _).bind
  rintro ⟨width, next₂⟩
  apply (takeCount?_failsOnly _ _ _).bind
  rintro ⟨precision, next₃⟩
  simp only [Run.result_lift]
  exact (hr f.spec width (precision.map Int.ofNat) v).map _

theorem runPiece_failsOnly {p : Piece} (hp : p.isReadable = true) (next : Nat) :
    FailsOnly Failure.Unplaced ((runPiece heap args registry p).result next) := by
  obtain ⟨offset, source, content⟩ := p
  cases content with
  | literal s => exact .ok _
  | field f =>
    simp only [runPiece, Run.result_bind, Run.result_note, ok_bind]
    exact runField_failsOnly hr f next
  | failure e => cases hp

theorem runPieces_failsOnly {ps : List Piece} (hps : ∀ p ∈ ps, p.isReadable = true) (next : Nat) :
    FailsOnly Failure.Unplaced ((runPieces heap args registry ps).result next) := by
  induction ps generalizing next with
  | nil => exact .ok _
  | cons p ps ih =>
    rw [result_runPieces_cons]
    apply (runPiece_failsOnly hr (hps p (List.mem_cons_self ..)) next).bind
    rintro ⟨text, next₁⟩
    exact (ih (fun q hq => hps q (List.mem_cons_of_mem _ hq)) next₁).bind fun _ => .ok _

end Unplaced

theorem Registry.format_eq (heap : Heap) (args : List Value) (registry : Registry)
    (template : List Char) : registry.format heap args template =
      ((runPieces heap args registry (pieces 0 template)).result 0).map (·.1) := rfl

/-- Formatting that goes on from a turn. -/
def Registry.formatFrom (heap : Heap) (args : List Value) (registry : Registry) (next : Nat)
    (template : List Char) : Except Failure Text :=
  ((runPieces heap args registry (pieces 0 template)).result next).map (·.1)

theorem Registry.unplaced_of_formatFrom {heap : Heap} {args : List Value} {registry : Registry}
    {next : Nat} {t : List Char} {e : Failure}
    (hr : ∀ spec width precision v,
      FailsOnly Failure.Unplaced (registry.render heap spec width precision v))
    (h : registry.formatFrom heap args next t = .error e)
    (hn : registry.rendersReadable heap args next t = false) : e.Unplaced := by
  rw [rendersReadable] at hn
  cases hp : (runPieces heap args registry
      ((pieces 0 t).takeWhile Piece.isReadable)).result next with
  | ok r =>
    rw [hp] at hn
    cases hn
  | error e' =>
    rw [formatFrom, result_eq_error_of_prefix heap args registry (List.takeWhile_prefix _) hp] at h
    cases h
    exact runPieces_failsOnly hr (fun p hp => List.mem_takeWhile_imp hp) next e hp

/-- Templates can be formatted one after the other. The second goes on from the turn that the first
has come to, and if a field of it cannot be read, then that is so further on. If the first fails,
then its failure is that of both. Where renderers report no malformed fields of their own, every
such report of the second template is moved. -/
theorem Registry.format_append (heap : Heap) (args : List Value) (registry : Registry)
    (s t : List Char) (hw : Walkable s)
    (hs : (scannedUnits s).getLast? = some ['\x7d'] → t.head? ≠ some '\x7d') :
    (registry.format heap args (s ++ t) =
      match registry.format heap args s with
      | .error e => .error e
      | .ok text =>
        match registry.formatFrom heap args (autoReferences s) t with
        | .ok more => .ok (text ++ more)
        | .error e => .error (if registry.rendersReadable heap args (autoReferences s) t then
            e.shift s.length else e)) ∧
    ((∀ spec width precision v wanted found offset, registry.render heap spec width precision v ≠
        .error (.malformedField wanted found offset)) →
      registry.format heap args (s ++ t) =
        match registry.format heap args s with
        | .error e => .error e
        | .ok text =>
          match registry.formatFrom heap args (autoReferences s) t with
          | .ok more => .ok (text ++ more)
          | .error e => .error (e.shift s.length)) := by
  have hgeneral : registry.format heap args (s ++ t) =
      match registry.format heap args s with
      | .error e => .error e
      | .ok text =>
        match registry.formatFrom heap args (autoReferences s) t with
        | .ok more => .ok (text ++ more)
        | .error e => .error (if registry.rendersReadable heap args (autoReferences s) t then
            e.shift s.length else e) := by
    rw [format_eq, format_eq, runPieces_append heap args registry hw hs, pieces_add,
      Run.result_bind]
    cases hr : (runPieces heap args registry (pieces 0 s)).result 0 with
    | error e => rfl
    | ok first =>
      obtain ⟨text, next⟩ := first
      obtain rfl : next = autoReferences s := (next_of_runPieces hr).trans (Nat.zero_add _)
      simp only [ok_bind, Run.result_bind, Run.result_pure, result_map_shift, Except.map]
      rw [formatFrom, rendersReadable]
      cases (runPieces heap args registry (pieces 0 t)).result (autoReferences s) <;> rfl
  refine ⟨hgeneral, fun hr => ?_⟩
  have hr : ∀ spec width precision v,
      FailsOnly Failure.Unplaced (registry.render heap spec width precision v) :=
    fun spec width precision v e he => Failure.unplaced_iff.mpr fun wanted found offset h =>
      hr spec width precision v wanted found offset (h ▸ he)
  rw [hgeneral]
  cases registry.format heap args s with
  | error e => rfl
  | ok text =>
    cases hf : registry.formatFrom heap args (autoReferences s) t with
    | ok more => rfl
    | error e =>
      cases hn : registry.rendersReadable heap args (autoReferences s) t with
      | true => rfl
      | false => simp [unplaced_of_formatFrom hr hf hn s.length]

/-- A lone brace in front of a field that takes the second argument, and one further on that is not
closed. -/
theorem Registry.format_append_lone_brace :
    let s := "\x7b\x7d \x7d".toList
    let t := "\x7b\x7d!".toList
    let u := "\x7b\x7d\x7b".toList
    Walkable s ∧ ((scannedUnits s).getLast? = some ['\x7d'] → t.head? ≠ some '\x7d') ∧
      ((scannedUnits s).getLast? = some ['\x7d'] → u.head? ≠ some '\x7d') ∧
      (standard).format [] [.string ['a'], .string ['b']] (s ++ t) =
        .ok (.ofChars "a \x7db!".toList) ∧
      (standard).format [] [.string ['a'], .string ['b']] (s ++ u) =
        .error (.malformedField (.delimiter '\x7d') none 7) := by
  intro s t u
  have hw : Walkable s := by
    unfold Walkable
    decide +kernel
  have ht : (scannedUnits s).getLast? = some ['\x7d'] → t.head? ≠ some '\x7d' := by decide +kernel
  have hu : (scannedUnits s).getLast? = some ['\x7d'] → u.head? ≠ some '\x7d' := by decide +kernel
  refine ⟨hw, ht, hu, ?_, ?_⟩
  · refine (format_append [] [.string ['a'], .string ['b']] standard s t hw ht).1.trans ?_
    decide +kernel
  · refine (format_append [] [.string ['a'], .string ['b']] standard s u hw hu).1.trans ?_
    decide +kernel

end Stencil
