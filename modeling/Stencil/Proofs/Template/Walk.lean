import Stencil.Proofs.Field.Faults
import Stencil.Proofs.Registry.Unplaced

/-! # Walking through a template

At every offset of a template there is literal text or a brace that opens a field. So a walk that
takes literal text where there is any, and reads a field where there is none, goes on with every
step. Its pieces lie side by side until there is a field that cannot be read.
-/

namespace Stencil

variable {t : List Char} {offset : Nat}

/-- The pieces that are met from an offset on. -/
inductive Walk (t : List Char) : Nat → List Piece → Prop
  | done {offset : Nat} (h : t.length ≤ offset) : Walk t offset []
  | literal {offset size : Nat} {text : List Char} {rest : List Piece} (h : offset < t.length)
      (hl : literalAt offset t = (text, size)) (hsize : size ≠ 0)
      (hrest : Walk t (offset + size) rest) :
      Walk t offset (⟨offset, t.extract offset (offset + size), .literal text⟩ :: rest)
  | field {offset size : Nat} {text : List Char} {f : Field} {rest : List Piece}
      (h : offset < t.length) (hl : literalAt offset t = (text, 0))
      (hf : Field.readAt offset t = .ok (f, size)) (hrest : Walk t (offset + size) rest) :
      Walk t offset (⟨offset, t.extract offset (offset + size), .field f⟩ :: rest)
  | failure {offset : Nat} {text : List Char} {e : Failure} (h : offset < t.length)
      (hl : literalAt offset t = (text, 0)) (hf : Field.readAt offset t = .error e) :
      Walk t offset [⟨offset, [], .failure e⟩]

theorem literal_literal (s : List Char) : literal (literal s).2 = ([], (literal s).2) := by
  induction s using cut_induct with
  | nil => rfl
  | doubled c s hc ih => rwa [literal_doubled hc]
  | plain c s hc ih => rwa [literal_plain hc]
  | field f s =>
    have ho := literal_of_opensField (f.opensField s)
    rw [ho, ho]
  | unreadable s fault ho => rw [literal_of_opensField ho, literal_of_opensField ho]

theorem literal_ne_nil {s : List Char} (h : (literal s).2.length < s.length) :
    (literal s).1 ≠ [] := by
  induction s using cut_induct with
  | nil => cases h
  | doubled c s hc =>
    rw [literal_doubled hc]
    exact List.cons_ne_nil _ _
  | plain c s hc =>
    rw [literal_plain hc]
    exact List.cons_ne_nil _ _
  | field f s =>
    rw [literal_of_opensField (f.opensField s)] at h
    exact absurd h (Nat.lt_irrefl _)
  | unreadable s fault ho =>
    rw [literal_of_opensField ho] at h
    exact absurd h (Nat.lt_irrefl _)

theorem literalAt_eq_zero_iff (h : offset < t.length) :
    (literalAt offset t).2 = 0 ↔ OpensField (t.drop offset) := by
  have hne : t.drop offset ≠ [] := by simpa using h
  constructor
  · exact fun hs => opensField_of_length_literal hne (Nat.sub_eq_zero_iff_le.mp hs)
  · intro ho
    simp only [literalAt, literal_of_opensField ho, Nat.sub_self]

theorem drop_of_suffix {rest : List Char} (h : rest <:+ t.drop offset) :
    t.drop (offset + ((t.drop offset).length - rest.length)) = rest := by
  rw [← List.drop_drop]
  exact (List.suffix_iff_eq_drop.mp h).symm

theorem offset_add_le (h : offset < t.length) (n : Nat) :
    offset + ((t.drop offset).length - n) ≤ t.length := by
  rw [List.length_drop]
  omega

theorem take_drop_eq_extract (size : Nat) :
    (t.drop offset).take size = t.extract offset (offset + size) := by
  rw [List.extract, Nat.add_sub_cancel_left]

theorem length_extract {size : Nat} (h : offset + size ≤ t.length) :
    (t.extract offset (offset + size)).length = size := by
  rw [List.extract, List.length_take, List.length_drop]
  omega

theorem literalAt_eq_iff {text : List Char} {size : Nat} :
    literalAt offset t = (text, size) ↔ (literal (t.drop offset)).1 = text ∧
      (t.drop offset).length - (literal (t.drop offset)).2.length = size := by
  rw [literalAt, Prod.mk.injEq]

theorem size_of_literalAt {text : List Char} {size : Nat} (h : offset < t.length)
    (hl : literalAt offset t = (text, size)) : offset + size ≤ t.length := by
  obtain ⟨-, rfl⟩ := literalAt_eq_iff.mp hl
  exact offset_add_le h _

theorem drop_of_literalAt {text : List Char} {size : Nat}
    (h : literalAt offset t = (text, size)) :
    t.drop (offset + size) = (literal (t.drop offset)).2 := by
  obtain ⟨-, rfl⟩ := literalAt_eq_iff.mp h
  exact drop_of_suffix (literal_suffix _)

theorem Field.readAt_eq_ok_iff {f : Field} {size : Nat} :
    Field.readAt offset t = .ok (f, size) ↔ ∃ rest, Reader.field (t.drop offset) = .ok (f, rest) ∧
      (t.drop offset).length - rest.length = size := by
  simp only [Field.readAt]
  split
  · next f' rest hf => simp [hf]
  · next hf => simp [hf]

theorem Field.size_of_readAt {f : Field} {size : Nat} (h : Field.readAt offset t = .ok (f, size)) :
    2 ≤ size ∧ offset + size ≤ t.length := by
  obtain ⟨rest, hf, rfl⟩ := Field.readAt_eq_ok_iff.mp h
  obtain ⟨inner, hs, hrest⟩ := Reader.field_suffix hf
  have hle := hrest.length_le
  have hlen := congrArg List.length hs
  simp only [List.length_cons, List.length_drop] at hle hlen ⊢
  omega

theorem Field.readAt_extract {f : Field} {size : Nat}
    (h : Field.readAt offset t = .ok (f, size)) :
    Field.readAt 0 (t.extract offset (offset + size)) = .ok (f, size) := by
  obtain ⟨rest, hf, rfl⟩ := Field.readAt_eq_ok_iff.mp h
  obtain ⟨form, hz, hfits, hs, rfl⟩ := Reader.exists_of_field hf
  have hread := Reader.field_text hz hfits []
  rw [List.append_nil] at hread
  rw [← take_drop_eq_extract, hs, List.length_append, Nat.add_sub_cancel_right, List.take_left]
  exact Field.readAt_eq_ok_iff.mpr ⟨[], hread, rfl⟩

theorem walk_pieces (t : List Char) (offset : Nat) :
    Walk t offset (pieces offset (t.drop offset)) := by
  induction hn : t.length - offset using Nat.strongRecOn generalizing offset with
  | ind n ih =>
    subst hn
    by_cases hoffset : offset < t.length
    · have hne : t.drop offset ≠ [] := by simpa using hoffset
      rw [pieces, if_neg hne]
      by_cases hlt : (literal (t.drop offset)).2.length < (t.drop offset).length
      · have hrest := ih _ (by omega) (offset +
          ((t.drop offset).length - (literal (t.drop offset)).2.length)) rfl
        rw [drop_of_suffix (literal_suffix _)] at hrest
        dsimp only
        rw [if_pos hlt, take_drop_eq_extract]
        exact .literal hoffset rfl (by omega) hrest
      · have hl : literalAt offset t = ((literal (t.drop offset)).1, 0) :=
          literalAt_eq_iff.mpr ⟨rfl, by omega⟩
        dsimp only
        rw [if_neg hlt]
        split
        · next f rest hf =>
          have hread : Field.readAt offset t = .ok (f, (t.drop offset).length - rest.length) :=
            Field.readAt_eq_ok_iff.mpr ⟨rest, hf, rfl⟩
          have hsize := Field.size_of_readAt hread
          have hrest := ih _ (by omega) (offset + ((t.drop offset).length - rest.length)) rfl
          obtain ⟨inner, hs, hsuffix⟩ := Reader.field_suffix hf
          rw [drop_of_suffix] at hrest
          · rw [take_drop_eq_extract]
            exact .field hoffset hl hread hrest
          · rw [hs]
            exact (List.suffix_cons _ _).trans (hsuffix.trans (List.suffix_cons _ _))
        · next fault hf =>
          refine .failure hoffset hl ?_
          rw [Field.readAt, hf]
    · have hnil : t.drop offset = [] := List.drop_eq_nil_of_le (Nat.le_of_not_lt hoffset)
      rw [hnil, pieces_nil]
      exact .done (Nat.le_of_not_lt hoffset)

theorem Walk.unique {ps qs : List Piece} (hp : Walk t offset ps) (hq : Walk t offset qs) :
    ps = qs := by
  induction hp generalizing qs with
  | done h => cases hq <;> first | rfl | omega
  | literal h hl hsize hrest ih =>
    cases hq with
    | done h' => omega
    | literal h' hl' hsize' hrest' =>
      cases hl.symm.trans hl'
      rw [ih hrest']
    | field h' hl' => cases hl.symm.trans hl'; exact absurd rfl hsize
    | failure h' hl' => cases hl.symm.trans hl'; exact absurd rfl hsize
  | field h hl hf hrest ih =>
    cases hq with
    | done h' => omega
    | literal h' hl' hsize' => cases hl.symm.trans hl'; exact absurd rfl hsize'
    | field h' hl' hf' hrest' =>
      cases hf.symm.trans hf'
      rw [ih hrest']
    | failure h' hl' hf' => cases hf.symm.trans hf'
  | failure h hl hf =>
    cases hq with
    | done h' => omega
    | literal h' hl' hsize' => cases hl.symm.trans hl'; exact absurd rfl hsize'
    | field h' hl' hf' => cases hf.symm.trans hf'
    | failure h' hl' hf' => cases hf.symm.trans hf'; rfl

theorem walk_iff {ps : List Piece} : Walk t 0 ps ↔ ps = pieces 0 t := by
  constructor
  · exact fun h => h.unique (walk_pieces t 0)
  · rintro rfl
    exact walk_pieces t 0

/-- A piece of a template, between those in front of it and those behind. -/
structure IsTile (t : List Char) (earlier : List Piece) (p : Piece) (later : List Piece) :
    Prop where
  offset_eq : p.offset = (earlier.flatMap Piece.source).length
  offset_lt : p.offset < t.length
  source_eq : p.source = t.extract p.offset (p.offset + p.source.length)
  content :
    match p.content with
    | .literal text => p.source ≠ [] ∧ text ≠ [] ∧ ∀ q ∈ later.head?, ∀ u, q.content ≠ .literal u
    | .field f => OpensField (t.drop p.offset) ∧ 2 ≤ p.source.length ∧
        Field.readAt p.offset t = .ok (f, p.source.length)
    | .failure e => OpensField (t.drop p.offset) ∧ p.source = [] ∧ later = [] ∧
        Field.readAt p.offset t = .error e

theorem Walk.append {earlier later : List Piece} (h : Walk t offset (earlier ++ later))
    (hne : later ≠ []) : Walk t (offset + (earlier.flatMap Piece.source).length) later := by
  induction earlier generalizing offset with
  | nil => exact h
  | cons p ps ih =>
    rw [List.flatMap_cons, List.length_append, ← Nat.add_assoc]
    generalize hall : p :: ps ++ later = all at h
    cases h with
    | done => cases hall
    | literal h hl hsize hrest =>
      cases hall
      rw [length_extract (size_of_literalAt h hl)]
      exact ih hrest
    | field h hl hf hrest =>
      cases hall
      rw [length_extract (Field.size_of_readAt hf).2]
      exact ih hrest
    | failure h hl hf =>
      obtain ⟨-, hnil⟩ := List.append_eq_nil_iff.mp (List.cons.inj hall).2
      exact absurd hnil hne

/-- Every piece of a walk follows on the pieces before it. -/
theorem Walk.isTile {earlier later : List Piece} {p : Piece}
    (hwalk : Walk t 0 (earlier ++ p :: later)) : IsTile t earlier p later := by
  have hp := hwalk.append (List.cons_ne_nil p later)
  rw [Nat.zero_add] at hp
  generalize ho : (earlier.flatMap Piece.source).length = offset at hp
  clear hwalk
  cases hp with
  | literal h hl hsize hrest =>
    obtain ⟨htext, hsize'⟩ := literalAt_eq_iff.mp hl
    have hlen := length_extract (size_of_literalAt h hl)
    refine ⟨ho.symm, h, by rw [hlen], ?_, ?_, ?_⟩
    · rw [← List.length_pos_iff, hlen]
      exact Nat.pos_of_ne_zero hsize
    · rw [← htext]
      exact literal_ne_nil (Nat.lt_of_sub_ne_zero (hsize'.trans_ne hsize))
    · -- Where literal text ends there is none.
      intro q hq u hu
      cases hrest with
      | done => cases hq
      | literal _ hl' hne =>
        obtain ⟨-, rfl⟩ := literalAt_eq_iff.mp hl'
        rw [drop_of_literalAt hl, literal_literal, Nat.sub_self] at hne
        exact hne rfl
      | field => cases hq; cases hu
      | failure => cases hq; cases hu
  | field h hl hf hrest =>
    obtain ⟨htwo, hle⟩ := Field.size_of_readAt hf
    have hlen := length_extract hle
    have ho' := (literalAt_eq_zero_iff h).mp (congrArg Prod.snd hl)
    exact ⟨ho.symm, h, by rw [hlen], ho', by rwa [hlen], by rwa [hlen]⟩
  | failure h hl hf =>
    have ho' := (literalAt_eq_zero_iff h).mp (congrArg Prod.snd hl)
    exact ⟨ho.symm, h, by simp, ho', rfl, rfl, hf⟩

theorem Walk.length_le {ps : List Piece} (h : Walk t offset ps) (ho : offset ≤ t.length) :
    offset + ps.length ≤ t.length := by
  induction h with
  | done => exact ho
  | literal h hl hsize hrest ih =>
    have := ih (size_of_literalAt h hl)
    rw [List.length_cons]
    omega
  | field h hl hf hrest ih =>
    obtain ⟨htwo, hle⟩ := Field.size_of_readAt hf
    have := ih hle
    rw [List.length_cons]
    omega
  | failure h => exact h

theorem Walk.pairwise {ps : List Piece} (h : Walk t offset ps) :
    (∀ p ∈ ps, offset ≤ p.offset) ∧
      ps.Pairwise fun p q => p.offset + p.source.length ≤ q.offset := by
  induction h with
  | done => exact ⟨List.forall_mem_nil _, .nil⟩
  | literal h hl hsize hrest ih =>
    have hlen := length_extract (size_of_literalAt h hl)
    exact ⟨List.forall_mem_cons.mpr ⟨Nat.le_refl _, fun q hq => Nat.le_of_add_right_le (ih.1 q hq)⟩,
      List.pairwise_cons.mpr ⟨fun q hq => by simpa only [hlen] using ih.1 q hq, ih.2⟩⟩
  | field h hl hf hrest ih =>
    have hlen := length_extract (Field.size_of_readAt hf).2
    exact ⟨List.forall_mem_cons.mpr ⟨Nat.le_refl _, fun q hq => Nat.le_of_add_right_le (ih.1 q hq)⟩,
      List.pairwise_cons.mpr ⟨fun q hq => by simpa only [hlen] using ih.1 q hq, ih.2⟩⟩
  | failure => exact ⟨List.forall_mem_singleton.mpr (Nat.le_refl _), List.pairwise_singleton ..⟩

theorem sources_pieces_of_readable {s : List Char} {offset : Nat}
    (h : ∀ p ∈ pieces offset s, p.isReadable) : (pieces offset s).flatMap Piece.source = s := by
  induction s using cut_induct generalizing offset with
  | nil => rw [pieces_nil, List.flatMap_nil]
  | doubled c s hc ih =>
    rw [pieces_doubled offset hc, forall_isReadable_glue_iff] at h
    rw [pieces_doubled offset hc, sources_glue, ih h]
    rfl
  | plain c s hc ih =>
    rw [pieces_plain offset hc, forall_isReadable_glue_iff] at h
    rw [pieces_plain offset hc, sources_glue, ih h]
    rfl
  | field f s hz hf ih =>
    rw [pieces_field offset f hz hf, List.forall_mem_cons] at h
    rw [pieces_field offset f hz hf, List.flatMap_cons, ih h.2]
  | unreadable s fault ho hr =>
    rw [pieces_unreadable offset ho hr] at h
    exact absurd (h _ (List.mem_singleton_self _)) Bool.false_ne_true

theorem sources_pieces_eq_iff : (pieces 0 t).flatMap Piece.source = t ↔ Walkable t := by
  constructor
  · intro ht p hp
    obtain ⟨earlier, later, hsplit⟩ := List.append_of_mem hp
    have htile := Walk.isTile (hsplit ▸ walk_iff.mpr rfl)
    obtain ⟨offset, source, content⟩ := p
    cases content with
    | literal text => rfl
    | field f => rfl
    | failure e =>
      obtain ⟨-, rfl, rfl, -⟩ := htile.content
      have hlt := htile.offset_lt
      rw [htile.offset_eq] at hlt
      rw [hsplit] at ht
      simp only [List.flatMap_append, List.flatMap_cons, List.flatMap_nil, List.append_nil] at ht
      rw [ht] at hlt
      exact absurd hlt (Nat.lt_irrefl _)
  · exact sources_pieces_of_readable

/-- A field that has been opened is found to be malformed further on. -/
theorem Field.malformed_of_opensField {wanted : Wanted} {found : Option Char} {position : Nat}
    (ho : OpensField (t.drop offset))
    (h : Field.readAt offset t = .error (.malformedField wanted found position)) :
    wanted ≠ .delimiter '\x7b' ∧ offset < position ∧ position ≤ t.length := by
  obtain ⟨-, hposition, hread, hfault⟩ := Field.fault_of_readAt h
  obtain ⟨inner, hinner, -⟩ := ho
  rw [hinner] at hfault
  obtain ⟨read, hs, hne, hafter, -⟩ := Reader.field_faultsInside hfault
  rw [← hinner, ← hread] at hs
  obtain rfl := List.append_cancel_right hs
  have hpos := List.length_pos_iff.mpr hne
  refine ⟨?_, by omega, ?_⟩
  · rintro rfl
    simp only [Wanted.IsAfter, if_neg hne] at hafter
    exact absurd hafter (by decide)
  · rw [List.extract, List.length_take, List.length_drop] at hposition hpos
    omega

section Runs

variable {heap : Heap} {args : List Value} {registry : Registry} {next : Nat} {ps : List Piece}

theorem isReadable_of_result {r : Text × Nat}
    (h : (runPieces heap args registry ps).result next = .ok r) : ∀ p ∈ ps, p.isReadable := by
  induction ps generalizing next r with
  | nil => exact List.forall_mem_nil _
  | cons p ps ih =>
    rw [result_runPieces_cons] at h
    obtain ⟨⟨text, next₁⟩, hp, h⟩ := bind_eq_ok_iff.mp h
    obtain ⟨⟨more, next₂⟩, hps, -⟩ := bind_eq_ok_iff.mp h
    refine List.forall_mem_cons.mpr ⟨?_, ih hps⟩
    obtain ⟨offset, source, content⟩ := p
    cases content with
    | literal text => rfl
    | field f => rfl
    | failure e => cases hp

theorem unplaced_or_mem_of_result {e : Failure} (hr : ∀ r ∈ registry, r.renderer.IsUnplaced)
    (h : (runPieces heap args registry ps).result next = .error e) :
    e.Unplaced ∨ ∃ p ∈ ps, p.content = .failure e := by
  induction ps generalizing next with
  | nil => cases h
  | cons p ps ih =>
    rw [result_runPieces_cons] at h
    rcases bind_eq_error_iff.mp h with hp | ⟨⟨text, next₁⟩, -, h⟩
    · cases hc : p.isReadable with
      | true =>
        exact .inl (runPiece_failsOnly (fun _ _ _ _ => Registry.render_failsUnplaced hr) hc _ _ hp)
      | false =>
        obtain ⟨offset, source, content⟩ := p
        cases content with
        | literal text => cases hc
        | field f => cases hc
        | failure e' =>
          cases hp
          exact .inr ⟨_, List.mem_cons_self, rfl⟩
    · rcases bind_eq_error_iff.mp h with hps | ⟨r, -, h⟩
      · exact (ih hps).imp_right fun ⟨q, hq, hc⟩ => ⟨q, List.mem_cons_of_mem p hq, hc⟩
      · cases h

end Runs

/-- A walk goes on by a character at least with every step, and ends with the pieces of the
template. They tile it from its start, up to its end if every field can be read, as is so where
formatting succeeds. A field is read only where it is opened, and if it is malformed, then further
on. This is the only failure of its kind, unless there is a renderer that makes one, as no standard
renderer does. -/
theorem Registry.format_walks (t : List Char) (registry : Registry) :
    (∀ ps, Walk t 0 ps ↔ ps = pieces 0 t) ∧
    (∀ offset < t.length,
      ((literalAt offset t).2 = 0 ↔ OpensField (t.drop offset)) ∧
      offset + (literalAt offset t).2 ≤ t.length ∧
      ∀ f size, Field.readAt offset t = .ok (f, size) → 2 ≤ size ∧ offset + size ≤ t.length) ∧
    (pieces 0 t).length ≤ t.length ∧
    (∀ earlier p later, pieces 0 t = earlier ++ p :: later → IsTile t earlier p later) ∧
    ((pieces 0 t).flatMap Piece.source = t ↔ Walkable t) ∧
    (∀ heap args text, registry.format heap args t = .ok text → Walkable t) ∧
    ((∀ r ∈ registry, r.renderer.IsUnplaced) → ∀ heap args wanted found position,
      registry.format heap args t = .error (.malformedField wanted found position) →
      wanted ≠ .delimiter '\x7b' ∧ ∃ earlier p, pieces 0 t = earlier ++ [p] ∧
        p.content = .failure (.malformedField wanted found position) ∧
        OpensField (t.drop p.offset) ∧ p.offset < position ∧ position ≤ t.length) ∧
    ∀ defaultPrecision defaultIndent, ∀ r ∈ standard defaultPrecision defaultIndent,
      r.renderer.IsUnplaced := by
  have htile (earlier : List Piece) (p : Piece) (later : List Piece)
      (h : pieces 0 t = earlier ++ p :: later) : IsTile t earlier p later :=
    Walk.isTile (h ▸ walk_iff.mpr rfl)
  refine ⟨fun ps => walk_iff, fun offset ho => ⟨literalAt_eq_zero_iff ho, offset_add_le ho _,
    fun f size => Field.size_of_readAt⟩, ?_, htile, sources_pieces_eq_iff, ?_, ?_,
    fun precision indent => standard_isUnplaced precision indent (List.forall_mem_nil _)⟩
  · have hlen := (walk_iff.mpr rfl : Walk t 0 (pieces 0 t)).length_le (Nat.zero_le _)
    rwa [Nat.zero_add] at hlen
  · intro heap args text h
    rw [format_eq] at h
    cases hrun : (runPieces heap args registry (pieces 0 t)).result 0 with
    | ok r => exact isReadable_of_result hrun
    | error e =>
      rw [hrun] at h
      cases h
  · intro hr heap args wanted found position h
    rw [format_eq] at h
    cases hrun : (runPieces heap args registry (pieces 0 t)).result 0 with
    | ok r =>
      rw [hrun] at h
      cases h
    | error e =>
      rw [hrun] at h
      cases h
      rcases unplaced_or_mem_of_result hr hrun with hu | ⟨p, hp, hc⟩
      · exact absurd rfl (Failure.unplaced_iff.mp hu wanted found position)
      · obtain ⟨earlier, later, hsplit⟩ := List.append_of_mem hp
        have hcontent := (htile earlier p later hsplit).content
        rw [hc] at hcontent
        obtain ⟨ho, -, rfl, hread⟩ := hcontent
        obtain ⟨hw, hlt, hle⟩ := Field.malformed_of_opensField ho hread
        exact ⟨hw, earlier, p, hsplit, hc, ho, hlt, hle⟩

/-- Three braces in front of a field, two behind it, and a field that is not closed. -/
theorem Registry.format_walks_unclosed :
    let t := "\x7b\x7b\x7d\x7b0:>\x7b\x7d\x7d\x7d\x7d\x7b:".toList
    (standard).format [] [.int 5] t = .error (.malformedField (.delimiter '\x7d') none 14) ∧
      ∃ earlier p, pieces 0 t = earlier ++ [p] ∧ p.offset < 14 ∧ 14 ≤ t.length := by
  intro t
  have h : (standard).format [] [.int 5] t =
      .error (.malformedField (.delimiter '\x7d') none 14) := by
    decide +kernel
  obtain ⟨-, -, -, -, -, -, hmalformed, hstandard⟩ := Registry.format_walks t standard
  obtain ⟨-, earlier, p, hsplit, -, -, hlt, hle⟩ :=
    hmalformed (hstandard 6 4) [] [.int 5] _ _ _ h
  exact ⟨h, earlier, p, hsplit, hlt, hle⟩

end Stencil
