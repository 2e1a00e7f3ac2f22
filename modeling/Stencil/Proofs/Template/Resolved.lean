import Stencil.Proofs.Field.Resolved
import Stencil.Proofs.Registry.Counts
import Stencil.Proofs.Template.Append

/-! # Resolved templates

A template is resolved by writing out, in every field, the index of the argument that it takes and
the counts that it gets from arguments. The resolved template has no turn to follow and no
references, and it is rendered as the template was.
-/

namespace Stencil

section Resolving

variable (heap : Heap) (args : List Value)

def resolveField (source : List Char) (f : Field) : Run (List Char) := do
  let (index, _) ← take args .field f.position
  let width ← takeCount heap args .width f.spec.width
  let precision ← takeCount? heap args .precision f.spec.precision
  return resolvedSource index (f.spec.replacements width (precision.getD 0)) source

def resolvePiece (piece : Piece) : Run (List Char) :=
  match piece.content with
  | .literal _ => pure piece.source
  | .field f => resolveField heap args piece.source f
  | .failure e => .lift (.error e)

def resolvePieces : List Piece → Run (List Char)
  | [] => pure []
  | piece :: rest => do
    let source ← resolvePiece heap args piece
    return source ++ (← resolvePieces rest)

/-- The template with everything written out that its fields take. -/
def resolved (template : List Char) : Except Failure (List Char) :=
  ((resolvePieces heap args (pieces 0 template)).result 0).map (·.1)

end Resolving

def Field.IsExplicit (f : Field) : Prop := ∃ index, f.positions = [some index]

def Event.CountFits : Event → Prop
  | read _ _ _ | taken .field _ _ => True
  | taken .width _ v | taken .precision _ v => ∀ n ∈ v.toCount.toOption, n < 10 ^ digitLimit

instance (e : Event) : Decidable e.CountFits := by
  unfold Event.CountFits
  split <;> infer_instance

section Field

variable {heap : Heap} {args : List Value} {registry : Registry} {next next' : Nat}

theorem admits_of_takeCount {role : Role} {count : Count} {n : Nat} (hrole : role ≠ .field)
    (he : ∀ e ∈ (takeCount heap args role count).events next, e.CountFits)
    (h : (takeCount heap args role count).result next = .ok (n, next')) : count.Admits n := by
  rcases takeCount_eq_ok h with ⟨rfl, -⟩ | ⟨position, index, v, rfl, ht, hv⟩
  · rfl
  · rw [takeCount, Run.events_bind ht, events_of_take ht] at he
    have hn : n ∈ v.toCount.toOption := by rw [hv]; rfl
    have hfits := he _ (List.mem_append_left _ (List.mem_singleton_self _))
    cases role with
    | field => exact absurd rfl hrole
    | width | precision => exact hfits n hn

theorem admits_of_takeCount? {role : Role} {count : Option Count} {n : Option Nat}
    (hrole : role ≠ .field)
    (he : ∀ e ∈ (takeCount? heap args role count).events next, e.CountFits)
    (h : (takeCount? heap args role count).result next = .ok (n, next')) :
    ∀ c ∈ count, c.Admits (n.getD 0) := by
  rcases takeCount?_eq_ok h with ⟨rfl, -, -⟩ | ⟨c, m, rfl, rfl, hm⟩
  · rintro c ⟨⟩
  · rw [takeCount?, Run.events_bind hm] at he
    rintro d ⟨⟩
    exact admits_of_takeCount hrole (fun e h => he e (List.mem_append_left _ h)) hm

theorem result_takeCount?_literal {role : Role} {count : Option Count} {n : Option Nat}
    (h : (takeCount? heap args role count).result next = .ok (n, next')) (k : Nat) :
    (takeCount? heap args role (count.map fun _ => .literal (n.getD 0))).result k = .ok (n, k) := by
  rcases takeCount?_eq_ok h with ⟨rfl, rfl, -⟩ | ⟨c, m, rfl, rfl, -⟩ <;> rfl

theorem positions_eq_nil_of_literal (count : Option Count) (n : Nat) :
    (count.map fun _ => Count.literal n).elim [] Count.positions = [] := by
  cases count <;> rfl

theorem exists_resolve {f : FieldForm} {text : Text} (hr : registry.IgnoresCounts)
    (hargs : args.length ≤ 10 ^ digitLimit) (hz : f.ZeroIsFlag) (hf : f.Fits)
    (he : ∀ e ∈ (runField heap args registry f.field).events next, e.CountFits)
    (h : (runField heap args registry f.field).result next = .ok (text, next')) :
    ∃ g : FieldForm, g.ZeroIsFlag ∧ g.Fits ∧ g.field.IsExplicit ∧
      (resolveField heap args f.text f.field).result next = .ok (g.text, next') ∧
      ∀ k, (runField heap args registry g.field).result k = .ok (text, k) := by
  obtain ⟨index, v, next₁, width, next₂, precision, hv, hw, hp, hrender⟩ := runField_eq_ok h
  rw [runField, Run.events_bind hv, Run.events_bind hw, Run.events_bind hp] at he
  simp only [List.mem_append] at he
  have hwidth : f.field.spec.width.Admits width :=
    admits_of_takeCount (by decide) (fun e h => he e (.inr (.inl h))) hw
  have hprecision : ∀ n ∈ f.field.spec.precision, n.Admits (precision.getD 0) :=
    admits_of_takeCount? (by decide) (fun e h => he e (.inr (.inr (.inl h)))) hp
  have hfield := FieldForm.field_resolve index hwidth hprecision
  obtain ⟨hi, -, -⟩ := getElem?_of_take hv
  refine ⟨f.resolve index width (precision.getD 0), FieldForm.zeroIsFlag_resolve hz, ?_, ?_, ?_, ?_⟩
  · apply FieldForm.fits_resolve hf _ hwidth hprecision
    obtain ⟨hlt, -⟩ := List.getElem?_eq_some_iff.mp hi
    omega
  · refine ⟨index, ?_⟩
    rw [hfield, Field.positions, positions_eq_nil_of_literal]
    rfl
  · simp only [resolveField, Run.result_bind, hv, hw, hp, ok_bind, Run.result_pure,
      f.resolvedSource_text]
  · intro k
    have htake : (take args .field (some index)).result k = .ok ((index, v), k) := by
      simp [take, Run.result, hi]
    have hcount : (takeCount heap args .width (.literal width)).result k = .ok (width, k) := rfl
    have hsame := registry.render_withCounts hr heap f.field.spec (.literal width)
      (f.field.spec.precision.map fun _ => .literal (precision.getD 0)) width
      (precision.map Int.ofNat) v
    rw [hrender, Spec.withCounts] at hsame
    simp only [hfield, runField, Run.result_bind, htake, ok_bind, hcount,
      result_takeCount?_literal hp, Run.result_lift, hsame]
    rfl

end Field

section Pieces

variable (heap : Heap) (args : List Value) (registry : Registry)

/-- All fields of the template are explicit, and it is rendered as the text, from any turn on and
without moving it. -/
structure IsRendering (t : List Char) (text : Text) : Prop where
  isExplicit : ∀ offset, ∀ p ∈ pieces offset t, ∀ f, p.content = .field f → f.IsExplicit
  result : ∀ offset next,
    (runPieces heap args registry (pieces offset t)).result next = .ok (text, next)

theorem resolvePieces_glue (offset : Nat) (source text : List Char) (ps : List Piece) :
    resolvePieces heap args (glue offset source text ps) = do
      let rest ← resolvePieces heap args ps
      return source ++ rest := by
  unfold glue
  split
  · simp only [resolvePieces, resolvePiece, pure_bind, bind_assoc, List.append_assoc]
  · simp only [resolvePieces, resolvePiece, pure_bind]

variable {heap args registry} {next next' : Nat} {t : List Char} {text : Text}

theorem IsRendering.nil : IsRendering heap args registry [] [] where
  isExplicit offset p hp := by
    rw [pieces_nil] at hp
    cases hp
  result offset next := by
    rw [pieces_nil]
    rfl

theorem IsRendering.glue {t' source shown : List Char} (h : IsRendering heap args registry t text)
    (ht' : ∀ offset, ∃ offset', pieces offset t' = glue offset source shown (pieces offset' t)) :
    IsRendering heap args registry t' (Text.ofChars shown ++ text) where
  isExplicit offset := by
    obtain ⟨offset', ho⟩ := ht' offset
    rw [ho, forall_glue_iff]
    · exact h.isExplicit offset'
    · intro p s hs f hf
      rw [hs] at hf
      cases hf
  result offset next := by
    obtain ⟨offset', ho⟩ := ht' offset
    rw [ho, runPieces_glue, Run.result_bind, h.result offset' next]
    rfl

theorem IsRendering.field {g : FieldForm} {shown : Text} (h : IsRendering heap args registry t text)
    (hz : g.ZeroIsFlag) (hf : g.Fits) (he : g.field.IsExplicit)
    (hg : ∀ k, (runField heap args registry g.field).result k = .ok (shown, k)) :
    IsRendering heap args registry (g.text ++ t) (shown ++ text) where
  isExplicit offset p hp f hpf := by
    rw [pieces_field offset g hz hf] at hp
    rcases List.mem_cons.mp hp with rfl | hp
    · cases hpf
      exact he
    · exact h.isExplicit _ p hp f hpf
  result offset next := by
    rw [pieces_field offset g hz hf, result_runPieces_cons]
    simp only [runPiece, Run.result_bind, Run.result_note, ok_bind, hg, h.result]

theorem runPieces_glue_eq_ok {offset : Nat} {source shown : List Char} {ps : List Piece}
    (h : (runPieces heap args registry (glue offset source shown ps)).result next =
      .ok (text, next')) :
    ∃ rest, text = Text.ofChars shown ++ rest ∧
      (runPieces heap args registry ps).result next = .ok (rest, next') ∧
      (runPieces heap args registry (glue offset source shown ps)).events next =
        (runPieces heap args registry ps).events next := by
  rw [runPieces_glue] at h ⊢
  rw [Run.result_bind] at h
  obtain ⟨⟨rest, next₁⟩, hrest, h⟩ := bind_eq_ok_iff.mp h
  cases h
  refine ⟨rest, rfl, hrest, ?_⟩
  rw [Run.events_bind hrest, Run.events_pure, List.append_nil]

theorem runPieces_field_eq_ok {offset : Nat} {source : List Char} {f : Field} {ps : List Piece}
    (h : (runPieces heap args registry (⟨offset, source, .field f⟩ :: ps)).result next =
      .ok (text, next')) :
    ∃ shown next₁ rest, text = shown ++ rest ∧
      (runField heap args registry f).result next = .ok (shown, next₁) ∧
      (runPieces heap args registry ps).result next₁ = .ok (rest, next') ∧
      (runPieces heap args registry (⟨offset, source, .field f⟩ :: ps)).events next =
        .read source offset f :: ((runField heap args registry f).events next ++
          (runPieces heap args registry ps).events next₁) := by
  have hrun : runPieces heap args registry (⟨offset, source, .field f⟩ :: ps) = do
      Run.note (.read source offset f)
      let shown ← runField heap args registry f
      let rest ← runPieces heap args registry ps
      return shown ++ rest := by
    simp only [runPieces, runPiece, bind_assoc]
  rw [hrun] at h ⊢
  simp only [Run.result_bind, Run.result_note, ok_bind] at h
  obtain ⟨⟨shown, next₁⟩, hshown, h⟩ := bind_eq_ok_iff.mp h
  obtain ⟨⟨rest, next₂⟩, hrest, h⟩ := bind_eq_ok_iff.mp h
  cases h
  refine ⟨shown, next₁, rest, rfl, hshown, hrest, ?_⟩
  rw [Run.events_bind (Run.result_note _ next), Run.events_note, Run.events_bind hshown,
    Run.events_bind hrest, Run.events_pure, List.append_nil]
  rfl

/-- A template that is rendered can be resolved, and is rendered alike then. -/
theorem exists_rendering {offset : Nat} (hr : registry.IgnoresCounts)
    (hargs : args.length ≤ 10 ^ digitLimit)
    (he : ∀ e ∈ (runPieces heap args registry (pieces offset t)).events next, e.CountFits)
    (h : (runPieces heap args registry (pieces offset t)).result next = .ok (text, next')) :
    ∃ t', (resolvePieces heap args (pieces offset t)).result next = .ok (t', next') ∧
      t'.head? = t.head? ∧ IsRendering heap args registry t' text := by
  induction t using cut_induct generalizing offset next text with
  | nil =>
    rw [pieces_nil] at h ⊢
    cases h
    exact ⟨[], rfl, rfl, .nil⟩
  | doubled c s hc ih =>
    rw [pieces_doubled offset hc] at h he ⊢
    obtain ⟨rest, rfl, hrest, hevents⟩ := runPieces_glue_eq_ok h
    obtain ⟨t', ht', -, hrendering⟩ := ih (hevents ▸ he) hrest
    refine ⟨c :: c :: t', ?_, rfl, hrendering.glue fun o => ⟨o + 2, pieces_doubled o hc t'⟩⟩
    rw [resolvePieces_glue, Run.result_bind, ht']
    rfl
  | plain c s hc ih =>
    rw [pieces_plain offset hc] at h he ⊢
    obtain ⟨rest, rfl, hrest, hevents⟩ := runPieces_glue_eq_ok h
    obtain ⟨t', ht', hhead, hrendering⟩ := ih (hevents ▸ he) hrest
    -- The resolved rest begins like the rest, so that a lone brace stays alone.
    have hct : IsPlain c t' := ⟨hc.1, hhead ▸ hc.2⟩
    refine ⟨c :: t', ?_, rfl, hrendering.glue fun o => ⟨o + 1, pieces_plain o hct⟩⟩
    rw [resolvePieces_glue, Run.result_bind, ht']
    rfl
  | field f s hz hf ih =>
    rw [pieces_field offset f hz hf] at h he ⊢
    obtain ⟨shown, next₁, rest, rfl, hshown, hrest, hevents⟩ := runPieces_field_eq_ok h
    rw [hevents] at he
    obtain ⟨g, hgz, hgf, hge, hg, hgshown⟩ := exists_resolve hr hargs hz hf
      (fun e h => he e (List.mem_cons_of_mem _ (List.mem_append_left _ h))) hshown
    obtain ⟨t', ht', -, hrendering⟩ :=
      ih (fun e h => he e (List.mem_cons_of_mem _ (List.mem_append_right _ h))) hrest
    refine ⟨g.text ++ t', ?_, rfl, hrendering.field hgz hgf hge hgshown⟩
    simp only [resolvePieces, resolvePiece, Run.result_bind, hg, ht', ok_bind, Run.result_pure]
  | unreadable s fault ho hs =>
    rw [pieces_unreadable offset ho hs] at h
    cases h

end Pieces

/-- References are a shorthand. Whatever the standard renderers make of a template they make of the
resolved one, in which nothing is left to be taken in turn and no count is a reference. No index and
no count may have more digits than can be read. -/
theorem Registry.format_resolved (heap : Heap) (args : List Value) (precision indent : Int)
    {t : List Char} {text : Text} (hargs : args.length ≤ 10 ^ digitLimit)
    (he : ∀ e ∈ (trace heap args (standard precision indent) t).1, e.CountFits)
    (h : (standard precision indent).format heap args t = .ok text) :
    ∃ t', resolved heap args t = .ok t' ∧
      (standard precision indent).format heap args t' = .ok text ∧
      ∀ p ∈ pieces 0 t', ∀ f, p.content = .field f → f.IsExplicit := by
  rw [format_eq] at h
  cases hrun : (runPieces heap args (standard precision indent) (pieces 0 t)).result 0 with
  | error e =>
    rw [hrun] at h
    cases h
  | ok result =>
    obtain ⟨shown, next⟩ := result
    rw [hrun] at h
    cases h
    obtain ⟨t', ht', -, hrendering⟩ :=
      exists_rendering (standard_ignoresCounts precision indent) hargs he hrun
    refine ⟨t', ?_, ?_, hrendering.isExplicit 0⟩
    · rw [resolved, ht']
      rfl
    · rw [format_eq, hrendering.result 0 0]
      rfl

/-- A width and a precision from arguments, and a width that is a negative zero. -/
theorem Registry.format_resolved_float_counts :
    let args := [.int 7, .float (.ofBits 0x4020000000000000), .int 2,
      .float (.ofBits 0x8000000000000000)]
    let t := "\x7b:\x7b\x7d.\x7b\x7df\x7d|\x7b0:\x7b\x7d\x7d".toList
    let text := Text.ofChars "    7.00|7".toList
    args.length ≤ 10 ^ digitLimit ∧ (∀ e ∈ (trace [] args standard t).1, e.CountFits) ∧
      (standard).format [] args t = .ok text ∧
      resolved [] args t = .ok "\x7b0:8.2f\x7d|\x7b0:\x7d".toList ∧
      (standard).format [] args "\x7b0:8.2f\x7d|\x7b0:\x7d".toList = .ok text := by
  intro args t text
  have hargs : args.length ≤ 10 ^ digitLimit := by decide +kernel
  have he : ∀ e ∈ (trace [] args standard t).1, e.CountFits := by decide +kernel
  have h : (standard).format [] args t = .ok text := by decide +kernel
  have hresolved : resolved [] args t = .ok "\x7b0:8.2f\x7d|\x7b0:\x7d".toList := by decide +kernel
  obtain ⟨t', ht', hformat, -⟩ := format_resolved [] args 6 4 hargs he h
  rw [hresolved] at ht'
  cases ht'
  exact ⟨hargs, he, h, hresolved, hformat⟩

end Stencil
