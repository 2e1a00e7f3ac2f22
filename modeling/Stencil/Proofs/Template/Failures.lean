import Stencil.Proofs.Registry.Failures
import Stencil.Proofs.Template.Addressing
import Stencil.Proofs.Template.Cut
import Stencil.Run.Journal

/-! # Failures of runs

A run fails with a message, or for a limit on sizes. The limits are kept if arguments and counts
keep within theirs, as each action leaves the next one with no more than that.
-/

namespace Stencil

variable {size : Nat}

def Spec.counts (s : Spec) : List Count := s.width :: s.precision.toList

def Count.IsWithin : Count → Prop
  | literal n => n ≤ countLimit
  | argument _ => True

instance : (count : Count) → Decidable count.IsWithin
  | .literal n => inferInstanceAs (Decidable (n ≤ countLimit))
  | .argument _ => inferInstanceAs (Decidable True)

/-- The counts that a field has written out, or that an argument is taken for, are within the limit.
-/
def Event.CountsWithin : Event → Prop
  | read _ _ f => ∀ count ∈ f.spec.counts, count.IsWithin
  | taken role _ v => role ≠ .field → ∀ n ∈ v.toCount.toOption, n ≤ countLimit

instance : (e : Event) → Decidable e.CountsWithin
  | .read _ _ f => inferInstanceAs (Decidable (∀ count ∈ f.spec.counts, count.IsWithin))
  | .taken role _ v =>
    inferInstanceAs (Decidable (role ≠ .field → ∀ n ∈ v.toCount.toOption, n ≤ countLimit))

section Taking

variable {heap : Heap} {args : List Value} {next next' : Nat}

theorem Magnitude.readable_of_toNat? {x : Magnitude} {n : Nat} (h : x.toNat? = some n) :
    Readable n := by
  have hunits (scale : Nat) (hs : x.scale ≤ scale) : x.units ≤ 2 ^ 53 * 2 ^ scale :=
    Nat.mul_le_mul (Nat.le_of_lt x.significand_lt) (Nat.pow_le_pow_right (by decide) hs)
  rw [toNat?, Option.ite_none_right_eq_some] at h
  obtain ⟨-, h⟩ := h
  cases h
  calc x.units / 2 ^ 1074
    _ ≤ x.units := Nat.div_le_self ..
    _ ≤ 2 ^ 53 * 2 ^ 2045 := hunits 2045 x.scale_le
    _ < 10 ^ digitLimit := by decide +kernel

theorem Value.IsWritable.of_toCount {v w : Value} (hv : v.IsWritable heap)
    (h : v.toCount = .error w) : w.IsWritable heap := by
  cases v with
  | int n =>
    rw [toCount] at h
    split at h <;> cases h
    exact hv
  | float x =>
    cases x with
    | finite negative magnitude =>
      rw [toCount] at h
      cases hm : magnitude.toNat? with
      | none =>
        rw [hm] at h
        cases h
        exact hv
      | some n =>
        simp only [hm] at h
        split at h <;> cases h
        rw [isWritable_int, Int.natAbs_neg, Int.natAbs_natCast]
        exact Magnitude.readable_of_toNat? hm
    | infinite negative | nan => cases h; exact hv
  | _ => cases h; exact hv

theorem Reference.outOfRange_isReportable {r : Reference} (hsize : args.length ≤ size)
    (hp : ∀ n ∈ r.position, Readable n) : (r.outOfRange args.length).IsReportable size := by
  obtain ⟨role, position⟩ := r
  cases position with
  | none =>
    refine ⟨trivial, fun n hn => .inr ?_⟩
    obtain rfl := List.mem_singleton.mp hn
    exact hsize
  | some p =>
    refine ⟨trivial, fun n hn => ?_⟩
    rcases List.mem_cons.mp hn with rfl | hn
    · exact .inl (hp n rfl)
    · obtain rfl := List.mem_singleton.mp hn
      exact .inr hsize

theorem take_isReportable {role : Role} {position : Option Nat} (hsize : args.length ≤ size)
    (hp : ∀ n ∈ position, Readable n) :
    FailsOnly (·.IsReportable size) ((take args role position).result next) := by
  intro e h
  obtain ⟨-, rfl⟩ := take_eq_error (r := ⟨role, position⟩) h
  exact Reference.outOfRange_isReportable hsize hp

theorem exists_of_takeCount_error {role : Role} {count : Count} {e : Failure}
    (h : (takeCount heap args role count).result next = .error e) :
    ∃ r, count.reference? role = some r ∧ r.role = role ∧
      ((args.length ≤ r.position.getD next ∧ e = r.outOfRange args.length) ∨
        ∃ v w, args[r.position.getD next]? = some v ∧ v.toCount = .error w ∧
          match w.literal heap with
          | .ok shown => e = .unusableCount role (r.position.getD next) (w.typeName heap) shown
          | .error failure => e = failure) := by
  cases count with
  | literal n => cases h
  | argument position =>
    refine ⟨⟨role, position⟩, rfl, rfl, ?_⟩
    rw [takeCount, Run.result_bind] at h
    rcases bind_eq_error_iff.mp h with ht | ⟨⟨⟨index, v⟩, next₁⟩, ht, hcount⟩
    · exact .inl (take_eq_error (r := ⟨role, position⟩) ht)
    · obtain ⟨hget, rfl, -⟩ := getElem?_of_take ht
      cases hv : v.toCount with
      | ok n =>
        simp only [hv, Run.result_pure] at hcount
        cases hcount
      | error w =>
        refine .inr ⟨v, w, hget, hv, ?_⟩
        cases hshown : w.literal heap with
        | ok shown | error failure =>
          simp only [hv, Run.result_lift, hshown] at hcount
          cases hcount
          rfl

theorem takeCount_eq_error {role : Role} {count : Count} {e : Failure}
    (hargs : ∀ v ∈ args, v.IsWritable heap)
    (h : (takeCount heap args role count).result next = .error e) :
    ∃ r, count.reference? role = some r ∧ r.role = role ∧
      ((args.length ≤ r.position.getD next ∧ e = r.outOfRange args.length) ∨
        ∃ v w shown, args[r.position.getD next]? = some v ∧ v.toCount = .error w ∧
          w.literal heap = .ok shown ∧
          e = .unusableCount role (r.position.getD next) (w.typeName heap) shown) := by
  obtain ⟨r, hr, hrole, hrange | ⟨v, w, hget, hv, he⟩⟩ := exists_of_takeCount_error h
  · exact ⟨r, hr, hrole, .inl hrange⟩
  · have hw := (hargs v (List.mem_of_getElem? hget)).of_toCount hv
    obtain ⟨shown, hshown⟩ := hw.exists_literal_eq_ok
    rw [hshown] at he
    exact ⟨r, hr, hrole, .inr ⟨v, w, shown, hget, hv, hshown, he⟩⟩

theorem takeCount_isReportable {role : Role} {count : Count} (hsize : args.length ≤ size)
    (hargs : ∀ v ∈ args, v.IsWritable heap) (hc : ∀ n ∈ count.numbers, Readable n) :
    FailsOnly (·.IsReportable size) ((takeCount heap args role count).result next) := by
  intro e h
  obtain ⟨r, hr, -, ⟨-, rfl⟩ | ⟨v, w, shown, hv, -, -, rfl⟩⟩ := takeCount_eq_error hargs h
  · cases count with
    | literal n => cases hr
    | argument position =>
      cases hr
      exact Reference.outOfRange_isReportable hsize fun n hn => hc n (Option.mem_toList.mpr hn)
  · refine ⟨trivial, fun n hn => .inr ?_⟩
    obtain rfl := List.mem_singleton.mp hn
    obtain ⟨hlt, -⟩ := List.getElem?_eq_some_iff.mp hv
    exact Nat.le_trans (Nat.le_of_lt hlt) hsize

theorem takeCount?_isReportable {role : Role} {count : Option Count} (hsize : args.length ≤ size)
    (hargs : ∀ v ∈ args, v.IsWritable heap) (hc : ∀ c ∈ count, ∀ n ∈ c.numbers, Readable n) :
    FailsOnly (·.IsReportable size) ((takeCount? heap args role count).result next) := by
  cases count with
  | none => exact .ok _
  | some c =>
    rw [takeCount?, Run.result_bind]
    exact (takeCount_isReportable hsize hargs (hc c rfl)).bind fun _ => .ok _

end Taking

structure Progress.Fits (heap : Heap) (x : Progress) : Prop where
  argument : x.argument.IsManageable heap
  width : IsCount x.width
  precision : ∀ p ∈ x.precision, IsCount p

/-- What the reader sees to of an action, and that its counts are within the limit. -/
def Action.Fits (size : Nat) : Action → Prop
  | write _ | read .. => True
  | argument position => ∀ n ∈ position, Readable n
  | width count => (∀ n ∈ count.numbers, Readable n) ∧ count.IsWithin
  | precision count => ∀ c ∈ count, (∀ n ∈ c.numbers, Readable n) ∧ c.IsWithin
  | render spec => ∃ c, spec.fill = [c]
  | fail e => e.IsReportable size

/-- Ends with what a next action can go on from, or with a failure that can be reported. -/
def Keeps (heap : Heap) (size : Nat) : Except Failure (Progress × Nat) → Prop
  | .ok (y, _) => y.Fits heap
  | .error e => e.IsReportable size

theorem Keeps.bind {heap : Heap} {first : Run Progress} {k : Progress → Run Progress} {next : Nat}
    (hfirst : (∀ e ∈ first.events next, e.CountsWithin) → Keeps heap size (first.result next))
    (he : ∀ e ∈ (first >>= k).events next, e.CountsWithin)
    (hk : ∀ y next', y.Fits heap → (∀ e ∈ (k y).events next', e.CountsWithin) →
      Keeps heap size ((k y).result next')) :
    Keeps heap size ((first >>= k).result next) := by
  cases h : first.result next with
  | error e =>
    rw [Run.events_bind_of_error h] at he
    have hfail := hfirst he
    rw [h] at hfail
    rw [Run.result_bind, h]
    exact hfail
  | ok ending =>
    obtain ⟨y, next'⟩ := ending
    rw [Run.events_bind h, List.forall_mem_append] at he
    have hy := hfirst he.1
    rw [h] at hy
    rw [Run.result_bind, h]
    exact hk y next' hy he.2

section Actions

variable {heap : Heap} {args : List Value} {registry : Registry} {next next' : Nat}
  {x y : Progress} {action : Action}

theorem isCount_natCast {n : Nat} (h : n ≤ countLimit) : IsCount n :=
  ⟨Int.natCast_nonneg n, Int.ofNat_le.mpr h⟩

theorem isCount_of_takeCount {role : Role} {count : Count} {n : Nat} (hrole : role ≠ .field)
    (hc : count.IsWithin) (he : ∀ e ∈ (action.run heap args registry x).events next, e.CountsWithin)
    (hr : ∀ r, count.reference? role = some r → action.reference? = some r)
    (h : (takeCount heap args role count).result next = .ok (n, next')) : IsCount n := by
  rcases takeCount_eq_ok h with ⟨rfl, -⟩ | ⟨position, index, v, rfl, ht, hv⟩
  · exact isCount_natCast hc
  · obtain ⟨hget, rfl, -⟩ := getElem?_of_take ht
    have hwithin := he _ (events_run_of_getElem? (hr _ rfl) hget ▸ List.mem_singleton_self _)
    exact isCount_natCast (hwithin hrole n (by rw [hv]; rfl))

variable (hargs : ∀ v ∈ args, v.IsManageable heap) (hsize : args.length ≤ size)
  (hr : ∀ r ∈ registry, r.IsReliable heap size)

include hargs in
theorem fits_of_run (ha : action.Fits size) (hx : x.Fits heap)
    (he : ∀ e ∈ (action.run heap args registry x).events next, e.CountsWithin)
    (h : (action.run heap args registry x).result next = .ok (y, next')) : y.Fits heap := by
  have hrun := Action.run_eq_ok h
  cases action with
  | write text | read source offset f =>
    obtain ⟨rfl, -⟩ := hrun
    exact ⟨hx.argument, hx.width, hx.precision⟩
  | argument position =>
    obtain ⟨index, v, ht, rfl⟩ := hrun
    have hv := List.mem_of_getElem? (getElem?_of_take ht).1
    exact ⟨hargs v hv, hx.width, hx.precision⟩
  | width count =>
    obtain ⟨n, hn, rfl⟩ := hrun
    have hcount := isCount_of_takeCount (by decide) ha.2 he (fun r hr => hr) hn
    exact ⟨hx.argument, hcount, hx.precision⟩
  | precision count =>
    obtain ⟨n, hn, rfl⟩ := hrun
    refine ⟨hx.argument, hx.width, fun p hp => ?_⟩
    rcases takeCount?_eq_ok hn with ⟨rfl, rfl, -⟩ | ⟨c, m, rfl, rfl, hm⟩
    · cases hp
    · cases hp
      exact isCount_of_takeCount (by decide) (ha c rfl).2 he (fun r hr => hr) hm
  | render spec =>
    obtain ⟨shown, -, rfl, -⟩ := hrun
    exact ⟨hx.argument, hx.width, hx.precision⟩
  | fail e => exact hrun.elim

include hargs hsize hr

theorem run_isReportable (ha : action.Fits size) (hx : x.Fits heap) :
    FailsOnly (·.IsReportable size) ((action.run heap args registry x).result next) := by
  have hwritable (v : Value) (hv : v ∈ args) := (hargs v hv).isWritable
  cases action with
  | write text | read source offset f => exact .ok _
  | argument position =>
    rw [Action.run, Run.result_bind]
    exact (take_isReportable hsize ha).bind fun _ => .ok _
  | width count =>
    rw [Action.run, Run.result_bind]
    exact (takeCount_isReportable hsize hwritable ha.1).bind fun _ => .ok _
  | precision count =>
    rw [Action.run, Run.result_bind]
    exact (takeCount?_isReportable hsize hwritable fun c hc => (ha c hc).1).bind fun _ => .ok _
  | render spec =>
    have hp : ∀ p ∈ x.precision.map Int.ofNat, IsCount p := by
      intro p hp
      obtain ⟨n, hn, rfl⟩ := Option.map_eq_some_iff.mp hp
      exact hx.precision n hn
    rw [Action.run, Run.result_bind, Run.result_lift]
    exact ((Registry.render_failsOnly hr hx.argument ha hx.width hp).map _).bind fun _ => .ok _
  | fail e => exact .error ha

/-- An action fails with a message, or the next one can go on. -/
theorem run_keeps (ha : action.Fits size) (hx : x.Fits heap)
    (he : ∀ e ∈ (action.run heap args registry x).events next, e.CountsWithin) :
    Keeps heap size ((action.run heap args registry x).result next) := by
  cases h : (action.run heap args registry x).result next with
  | error e => exact run_isReportable hargs hsize hr ha hx e h
  | ok ending => exact fits_of_run hargs ha hx he h

theorem runActions_keeps {actions : List Action} (ha : ∀ a ∈ actions, a.Fits size)
    (hx : x.Fits heap)
    (he : ∀ e ∈ (runActions heap args registry x actions).events next, e.CountsWithin) :
    Keeps heap size ((runActions heap args registry x actions).result next) := by
  induction actions generalizing x next with
  | nil => exact hx
  | cons action rest ih =>
    obtain ⟨haction, hrest⟩ := List.forall_mem_cons.mp ha
    rw [runActions] at he
    rw [runActions]
    apply Keeps.bind (fun hfirst => run_keeps hargs hsize hr haction hx hfirst) he
    exact fun y next' hy hlater => ih hrest hy hlater

end Actions

def Piece.Fits (size : Nat) (p : Piece) : Prop :=
  match p.content with
  | .literal _ => True
  | .field f => f.WellFormed ∧ ∀ n ∈ f.numbers, Readable n
  | .failure e => e.IsReportable size

theorem fits_of_mem_pieces {s : List Char} {offset : Nat} (hd : DigitRunsWithin digitLimit s)
    (hsize : offset + s.length ≤ size) : ∀ p ∈ pieces offset s, p.Fits size := by
  have hliteral : ∀ (p : Piece) t, p.content = .literal t → p.Fits size := by
    intro p t ht
    rw [Piece.Fits, ht]
    trivial
  induction s using cut_induct generalizing offset with
  | nil =>
    rw [pieces_nil]
    rintro p ⟨⟩
  | doubled c s hc ih =>
    rw [pieces_doubled offset hc, forall_glue_iff hliteral]
    apply ih hd.tail.tail
    simp only [List.length_cons] at hsize
    omega
  | plain c s hc ih =>
    rw [pieces_plain offset hc, forall_glue_iff hliteral]
    apply ih hd.tail
    rw [List.length_cons] at hsize
    omega
  | field f s hz hf ih =>
    rw [pieces_field offset f hz hf, List.forall_mem_cons]
    constructor
    · exact ⟨f.wellFormed, hf.readable⟩
    · apply ih hd.right
      rw [List.length_append] at hsize
      omega
  | unreadable s fault ho h =>
    rw [pieces_unreadable offset ho h, List.forall_mem_singleton]
    cases fault with
    | unexpected wanted rest =>
      refine ⟨trivial, fun n hn => .inr ?_⟩
      obtain rfl := List.mem_singleton.mp hn
      omega
    | tooManyDigits => exact absurd h (Reader.field_ne_tooManyDigits hd)

section Pieces

variable {heap : Heap} {args : List Value} {registry : Registry} {next : Nat} {x : Progress}

theorem Piece.Fits.actions {p : Piece} (hp : p.Fits size)
    (he : ∀ e ∈ (runActions heap args registry x p.actions).events next, e.CountsWithin) :
    ∀ a ∈ p.actions, a.Fits size := by
  obtain ⟨offset, source, content⟩ := p
  cases content with
  | literal text => exact List.forall_mem_singleton.mpr trivial
  | field f =>
    obtain ⟨hf, hn⟩ := hp
    have hread : [Event.read source offset f] <+: (runActions heap args registry x
        (Piece.actions ⟨offset, source, .field f⟩)).events next :=
      Run.events_prefix_bind (Action.run heap args registry x (.read source offset f)) _ next
    have hcounts : ∀ count ∈ f.spec.counts, count.IsWithin :=
      he _ (hread.subset (List.mem_singleton_self _))
    simp only [Piece.actions, Field.actions, List.forall_mem_cons, List.not_mem_nil,
      false_implies, implies_true, and_true]
    refine ⟨trivial, ?_, ⟨?_, ?_⟩, fun c hc => ⟨?_, ?_⟩, ?_⟩
    · exact fun n h => hn n (List.mem_append_left _ (Option.mem_toList.mpr h))
    · exact fun n h => hn n (List.mem_append_right _ (List.mem_append_left _ h))
    · exact hcounts _ (List.mem_cons_self ..)
    · intro n h
      refine hn n (List.mem_append_right _ (List.mem_append_right _ ?_))
      rw [Option.mem_def.mp hc]
      exact h
    · exact hcounts c (List.mem_cons_of_mem _ (Option.mem_toList.mpr hc))
    · obtain ⟨c, hc, -⟩ := hf.fill
      exact ⟨c, hc⟩
  | failure e => exact List.forall_mem_singleton.mpr hp

variable (hargs : ∀ v ∈ args, v.IsManageable heap) (hsize : args.length ≤ size)
  (hr : ∀ r ∈ registry, r.IsReliable heap size)

include hargs hsize hr in
theorem runActions_pieces_keeps {ps : List Piece} (hps : ∀ p ∈ ps, p.Fits size)
    (hx : x.Fits heap)
    (he : ∀ e ∈ (runActions heap args registry x (ps.flatMap Piece.actions)).events next,
      e.CountsWithin) :
    Keeps heap size ((runActions heap args registry x (ps.flatMap Piece.actions)).result next) := by
  induction ps generalizing x next with
  | nil => exact hx
  | cons p ps ih =>
    obtain ⟨hp, hps⟩ := List.forall_mem_cons.mp hps
    rw [List.flatMap_cons, runActions_append] at he ⊢
    apply Keeps.bind (fun hfirst => ?_) he
    · exact fun y next' hy hlater => ih hps hy hlater
    · exact runActions_keeps hargs hsize hr (hp.actions hfirst) hx hfirst

end Pieces

/-- Whatever a run of writable arguments puts into the journal has a line of text. -/
theorem exists_message_eq_ok {heap : Heap} {args : List Value} {registry : Registry}
    {t : List Char} (hargs : ∀ v ∈ args, v.IsWritable heap) :
    ∀ e ∈ (trace heap args registry t).1, ∃ line, e.message heap = .ok line := by
  intro e he
  cases e with
  | read source offset f => exact ⟨_, rfl⟩
  | taken role index v =>
    obtain ⟨before, after, hsplit⟩ := List.append_of_mem he
    rw [trace_eq_runActions] at hsplit
    obtain ⟨-, -, -, -, -, -, -, -, -, -, -, hv⟩ := exists_reference_of_taken hsplit
    obtain ⟨shown, hshown⟩ := (hargs v (List.mem_of_getElem? hv)).exists_literal_eq_ok
    exact ⟨_, by rw [Event.message, hshown]; rfl⟩

theorem Progress.fits_initial (heap : Heap) : Progress.Fits heap {} where
  argument := .of_entries?_eq_none (by rintro n ⟨⟩) rfl
  width := by decide
  precision := by rintro p ⟨⟩

/-- Formatting with the standard renderers ends with a text, or with a failure of the template or its
arguments whose message can be written. This is so unless there is an integer in an argument or a
run of digits in the template that has too many digits, a width or a precision beyond the limit, or
a container with too many levels or with more members than any store has room for. Every line of the
journal can be written too. What is written in a base is the magnitude of an integer, and so it is no
value that is refused there. -/
theorem Registry.format_isReportable {heap : Heap} {args : List Value} {t : List Char}
    (hargs : ∀ v ∈ args, v.IsManageable heap) (hheap : heap.IsWritable)
    (hdigits : DigitRunsWithin digitLimit t)
    (hcounts : ∀ e ∈ (trace heap args standard t).1, e.CountsWithin) :
    ((∃ text, (standard).format heap args t = .ok text) ∨
      ∃ e, (standard).format heap args t = .error e ∧
        e.IsReportable (max t.length args.length)) ∧
    (∀ e ∈ (trace heap args standard t).1, ∃ line, e.message heap = .ok line) ∧
    ∀ n : Int, (Value.int n.natAbs).toNatural heap = .ok n.natAbs := by
  refine ⟨?_, exists_message_eq_ok fun v hv => (hargs v hv).isWritable, ?_⟩
  · have hpieces : ∀ p ∈ pieces 0 t, p.Fits (max t.length args.length) :=
      fits_of_mem_pieces hdigits (by omega)
    have hreliable : ∀ r ∈ standard, r.IsReliable heap (max t.length args.length) :=
      standard_isReliable hheap (by decide) (by decide)
    rw [trace_eq_runActions] at hcounts
    have hkeeps := runActions_pieces_keeps hargs (Nat.le_max_right ..) hreliable hpieces
      (Progress.fits_initial heap) hcounts
    rw [Registry.format, trace_eq_runActions, actions]
    cases h : (runActions heap args standard {} ((pieces 0 t).flatMap Piece.actions)).result 0 with
    | ok ending => exact .inl ⟨_, rfl⟩
    | error e => exact .inr ⟨e, rfl, by rwa [h] at hkeeps⟩
  · exact Value.toNatural_natAbs heap

/-- A list with a dictionary in it is rendered, and after it the width is no whole number. -/
theorem Registry.format_isReportable_unusable_count :
    let heap : Heap := [.sequence .list [.int (-3), .container 1],
      .mapping .dict [(.string ['k'], .float .nan)]]
    let args := [.container 0, .float (.ofBits 0x4004000000000000)]
    let t := "\x7b:#2\x7d|\x7b0:\x7b\x7d\x7d".toList
    (∀ v ∈ args, v.IsManageable heap) ∧ heap.IsWritable ∧ DigitRunsWithin digitLimit t ∧
      (∀ e ∈ (trace heap args standard t).1, e.CountsWithin) ∧
      (Failure.unusableCount .width 1 "float".toList "2.5".toList).IsReportable
        (max t.length args.length) := by
  intro heap args t
  have hdict : (Value.container 1).IsWritable heap := by
    apply Value.isWritable_container.mpr
    change ∀ v ∈ [Value.string ['k'], .float .nan], v.IsWritable heap
    simp only [List.forall_mem_cons]
    exact ⟨by rintro n ⟨⟩, by rintro n ⟨⟩, by rintro v ⟨⟩⟩
  have hlist : (Value.container 0).IsManageable heap := by
    constructor
    · apply Value.isWritable_container.mpr
      change ∀ v ∈ [Value.int (-3), .container 1], v.IsWritable heap
      simp only [List.forall_mem_cons]
      exact ⟨Value.isWritable_int.mpr (by decide +kernel), hdict, by rintro v ⟨⟩⟩
    · simp [heap, Value.unfold, Value.unfoldWithin, Heap.at, Container.entries?, Tree.height,
        Tree.heightIn, nestingLimit]
  have hargs : ∀ v ∈ args, v.IsManageable heap := by
    simp only [args, List.forall_mem_cons]
    exact ⟨hlist, .of_entries?_eq_none (by rintro n ⟨⟩) rfl, by rintro v ⟨⟩⟩
  have hheap : heap.IsWritable := by
    unfold Heap.IsWritable
    decide +kernel
  have hdigits : DigitRunsWithin digitLimit t := .of_length_le (by decide)
  have hcounts : ∀ e ∈ (trace heap args standard t).1, e.CountsWithin := by decide +kernel
  refine ⟨hargs, hheap, hdigits, hcounts, ?_⟩
  have hformat : (standard).format heap args t =
      .error (.unusableCount .width 1 "float".toList "2.5".toList) := by decide +kernel
  rcases (format_isReportable hargs hheap hdigits hcounts).1 with ⟨text, h⟩ | ⟨e, h, he⟩
  · rw [hformat] at h
    cases h
  · rw [hformat] at h
    cases h
    exact he

end Stencil
