import Stencil.Proofs.Field.Described
import Stencil.Proofs.Template.Failures
import Stencil.Proofs.Template.Walk

/-! # Records of a run

What a run puts into its journal can be told from its template and its arguments. There is a record
for every field, once it has been read, and one for every argument that is taken for it, and where
the run fails they end with the action that has failed.
-/

namespace Stencil

variable {heap : Heap} {args : List Value} {registry : Registry} {next next' : Nat}
  {x y : Progress} {action : Action} {earlier : List Reference} {e : Failure}

/-- The records of an action that comes after other references. One that is out of range has none.
-/
def Action.records (args : List Value) (earlier : List Reference) : Action → List Event
  | read source offset f => [.read source offset f]
  | action => (action.reference?.bind fun r =>
      args[r.index earlier]?.map (.taken r.role (r.index earlier))).toList

def records (args : List Value) : List Reference → List Action → List Event
  | _, [] => []
  | earlier, action :: rest =>
    action.records args earlier ++ records args (earlier ++ action.reference?.toList) rest

theorem index_of_turn (h : next = turn earlier) (r : Reference) :
    r.index earlier = r.position.getD next := by
  rw [Reference.index, h]

theorem Action.records_of_reference? {r : Reference} (hr : action.reference? = some r) :
    action.records args earlier =
      (args[r.index earlier]?.map (.taken r.role (r.index earlier))).toList := by
  cases action with
  | read source offset f => cases hr
  | _ => simp only [records, hr]; rfl

theorem events_run_eq_records (h : next = turn earlier) :
    (action.run heap args registry x).events next = action.records args earlier := by
  cases hr : action.reference? with
  | none =>
    rw [events_run_of_reference?_eq_none x next hr]
    cases action with
    | read source offset f => rfl
    | _ => simp only [Action.records, hr]; rfl
  | some r =>
    rw [Action.records_of_reference? hr, index_of_turn h]
    cases hv : args[r.position.getD next]? with
    | none => rw [Run.events, run_of_length_le hr (List.getElem?_eq_none_iff.mp hv)]; rfl
    | some v => exact events_run_of_getElem? hr hv

theorem events_runActions {actions : List Action} (h : next = turn earlier)
    (hrun : (runActions heap args registry x actions).result next = .ok (y, next')) :
    (runActions heap args registry x actions).events next = records args earlier actions := by
  induction actions generalizing x next earlier with
  | nil => rfl
  | cons action rest ih =>
    rw [runActions, Run.result_bind] at hrun
    obtain ⟨⟨z, next₁⟩, hz, hrest⟩ := bind_eq_ok_iff.mp hrun
    have hnext : next₁ = turn (earlier ++ action.reference?.toList) := by
      rw [turn_append, ← h, next_of_run hz]
    rw [runActions, Run.events_bind hz, events_run_eq_records h, ih hnext hrest]
    rfl

/-- The causes for which an action fails after others, from the progress that they have made, with
what it has recorded by then. -/
inductive Action.Fails (heap : Heap) (args : List Value) (registry : Registry) (x : Progress)
    (earlier : List Reference) : Action → Failure → List Event → Prop
  | unreadable (e : Failure) : Fails heap args registry x earlier (.fail e) e []
  | outOfRange {action : Action} {r : Reference} (hr : action.reference? = some r)
      (h : args.length ≤ r.index earlier) :
      Fails heap args registry x earlier action (r.outOfRange args.length) []
  | unusable {action : Action} {r : Reference} {v w : Value} {shown : List Char}
      (hr : action.reference? = some r) (hrole : r.role ≠ .field)
      (hv : args[r.index earlier]? = some v) (hw : v.toCount = .error w)
      (hshown : w.literal heap = .ok shown) :
      Fails heap args registry x earlier action
        (.unusableCount r.role (r.index earlier) (w.typeName heap) shown)
        [.taken r.role (r.index earlier) v]
  | refused {spec : Spec} {e : Failure} (h : registry.render heap spec x.width
      (x.precision.map Int.ofNat) x.argument = .error e) :
      Fails heap args registry x earlier (.render spec) e []

theorem Action.Fails.records_eq {last : List Event}
    (h : action.Fails heap args registry x earlier e last) :
    action.records args earlier = last := by
  cases h with
  | unreadable | refused h => rfl
  | outOfRange hr h => rw [records_of_reference? hr, List.getElem?_eq_none h]; rfl
  | unusable hr hrole hv hw hshown => rw [records_of_reference? hr, hv]; rfl

section Writable

variable (hargs : ∀ v ∈ args, v.IsWritable heap)

include hargs

theorem fails_of_takeCount {role : Role} {count : Count} (hrole : role ≠ .field)
    (hnext : next = turn earlier)
    (ha : ∀ r, count.reference? role = some r → action.reference? = some r)
    (h : (takeCount heap args role count).result next = .error e) :
    ∃ last, action.Fails heap args registry x earlier e last := by
  obtain ⟨r, hr, rfl, ⟨hn, rfl⟩ | ⟨v, w, shown, hv, hw, hshown, rfl⟩⟩ :=
    takeCount_eq_error hargs h
  · rw [← index_of_turn hnext] at hn
    exact ⟨_, .outOfRange (ha r hr) hn⟩
  · rw [← index_of_turn hnext r] at hv ⊢
    exact ⟨_, .unusable (ha r hr) hrole hv hw hshown⟩

theorem fails_of_run (hnext : next = turn earlier)
    (h : (action.run heap args registry x).result next = .error e) :
    ∃ last, action.Fails heap args registry x earlier e last := by
  cases action with
  | write text | read source offset f => cases h
  | argument position =>
    rw [Action.run, Run.result_bind] at h
    rcases bind_eq_error_iff.mp h with ht | ⟨_, -, h₁⟩
    · obtain ⟨hn, rfl⟩ := take_eq_error (r := ⟨.field, position⟩) ht
      rw [← index_of_turn hnext] at hn
      exact ⟨_, .outOfRange rfl hn⟩
    · cases h₁
  | width count =>
    rw [Action.run, Run.result_bind] at h
    rcases bind_eq_error_iff.mp h with hc | ⟨_, -, h₁⟩
    · exact fails_of_takeCount hargs (by decide) hnext (fun r hr => hr) hc
    · cases h₁
  | precision count =>
    rw [Action.run, Run.result_bind] at h
    rcases bind_eq_error_iff.mp h with hc | ⟨_, -, h₁⟩
    · cases count with
      | none => cases hc
      | some count =>
        rw [takeCount?, Run.result_bind] at hc
        rcases bind_eq_error_iff.mp hc with hc | ⟨_, -, h₁⟩
        · exact fails_of_takeCount hargs (by decide) hnext (fun r hr => hr) hc
        · cases h₁
    · cases h₁
  | render spec =>
    rw [Action.run, Run.result_bind, Run.result_lift] at h
    cases hs : registry.render heap spec x.width (x.precision.map Int.ofNat) x.argument with
    | ok shown =>
      rw [hs] at h
      cases h
    | error failure =>
      rw [hs] at h
      cases h
      exact ⟨_, .refused hs⟩
  | fail failure =>
    cases h
    exact ⟨_, .unreadable _⟩

end Writable

theorem exists_failing_action {actions : List Action}
    (h : (runActions heap args registry x actions).result next = .error e) :
    ∃ before action after y next', actions = before ++ action :: after ∧
      (runActions heap args registry x before).result next = .ok (y, next') ∧
      (action.run heap args registry y).result next' = .error e ∧
      (runActions heap args registry x actions).events next =
        (runActions heap args registry x before).events next ++
          (action.run heap args registry y).events next' := by
  induction actions generalizing x next with
  | nil => cases h
  | cons action rest ih =>
    rw [runActions, Run.result_bind] at h
    rcases bind_eq_error_iff.mp h with ha | ⟨⟨z, next₁⟩, hz, hrest⟩
    · exact ⟨[], action, rest, x, next, rfl, rfl, ha, Run.events_bind_of_error ha _⟩
    · obtain ⟨before, failing, after, y, next', rfl, hbefore, hfailing, hevents⟩ := ih hrest
      refine ⟨action :: before, failing, after, y, next', rfl, ?_, hfailing, ?_⟩
      · rw [runActions, Run.result_bind, hz]
        exact hbefore
      · rw [runActions, Run.events_bind hz, hevents, runActions, Run.events_bind hz,
          List.append_assoc]

/-- The records end where an action fails, with what it has recorded. -/
theorem events_of_error {actions : List Action} (hargs : ∀ v ∈ args, v.IsWritable heap)
    (hnext : next = turn earlier)
    (h : (runActions heap args registry x actions).result next = .error e) :
    ∃ before action after y next' last, actions = before ++ action :: after ∧
      (runActions heap args registry x before).result next = .ok (y, next') ∧
      action.Fails heap args registry y (earlier ++ Action.references before) e last ∧
      (runActions heap args registry x actions).events next =
        records args earlier before ++ last := by
  obtain ⟨before, action, after, y, next', hsplit, hbefore, haction, hevents⟩ :=
    exists_failing_action h
  have hnext' : next' = turn (earlier ++ Action.references before) := by
    rw [turn_append, ← hnext, next_of_runActions hbefore]
  obtain ⟨last, hlast⟩ := fails_of_run hargs hnext' haction
  refine ⟨before, action, after, y, next', last, hsplit, hbefore, hlast, ?_⟩
  rw [hevents, events_runActions hnext hbefore, events_run_eq_records hnext', hlast.records_eq]

def Piece.isField (p : Piece) : Bool :=
  match p.content with
  | .field _ => true
  | .literal _ | .failure _ => false

def Event.piece? : Event → Option Piece
  | read source offset f => some ⟨offset, source, .field f⟩
  | taken .. => none

def Action.piece? : Action → Option Piece
  | read source offset f => some ⟨offset, source, .field f⟩
  | _ => none

theorem filterMap_action_records :
    (action.records args earlier).filterMap Event.piece? = action.piece?.toList := by
  have htaken (o : Option Reference) : (o.bind fun r =>
      args[r.index earlier]?.map (.taken r.role (r.index earlier))).toList.filterMap
        Event.piece? = [] := by
    rcases o with - | r
    · rfl
    · cases h : args[r.index earlier]? <;> simp [h, Event.piece?]
  cases action with
  | read source offset f | write text | render spec | fail failure => rfl
  | argument position | width count | precision count => exact htaken _

theorem filterMap_records (actions : List Action) :
    (records args earlier actions).filterMap Event.piece? =
      actions.filterMap Action.piece? := by
  induction actions generalizing earlier with
  | nil => rfl
  | cons action rest ih =>
    rw [records, List.filterMap_append, ih, filterMap_action_records, List.filterMap_cons]
    cases action.piece? <;> rfl

theorem filterMap_actions (ps : List Piece) :
    (ps.flatMap Piece.actions).filterMap Action.piece? = ps.filter Piece.isField := by
  induction ps with
  | nil => rfl
  | cons p ps ih =>
    obtain ⟨offset, source, content⟩ := p
    rw [List.flatMap_cons, List.filterMap_append, ih]
    cases content <;> rfl

variable {t : List Char}

/-- The journal has the records of the actions, up to the one that fails. -/
theorem trace_records_cut (hargs : ∀ v ∈ args, v.IsWritable heap) :
    (∃ text, registry.format heap args t = .ok text ∧
      (trace heap args registry t).1 = records args [] (actions t)) ∨
    ∃ before action after y next e last, actions t = before ++ action :: after ∧
      (runActions heap args registry {} before).result 0 = .ok (y, next) ∧
      registry.format heap args t = .error e ∧
      action.Fails heap args registry y (Action.references before) e last ∧
      (trace heap args registry t).1 = records args [] before ++ last := by
  have h0 : 0 = turn [] := rfl
  rw [Registry.format, trace_eq_runActions]
  cases h : (runActions heap args registry {} (actions t)).result 0 with
  | ok ending => exact .inl ⟨_, rfl, events_runActions h0 h⟩
  | error e =>
    obtain ⟨before, action, after, y, next, last, hsplit, hbefore, hlast, hevents⟩ :=
      events_of_error hargs h0 h
    exact .inr ⟨before, action, after, y, next, e, last, hsplit, hbefore, rfl, hlast, hevents⟩

theorem Action.Fails.filterMap_eq_nil {last : List Event}
    (h : action.Fails heap args registry x earlier e last) : last.filterMap Event.piece? = [] := by
  cases h <;> rfl

theorem isPrefix_filterMap_trace (hargs : ∀ v ∈ args, v.IsWritable heap) :
    (trace heap args registry t).1.filterMap Event.piece? <+:
      (pieces 0 t).filter Piece.isField := by
  rw [← filterMap_actions, ← actions]
  rcases trace_records_cut hargs with
    ⟨text, -, hjournal⟩ | ⟨before, action, after, y, next, e, last, hsplit, -, -, hlast, hjournal⟩
  · rw [hjournal, filterMap_records]
  · rw [hjournal, List.filterMap_append, filterMap_records, hlast.filterMap_eq_nil,
      List.append_nil, hsplit, List.filterMap_append]
    exact List.prefix_append _ _

theorem mem_pieces_of_read (hargs : ∀ v ∈ args, v.IsWritable heap) {source : List Char}
    {offset : Nat} {f : Field} (h : .read source offset f ∈ (trace heap args registry t).1) :
    ⟨offset, source, .field f⟩ ∈ pieces 0 t :=
  (List.mem_filter.mp ((isPrefix_filterMap_trace hargs).subset
    (List.mem_filterMap.mpr ⟨_, h, rfl⟩))).1

/-- The record of an event, word for word. -/
inductive Event.Reports {Level : Type} (heap : Heap) (level : Level) : Event → Record Level → Prop
  | read (source : List Char) (offset : Nat) (f : Field) :
    Reports heap level (.read source offset f)
      ⟨"brace_fmt.parser".toList, level, "parsed field ".toList ++ Quoted.literal source ++
        " at ".toList ++ natText offset ++ ": ".toList ++ f.words⟩
  | taken (role : Role) (index : Nat) {v : Value} {shown : List Char}
      (h : v.literal heap = .ok shown) :
    Reports heap level (.taken role index v)
      ⟨"brace_fmt.engine".toList, level,
        (match role with
          | .field => "field"
          | .width => "width"
          | .precision => "precision").toList ++
        " -> argument ".toList ++ natText index ++ ": ".toList ++ shown⟩

/-- A log delivers what is not below the level that is set. -/
def Log.IsThreshold {Level : Type} [LE Level] (log : Log Level) : Prop :=
  ∀ set level, log.delivers set level = true ↔ set ≤ level

section Logged

variable {Level : Type} {log : Log Level}

theorem Event.reports_of_record {event : Event} {line : Record Level}
    (h : event.record log heap = .ok line) : event.Reports heap log.debug line := by
  obtain ⟨message, hmessage, hline⟩ := bind_eq_ok_iff.mp h
  cases hline
  cases event with
  | read source offset f =>
    cases hmessage
    rw [f.description_eq_words]
    exact .read source offset f
  | taken role index v =>
    obtain ⟨shown, hshown, hmessage⟩ := bind_eq_ok_iff.mp hmessage
    cases hmessage
    cases role <;> exact .taken _ index hshown

theorem exists_record_eq_ok (log : Log Level) (hargs : ∀ v ∈ args, v.IsWritable heap) :
    ∀ e ∈ (trace heap args registry t).1, ∃ line, e.record log heap = .ok line := by
  intro e he
  obtain ⟨message, hmessage⟩ := exists_message_eq_ok hargs e he
  exact ⟨⟨e.channel, log.debug, message⟩, by rw [Event.record, hmessage]; rfl⟩

theorem forall₂_of_mapM_eq_ok {α β : Type} {f : α → Except Failure β} {as : List α} {bs : List β}
    (h : as.mapM f = .ok bs) : List.Forall₂ (fun a b => f a = .ok b) as bs := by
  induction as generalizing bs with
  | nil => cases h; exact .nil
  | cons a as ih =>
    rw [List.mapM_cons] at h
    obtain ⟨b, hb, h⟩ := bind_eq_ok_iff.mp h
    obtain ⟨bs, hbs, h⟩ := bind_eq_ok_iff.mp h
    cases h
    exact .cons hb (ih hbs)

theorem Registry.formatLogged_eq (registry : Registry) (level : Level) (t : List Char) :
    registry.formatLogged log level heap args t =
      ((if log.delivers level log.debug then (trace heap args registry t).1 else []).mapM
        (Event.record log heap)).map (·, registry.format heap args t) := by
  have hfilter (events : List Event) : events.filter (fun _ => log.delivers level log.debug) =
      if log.delivers level log.debug then events else [] := by
    cases log.delivers level log.debug <;> simp
  rw [formatLogged, Registry.format]
  simp only [hfilter]
  generalize List.mapM (Event.record log heap) _ = lines
  cases lines <;> rfl

/-- With the level for debugging, or one below it, the records tell the run as it was: there is one
for every field, once it has been read, and one for every argument that is taken for it. A run that
fails has them up to the action that fails, which has one of its own only if it has taken a count
that is not usable. The fields stand apart in the template, in the order of their records, and each
is read off its source again. With a level above there are no records, and formatting ends no other
way. No argument may hold an integer with too many digits. -/
theorem Registry.formatLogged_traces [Preorder Level] (hlog : log.IsThreshold)
    (hargs : ∀ v ∈ args, v.IsWritable heap) (t : List Char) :
    let journal := (trace heap args registry t).1
    let result := registry.format heap args t
    ((∃ text, result = .ok text ∧ journal = records args [] (actions t)) ∨
      ∃ before action after y next e last, actions t = before ++ action :: after ∧
        (runActions heap args registry {} before).result 0 = .ok (y, next) ∧
        result = .error e ∧
        action.Fails heap args registry y (Action.references before) e last ∧
        journal = records args [] before ++ last) ∧
    (journal.filterMap Event.piece?).Pairwise
      (fun p q => p.offset + p.source.length ≤ q.offset) ∧
    (∀ source offset f, .read source offset f ∈ journal →
      source = t.extract offset (offset + source.length) ∧
      Field.readAt offset t = .ok (f, source.length) ∧
      Field.readAt 0 source = .ok (f, source.length)) ∧
    (∃ lines, List.Forall₂ (Event.Reports heap log.debug) journal lines ∧
      ∀ level ≤ log.debug,
        registry.formatLogged log level heap args t = .ok (lines, result)) ∧
    ∀ level, log.debug < level → registry.formatLogged log level heap args t = .ok ([], result) := by
  intro journal result
  have hwalk : Walk t 0 (pieces 0 t) := walk_iff.mpr rfl
  refine ⟨trace_records_cut hargs, ?_, ?_, ?_, ?_⟩
  · exact hwalk.pairwise.2.sublist
      ((isPrefix_filterMap_trace hargs).sublist.trans List.filter_sublist)
  · intro source offset f h
    obtain ⟨earlier, later, hsplit⟩ := List.append_of_mem (mem_pieces_of_read hargs h)
    rw [hsplit] at hwalk
    have hsource : source = t.extract offset (offset + source.length) := hwalk.isTile.source_eq
    obtain ⟨-, -, hread : Field.readAt offset t = .ok (f, source.length)⟩ := hwalk.isTile.content
    have hagain := Field.readAt_extract hread
    rw [← hsource] at hagain
    exact ⟨hsource, hread, hagain⟩
  · obtain ⟨lines, hlines⟩ := exists_mapM_eq_ok (exists_record_eq_ok (t := t) log hargs)
    refine ⟨lines, (forall₂_of_mapM_eq_ok hlines).imp fun _ _ => Event.reports_of_record, ?_⟩
    intro level hlevel
    rw [formatLogged_eq, if_pos ((hlog _ _).mpr hlevel), hlines]
    rfl
  · intro level hlevel
    rw [formatLogged_eq, if_neg (mt (hlog _ _).mp hlevel.not_ge)]
    rfl

/-- The width of the first field is taken, and it is no whole number. -/
theorem Registry.formatLogged_traces_unusable_count :
    let args := [.int 7, .string ['x']]
    let t := "|\x7b:\x7b\x7d\x7d\x7b\x7d".toList
    let log : Log Nat := ⟨10, fun set level => decide (set ≤ level)⟩
    let result := .error (.unusableCount .width 1 "str".toList "'x'".toList)
    log.IsThreshold ∧ (∀ v ∈ args, v.IsWritable []) ∧
      standard.formatLogged log 10 [] args t = .ok ([
        ⟨"brace_fmt.parser".toList, 10, "parsed field '\x7b:\x7b\x7d\x7d' at 1: ".toList ++
          "ReplacementField(position=None, spec=FormatSpec(fill=' ', align=None, ".toList ++
          "sign=<Sign.NONE: ''>, alternate=False, zero_pad=False, ".toList ++
          "width=ArgumentRef(position=None), precision=None, ".toList ++
          "type=<ConvType.NONE: ''>, case=<Case.LOWER: 'lower'>))".toList⟩,
        ⟨"brace_fmt.engine".toList, 10, "field -> argument 0: 7".toList⟩,
        ⟨"brace_fmt.engine".toList, 10, "width -> argument 1: 'x'".toList⟩], result) ∧
      standard.formatLogged log 13 [] args t = .ok ([], result) := by
  intro args t log result
  have hlog : log.IsThreshold := fun set level => decide_eq_true_iff
  have hargs : ∀ v ∈ args, v.IsWritable [] := by
    simp only [args, List.forall_mem_cons]
    exact ⟨Value.isWritable_int.mpr (by decide +kernel), by rintro n ⟨⟩, by rintro v ⟨⟩⟩
  have hresult : standard.format [] args t = result := by decide +kernel
  have hjournal : (trace [] args standard t).1 =
      [.read "\x7b:\x7b\x7d\x7d".toList 1 ⟨none, { width := .argument none }⟩,
        .taken .field 0 (.int 7), .taken .width 1 (.string ['x'])] := by decide +kernel
  obtain ⟨-, -, -, ⟨lines, hlines, hat⟩, habove⟩ :=
    @formatLogged_traces [] args standard Nat log _ hlog hargs t
  rw [hresult] at hat habove
  refine ⟨hlog, hargs, (hat 10 le_rfl).trans ?_, habove 13 (by decide)⟩
  rw [hjournal] at hlines
  rcases hlines with - | ⟨⟨⟩, - | ⟨- | ⟨_, _, hseven⟩, - | ⟨- | ⟨_, _, hx⟩, ⟨⟩⟩⟩⟩
  have hseven' : (Value.int 7).literal [] = .ok ['7'] := by
    rw [Value.literal, Value.literalWithin]
    rfl
  have hx' : (Value.string ['x']).literal [] = .ok "'x'".toList := by
    rw [Value.literal, Value.literalWithin]
    decide
  cases hseven.symm.trans hseven'
  cases hx.symm.trans hx'
  decide +kernel

end Logged

end Stencil
