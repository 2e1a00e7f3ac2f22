import Stencil.Proofs.Template.Actions

/-! # Addressing

A reference with a position takes the argument there. One without takes the next in turn, which is
the argument at the number of references without position before it in the template. What stands
between them has no say in it.
-/

namespace Stencil

/-- What an action asks the arguments for. -/
structure Reference where
  role : Role
  position : Option Nat

/-- A count that is written out is no reference. -/
def Count.reference? (role : Role) : Count → Option Reference
  | literal _ => none
  | argument position => some ⟨role, position⟩

def Action.reference? : Action → Option Reference
  | argument position => some ⟨.field, position⟩
  | width count => count.reference? .width
  | precision count => count.bind (Count.reference? .precision)
  | write _ | read .. | render _ | fail _ => none

def Action.references (actions : List Action) : List Reference := actions.filterMap reference?

theorem Count.role_of_reference? {role : Role} {count : Count} {r : Reference}
    (h : count.reference? role = some r) : r.role = role := by
  cases count <;> cases h
  rfl

def turn (references : List Reference) : Nat := references.countP (·.position.isNone)

theorem Action.references_cons (action : Action) (rest : List Action) :
    references (action :: rest) = action.reference?.toList ++ references rest := by
  rw [references, List.filterMap_cons]
  cases action.reference? <;> rfl

theorem turn_append (as bs : List Reference) : turn (as ++ bs) = turn as + turn bs :=
  List.countP_append

/-- The index of the argument that a reference takes after others. -/
def Reference.index (r : Reference) (earlier : List Reference) : Nat :=
  r.position.getD (turn earlier)

def Reference.outOfRange (r : Reference) (available : Nat) : Failure :=
  match r.position with
  | some position => .positionOutOfRange r.role position available
  | none => .notEnoughArguments r.role available

section Actions

variable {heap : Heap} {args : List Value} {registry : Registry} {next next' : Nat}
  {x y : Progress} {action : Action} {r : Reference}

theorem take_of_getElem? {v : Value} (h : args[r.position.getD next]? = some v) :
    take args r.role r.position next = ([.taken r.role (r.position.getD next) v],
      .ok ((r.position.getD next, v), next + turn [r])) := by
  obtain ⟨role, position⟩ := r
  simp only [take, h]
  cases position <;> rfl

theorem take_of_length_le (h : args.length ≤ r.position.getD next) :
    take args r.role r.position next = ([], .error (r.outOfRange args.length)) := by
  simp only [take, List.getElem?_eq_none h]
  rfl

theorem take_eq_error {e : Failure}
    (h : (take args r.role r.position).result next = .error e) :
    args.length ≤ r.position.getD next ∧ e = r.outOfRange args.length := by
  cases hv : args[r.position.getD next]? with
  | none =>
    have hn := List.getElem?_eq_none_iff.mp hv
    rw [Run.result, take_of_length_le hn] at h
    cases h
    exact ⟨hn, rfl⟩
  | some v =>
    rw [Run.result, take_of_getElem? hv] at h
    cases h

theorem map_takeCount_eq_bind {α : Type} (f : Nat → α) {role : Role} {count : Count}
    (h : count.reference? role = some r) :
    ∃ k : Nat × Value → Run α, f <$> takeCount heap args role count =
      take args r.role r.position >>= k ∧ ∀ a next, (k a).events next = [] := by
  cases count with
  | literal n => cases h
  | argument position =>
    cases h
    refine ⟨_, map_bind .., fun (index, v) next => (Run.events_map ..).trans ?_⟩
    dsimp only
    split <;> rfl

variable (heap registry) in
theorem run_eq_bind (x : Progress) (h : action.reference? = some r) :
    ∃ k : Nat × Value → Run Progress, action.run heap args registry x =
      take args r.role r.position >>= k ∧ ∀ a next, (k a).events next = [] := by
  cases action with
  | argument position =>
    cases h
    exact ⟨_, rfl, fun a next => rfl⟩
  | width count =>
    rw [Action.run, ← map_eq_pure_bind]
    exact map_takeCount_eq_bind _ h
  | precision count =>
    obtain ⟨c, rfl, hc⟩ := Option.bind_eq_some_iff.mp h
    simp only [Action.run, takeCount?, bind_assoc, pure_bind]
    rw [← map_eq_pure_bind]
    exact map_takeCount_eq_bind _ hc
  | write text | read source offset field | render spec | fail failure => cases h

theorem events_run_of_getElem? {v : Value} (h : action.reference? = some r)
    (hv : args[r.position.getD next]? = some v) :
    (action.run heap args registry x).events next = [.taken r.role (r.position.getD next) v] := by
  obtain ⟨k, hk, hquiet⟩ := run_eq_bind heap registry x h
  rw [hk, Run.events, Run.bind_eq, take_of_getElem? hv]
  exact congrArg (_ :: ·) (hquiet _ _)

theorem run_of_length_le (h : action.reference? = some r)
    (hn : args.length ≤ r.position.getD next) :
    action.run heap args registry x next = ([], .error (r.outOfRange args.length)) := by
  obtain ⟨k, hk, -⟩ := run_eq_bind heap registry x h
  rw [hk, Run.bind_eq, take_of_length_le hn]

theorem map_takeCount_eq_ok_iff {α : Type} (f : Nat → α) {role : Role} {count : Count} {v : Value}
    {a : α} (h : count.reference? role = some r) (hv : args[r.position.getD next]? = some v) :
    (f <$> takeCount heap args role count).result next = .ok (a, next') ↔
      next' = next + turn [r] ∧ ∃ n, v.toCount = .ok n ∧ a = f n := by
  cases count with
  | literal m => cases h
  | argument position =>
    cases h
    have htake := congrArg Prod.snd (take_of_getElem? (r := ⟨role, position⟩) hv)
    rw [takeCount, map_bind, Run.result_bind, Run.result, htake, ok_bind]
    dsimp only
    cases v.toCount with
    | ok m => simp [eq_comm, and_comm]
    | error w =>
      constructor
      · intro hw
        rw [Run.result, Run.map_apply, Run.result_lift] at hw
        cases hs : w.literal heap <;> rw [hs] at hw <;> cases hw
      · rintro ⟨-, n, ⟨⟩, -⟩

/-- What a run goes on with after a reference is the argument that is taken for it. -/
theorem run_eq_ok_iff {v : Value} (h : action.reference? = some r)
    (hv : args[r.position.getD next]? = some v) :
    (action.run heap args registry x).result next = .ok (y, next') ↔ next' = next + turn [r] ∧
      match r.role with
      | .field => y = { x with argument := v }
      | .width => ∃ n, v.toCount = .ok n ∧ y = { x with width := n }
      | .precision => ∃ n, v.toCount = .ok n ∧ y = { x with precision := some n } := by
  cases action with
  | argument position =>
    cases h
    have htake := congrArg Prod.snd (take_of_getElem? (r := ⟨.field, position⟩) hv)
    rw [Action.run, Run.result_bind, Run.result, htake, ok_bind]
    simp [eq_comm, and_comm]
  | width count =>
    rw [Action.run, ← map_eq_pure_bind, count.role_of_reference? h]
    exact map_takeCount_eq_ok_iff _ h hv
  | precision count =>
    obtain ⟨c, rfl, hc⟩ := Option.bind_eq_some_iff.mp h
    simp only [Action.run, takeCount?, bind_assoc, pure_bind]
    rw [← map_eq_pure_bind, c.role_of_reference? hc]
    exact map_takeCount_eq_ok_iff _ hc hv
  | write text | read source offset field | render spec | fail failure => cases h

theorem events_run_of_reference?_eq_none (x : Progress) (next : Nat)
    (h : action.reference? = none) : (action.run heap args registry x).events next =
      match action with
      | .read source offset f => [.read source offset f]
      | _ => [] := by
  cases action with
  | write text | read source offset f | fail failure => rfl
  | argument position => cases h
  | width count =>
    cases count with
    | literal n => rfl
    | argument position => cases h
  | precision count =>
    rcases count with - | ⟨n⟩ | ⟨position⟩
    · rfl
    · rfl
    · cases h
  | render spec =>
    simp only [Action.run]
    cases hs : registry.render heap spec x.width (x.precision.map Int.ofNat) x.argument with
    | error e => exact Run.events_bind_of_error (by rw [Run.result_lift]; rfl) _
    | ok shown => exact Run.events_bind (by rw [Run.result_lift]; rfl) _

theorem events_run (x : Progress) (action : Action) (next : Nat) :
    (action.run heap args registry x).events next = [] ∨
      (∃ source offset f, (action.run heap args registry x).events next =
        [.read source offset f]) ∨
      ∃ r v, action.reference? = some r ∧ args[r.position.getD next]? = some v ∧
        (action.run heap args registry x).events next =
          [.taken r.role (r.position.getD next) v] := by
  cases h : action.reference? with
  | some r =>
    cases hv : args[r.position.getD next]? with
    | none =>
      rw [Run.events, run_of_length_le h (List.getElem?_eq_none_iff.mp hv)]
      exact .inl rfl
    | some v => exact .inr (.inr ⟨r, v, rfl, hv, events_run_of_getElem? h hv⟩)
  | none =>
    rw [events_run_of_reference?_eq_none x next h]
    cases action with
    | read source offset f => exact .inr (.inl ⟨source, offset, f, rfl⟩)
    | _ => exact .inl rfl

theorem turn_count (role : Role) (count : Count) :
    turn (count.reference? role).toList = count.positions.count none := by
  rcases count with n | - | position <;> rfl

theorem next_of_run (h : (action.run heap args registry x).result next = .ok (y, next')) :
    next' = next + turn action.reference?.toList := by
  have hrun := Action.run_eq_ok h
  cases action with
  | write text | read source offset f => exact hrun.2
  | argument position =>
    obtain ⟨index, v, ht, -⟩ := hrun
    rw [(getElem?_of_take ht).2.2]
    cases position <;> rfl
  | width count =>
    obtain ⟨n, hn, -⟩ := hrun
    rw [next_of_takeCount hn, Action.reference?, turn_count]
  | precision count =>
    obtain ⟨n, hn, -⟩ := hrun
    rcases takeCount?_eq_ok hn with ⟨rfl, -, rfl⟩ | ⟨c, m, rfl, -, hm⟩
    · rfl
    · rw [next_of_takeCount hm, Action.reference?, Option.bind_some, turn_count]
  | render spec =>
    obtain ⟨shown, -, -, hnext⟩ := hrun
    exact hnext
  | fail failure => exact hrun.elim

theorem next_of_runActions {actions : List Action}
    (h : (runActions heap args registry x actions).result next = .ok (y, next')) :
    next' = next + turn (Action.references actions) := by
  induction actions generalizing x next with
  | nil => cases h; rfl
  | cons action rest ih =>
    rw [runActions, Run.result_bind] at h
    obtain ⟨⟨z, next₁⟩, hz, h⟩ := bind_eq_ok_iff.mp h
    rw [ih h, next_of_run hz, Action.references_cons, turn_append, Nat.add_assoc]

theorem runActions_cons_apply {rest : List Action}
    {ending : List Event × Except Failure (Progress × Nat)}
    (hz : (action.run heap args registry x).result next = .ok (y, next'))
    (h : runActions heap args registry y rest next' = ending) :
    runActions heap args registry x (action :: rest) next =
      ((action.run heap args registry x).events next ++ ending.1, ending.2) := by
  have hrun : action.run heap args registry x next =
      ((action.run heap args registry x).events next, .ok (y, next')) :=
    Prod.ext rfl hz
  rw [runActions, Run.bind_eq, hrun, ← h]

/-- What is taken in a run is taken for one of the references in it. -/
theorem exists_reference_of_taken {actions : List Action} {role : Role} {index : Nat} {v : Value}
    {before after : List Event}
    (h : (runActions heap args registry x actions).events next =
      before ++ .taken role index v :: after) :
    ∃ earlier action later r y next', actions = earlier ++ action :: later ∧
      action.reference? = some r ∧
      runActions heap args registry x earlier next = (before, .ok (y, next')) ∧
      r.role = role ∧ r.position.getD next' = index ∧ args[index]? = some v := by
  induction actions generalizing x next before with
  | nil => cases before <;> cases h
  | cons action rest ih =>
    have hlater (before' : List Event)
        (hb : before = (action.run heap args registry x).events next ++ before') :
        ∃ earlier action' later r y next', action :: rest = earlier ++ action' :: later ∧
          action'.reference? = some r ∧
          runActions heap args registry x earlier next = (before, .ok (y, next')) ∧
          r.role = role ∧ r.position.getD next' = index ∧ args[index]? = some v := by
      cases hz : (action.run heap args registry x).result next with
      | error e =>
        rw [runActions, Run.events_bind_of_error hz, hb, List.append_assoc] at h
        cases before' <;> cases List.append_right_eq_self.mp h.symm
      | ok ending =>
        rw [runActions, Run.events_bind hz, hb, List.append_assoc] at h
        obtain ⟨earlier, action', later, r, y, next', rfl, hr, hrun, hv⟩ :=
          ih (List.append_cancel_left h)
        exact ⟨action :: earlier, action', later, r, y, next', rfl, hr,
          hb ▸ runActions_cons_apply hz hrun, hv⟩
    obtain ⟨more, hmore⟩ : (action.run heap args registry x).events next <+:
        before ++ .taken role index v :: after := h ▸ Run.events_prefix_bind ..
    rcases events_run x action next with he | ⟨source, offset, f, he⟩ | ⟨r, w, hr, hw, he⟩
    · exact hlater before (he ▸ rfl)
    · rw [he] at hmore
      cases before with
      | nil => cases hmore
      | cons event before' => cases hmore; exact hlater before' (he ▸ rfl)
    · rw [he] at hmore
      cases before with
      | nil => cases hmore; exact ⟨[], action, rest, r, x, next, rfl, hr, rfl, rfl, rfl, hw⟩
      | cons event before' => cases hmore; exact hlater before' (he ▸ rfl)

section Template

variable {t : List Char} {earlier later : List Action}

theorem runActions_eq_bind (ht : actions t = earlier ++ action :: later) :
    runActions heap args registry {} (actions t) =
      runActions heap args registry {} earlier >>= fun y =>
        action.run heap args registry y >>= fun z => runActions heap args registry z later := by
  rw [ht, runActions_append]
  rfl

theorem trace_of_error {e : Failure} (ht : actions t = earlier ++ action :: later)
    (h : (runActions heap args registry {} earlier).result 0 = .error e) :
    trace heap args registry t =
      ((runActions heap args registry {} earlier).events 0, .error e) := by
  rw [trace_eq_runActions, runActions_eq_bind ht, Run.events_bind_of_error h, Run.result_bind, h]
  rfl

variable (ht : actions t = earlier ++ action :: later) (hr : action.reference? = some r)
  (h : (runActions heap args registry {} earlier).result 0 = .ok (y, next))

include h in
theorem index_eq : r.index (Action.references earlier) = r.position.getD next := by
  rw [Reference.index, next_of_runActions h, Nat.zero_add]

include ht hr h

theorem trace_of_getElem? {v : Value}
    (hv : args[r.index (Action.references earlier)]? = some v) :
    (runActions heap args registry {} earlier).events 0 ++
        [.taken r.role (r.index (Action.references earlier)) v] <+:
      (trace heap args registry t).1 := by
  rw [index_eq h] at hv ⊢
  rw [trace_eq_runActions, runActions_eq_bind ht, Run.events_bind h,
    List.prefix_append_right_inj, ← events_run_of_getElem? hr hv]
  exact Run.events_prefix_bind ..

omit ht in
theorem runActions_append_eq_ok_iff {v : Value} {z : Progress}
    (hv : args[r.index (Action.references earlier)]? = some v) :
    (runActions heap args registry {} (earlier ++ [action])).result 0 = .ok (z, next') ↔
      next' = next + turn [r] ∧
      match r.role with
      | .field => z = { y with argument := v }
      | .width => ∃ n, v.toCount = .ok n ∧ z = { y with width := n }
      | .precision => ∃ n, v.toCount = .ok n ∧ z = { y with precision := some n } := by
  rw [index_eq h] at hv
  rw [runActions_append, Run.result_bind, h, ok_bind]
  simp only [runActions, bind_pure]
  exact run_eq_ok_iff hr hv

theorem trace_of_length_le (hn : args.length ≤ r.index (Action.references earlier)) :
    trace heap args registry t =
      ((runActions heap args registry {} earlier).events 0,
        .error (r.outOfRange args.length)) := by
  rw [index_eq h] at hn
  have hrun : action.run heap args registry y next = ([], .error (r.outOfRange args.length)) :=
    run_of_length_le hr hn
  have hevents : (action.run heap args registry y).events next = [] := congrArg Prod.fst hrun
  have hresult : (action.run heap args registry y).result next =
      .error (r.outOfRange args.length) := congrArg Prod.snd hrun
  rw [trace_eq_runActions, runActions_eq_bind ht, Run.events_bind h,
    Run.events_bind_of_error hresult, hevents, List.append_nil, Run.result_bind, h, ok_bind]
  dsimp only
  rw [Run.result_bind, hresult]
  rfl

end Template

end Actions

/-- Arguments are addressed alike in the whole of a run, which goes through the actions of its
template. As long as nothing has failed, a reference takes the argument at its position, or at the
number of references without position that come before it in any role, and fails if there is none.
The run goes on with that argument, or with the count that it is. Nothing else takes an argument.
References with a position make no difference to one without. -/
theorem trace_addresses (heap : Heap) (args : List Value) (registry : Registry) (t : List Char) :
    trace heap args registry t =
      ((runActions heap args registry {} (actions t)).events 0,
        ((runActions heap args registry {} (actions t)).result 0).map (·.1.text)) ∧
    (∀ earlier action later r, actions t = earlier ++ action :: later →
      action.reference? = some r →
      let before := runActions heap args registry {} earlier
      let index := r.index (Action.references earlier)
      (∀ e, before.result 0 = .error e →
        trace heap args registry t = (before.events 0, .error e)) ∧
      ∀ y next, before.result 0 = .ok (y, next) →
        (∀ v, args[index]? = some v →
          before.events 0 ++ [.taken r.role index v] <+: (trace heap args registry t).1 ∧
          ∀ z next',
            (runActions heap args registry {} (earlier ++ [action])).result 0 = .ok (z, next') ↔
              next' = next + turn [r] ∧
              match r.role with
              | .field => z = { y with argument := v }
              | .width => ∃ n, v.toCount = .ok n ∧ z = { y with width := n }
              | .precision => ∃ n, v.toCount = .ok n ∧ z = { y with precision := some n }) ∧
        (trace heap args registry t = (before.events 0, .error (r.outOfRange args.length)) ↔
          args.length ≤ index)) ∧
    (∀ before role index v after,
      (trace heap args registry t).1 = before ++ .taken role index v :: after →
      ∃ earlier action later r y next, actions t = earlier ++ action :: later ∧
        action.reference? = some r ∧
        runActions heap args registry {} earlier 0 = (before, .ok (y, next)) ∧
        r.role = role ∧ r.index (Action.references earlier) = index ∧ args[index]? = some v) ∧
    ∀ (r : Reference) earlier, r.position = none →
      r.index earlier = r.index (earlier.filter (·.position.isNone)) := by
  refine ⟨trace_eq_runActions heap args registry t, ?_, ?_, ?_⟩
  · intro earlier action later r ht hr before index
    refine ⟨fun e he => trace_of_error ht he, fun y next h => ⟨fun v hv => ?_, ?_, ?_⟩⟩
    · exact ⟨trace_of_getElem? ht hr h hv, fun z next' => runActions_append_eq_ok_iff hr h hv⟩
    · intro htrace
      refine Nat.not_lt.mp fun hn => ?_
      have hprefix := trace_of_getElem? ht hr h (List.getElem?_eq_getElem hn)
      rw [htrace] at hprefix
      have hlength := hprefix.length_le
      rw [List.length_append, List.length_singleton] at hlength
      exact Nat.not_succ_le_self _ hlength
    · exact trace_of_length_le ht hr h
  · intro before role index v after h
    rw [trace_eq_runActions] at h
    obtain ⟨earlier, action, later, r, y, next, ht, hr, hrun, hrole, hindex, hv⟩ :=
      exists_reference_of_taken h
    have hresult : (runActions heap args registry {} earlier).result 0 = .ok (y, next) :=
      congrArg Prod.snd hrun
    exact ⟨earlier, action, later, r, y, next, ht, hr, hrun, hrole,
      (index_eq hresult).trans hindex, hv⟩
  · intro r earlier hr
    rw [Reference.index, Reference.index, hr, turn, turn, List.countP_filter]
    simp only [Bool.and_self]

/-- Three are taken in turn, one of them for a width, and there is no fourth. -/
theorem trace_addresses_mixed :
    let args := [.int 4, .int 6, .int 0]
    let t := "\x7b1\x7d\x7b:\x7b\x7d\x7d\x7b2\x7d\x7b\x7d\x7b\x7d".toList
    let run n := runActions [] args Registry.standard {} ((actions t).take n)
    (∃ y next, (run 6).result 0 = .ok (y, next) ∧
      (run 7).result 0 = .ok ({ y with argument := .int 4 }, next + 1)) ∧
    (∃ y next, (run 7).result 0 = .ok (y, next) ∧
      (run 8).result 0 = .ok ({ y with width := 6 }, next + 1)) ∧
    ((run 21).result 0).isOk ∧
      trace [] args Registry.standard t =
        ((run 21).events 0, .error (.notEnoughArguments .field 3)) := by
  intro args t run
  have haddresses := (trace_addresses [] args Registry.standard t).2.1
  have hok {n : Nat} (h : ((run n).result 0).isOk) : ∃ y next, (run n).result 0 = .ok (y, next) := by
    cases hn : (run n).result 0 with
    | error e => rw [hn] at h; cases h
    | ok ending => exact ⟨ending.1, ending.2, rfl⟩
  refine ⟨?_, ?_, by decide +kernel, ?_⟩
  · obtain ⟨y, next, h⟩ := hok (n := 6) (by decide +kernel)
    have hlast : (actions t).take 7 = (actions t).take 6 ++ [.argument none] := by decide +kernel
    have hafter := ((haddresses ((actions t).take 6) (.argument none) ((actions t).drop 7)
      ⟨.field, none⟩ (by decide +kernel) rfl).2 y next h).1 (.int 4) (by decide +kernel)
    rw [← hlast] at hafter
    exact ⟨y, next, h, (hafter.2 _ _).mpr ⟨rfl, rfl⟩⟩
  · obtain ⟨y, next, h⟩ := hok (n := 7) (by decide +kernel)
    have hlast : (actions t).take 8 = (actions t).take 7 ++ [.width (.argument none)] := by
      decide +kernel
    have hafter := ((haddresses ((actions t).take 7) (.width (.argument none)) ((actions t).drop 8)
      ⟨.width, none⟩ (by decide +kernel) rfl).2 y next h).1 (.int 6) (by decide +kernel)
    rw [← hlast] at hafter
    exact ⟨y, next, h, (hafter.2 _ _).mpr ⟨rfl, 6, rfl, rfl⟩⟩
  · obtain ⟨y, next, h⟩ := hok (n := 21) (by decide +kernel)
    have hturn : args.length ≤
        Reference.index ⟨.field, none⟩ (Action.references ((actions t).take 21)) := by
      decide +kernel
    exact ((haddresses ((actions t).take 21) (.argument none) ((actions t).drop 22)
      ⟨.field, none⟩ (by decide +kernel) rfl).2 y next h).2.mpr hturn

end Stencil
