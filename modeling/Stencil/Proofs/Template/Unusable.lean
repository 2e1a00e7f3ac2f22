import Stencil.Proofs.Registry.Unplaced
import Stencil.Proofs.Template.Records

/-! # Counts that are not usable

A run stops at the first count whose argument is no whole number that is not negative. The failure
names the role of the count and the argument that was taken for it, and shows the argument. A
negative whole double is shown as an integer, and every other argument as it was given.
-/

namespace Stencil

/-- Of the numbers that are doubles some are whole, and neither a boolean nor anything else is a
number. -/
def Double.IsWhole : Double → Prop
  | finite _ magnitude => 2 ^ 1074 ∣ magnitude.units
  | infinite _ | nan => False

namespace Value

def IsUsableCount : Value → Prop
  | int n => 0 ≤ n
  | float x => x.IsWhole ∧ x.isNegative = false
  | _ => False

inductive IsShownAs : Value → Value → Prop
  | itself {v : Value} (h : ∀ x, v = float x → ¬ x.IsWhole) : IsShownAs v v
  | whole {magnitude : Magnitude} {n : Nat} (h : magnitude.units = n * 2 ^ 1074) :
    IsShownAs (float (.finite true magnitude)) (int (-n))

end Value

theorem Magnitude.toNat?_eq_some_iff {x : Magnitude} {n : Nat} :
    x.toNat? = some n ↔ x.units = n * 2 ^ 1074 := by
  have hpos : 0 < 2 ^ 1074 := Nat.two_pow_pos 1074
  rw [toNat?, Option.ite_none_right_eq_some, Option.some_inj]
  generalize 2 ^ 1074 = unit at hpos
  constructor
  · rintro ⟨hmod, rfl⟩
    exact (Nat.div_mul_cancel (Nat.dvd_of_mod_eq_zero hmod)).symm
  · intro h
    rw [h]
    exact ⟨Nat.mul_mod_left n unit, Nat.mul_div_cancel n hpos⟩

theorem Double.isWhole_finite_iff {negative : Bool} {x : Magnitude} :
    (finite negative x).IsWhole ↔ ∃ n, x.toNat? = some n := by
  simp only [Magnitude.toNat?_eq_some_iff, IsWhole]
  generalize 2 ^ 1074 = unit
  exact exists_congr fun n => by rw [Nat.mul_comm]

namespace Value

variable {v w : Value} {n : Nat}

theorem isUsableCount_of_toCount (h : v.toCount = .ok n) : v.IsUsableCount := by
  cases v with
  | int m =>
    rw [toCount] at h
    split at h
    · cases h
    · next hm => exact Int.not_lt.mp hm
  | float x =>
    rcases x with ⟨negative, magnitude⟩ | negative | _
    · rw [toCount] at h
      cases hm : magnitude.toNat? with
      | none => rw [hm] at h; cases h
      | some m =>
        simp only [hm] at h
        split at h
        · cases h
        · next hs =>
          exact ⟨Double.isWhole_finite_iff.mpr ⟨m, hm⟩, Bool.eq_false_iff.mpr hs⟩
    · cases h
    · cases h
  | _ => cases h

theorem not_isUsableCount_of_toCount (h : v.toCount = .error w) :
    ¬ v.IsUsableCount ∧ v.IsShownAs w := by
  have hother (hu : ¬ v.IsUsableCount) (hf : ∀ x, v ≠ float x) (hw : v = w) :
      ¬ v.IsUsableCount ∧ v.IsShownAs w :=
    ⟨hu, hw ▸ .itself fun x hx => absurd hx (hf x)⟩
  cases v with
  | int m =>
    rw [toCount] at h
    split at h
    · next hm => exact hother (Int.not_le.mpr hm) (by rintro x ⟨⟩) (Except.error.inj h)
    · cases h
  | float x =>
    rcases x with ⟨negative, magnitude⟩ | negative | _
    · rw [toCount] at h
      cases hm : magnitude.toNat? with
      | none =>
        rw [hm] at h
        cases h
        have hfraction : ¬ (Double.finite negative magnitude).IsWhole := fun hwhole => by
          obtain ⟨n, hn⟩ := Double.isWhole_finite_iff.mp hwhole
          cases hm.symm.trans hn
        exact ⟨fun hu => hfraction hu.1, .itself fun x hx => by cases hx; exact hfraction⟩
      | some m =>
        simp only [hm] at h
        split at h
        · next hs =>
          cases h
          cases negative with
          | false => cases hs
          | true =>
            refine ⟨fun hu => ?_, .whole (Magnitude.toNat?_eq_some_iff.mp hm)⟩
            cases hs.symm.trans hu.2
        · cases h
    · cases h
      exact ⟨fun hu => hu.1, .itself fun x hx => by cases hx; exact id⟩
    · cases h
      exact ⟨fun hu => hu.1, .itself fun x hx => by cases hx; exact id⟩
  | _ => exact hother id (by rintro x ⟨⟩) (Except.error.inj h)

end Value

def Failure.IsOfCount : Failure → Prop
  | unusableCount _ _ _ _ => True
  | _ => False

theorem Failure.IsOfRendering.not_isOfCount {e : Failure} (h : e.IsOfRendering) :
    ¬ e.IsOfCount := by
  cases e with
  | unusableCount => exact fun _ => h
  | _ => exact id

theorem Failure.suffix_message (role : Role) (position : Nat) (typeName shown : List Char) :
    typeName ++ ' ' :: shown <:+ (unusableCount role position typeName shown).message := by
  have hmessage : (unusableCount role position typeName shown).message =
      role.name ++ " argument ".toList ++ natText position ++
        " must be a non-negative integer, got ".toList ++ typeName ++ " ".toList ++ shown := rfl
  rw [hmessage, List.append_assoc, List.append_assoc]
  exact List.suffix_append _ _

theorem Reference.outOfRange_not_isOfCount (r : Reference) (available : Nat) :
    ¬ (r.outOfRange available).IsOfCount := by
  obtain ⟨role, - | position⟩ := r
  · exact id
  · exact id

/-- Every reference that stands for a count finds a usable one, and so does not end the run. -/
def CountsUsable (args : List Value) (references : List Reference) : Prop :=
  ∀ earlier r later, references = earlier ++ r :: later → r.role ≠ .field →
    ∃ v, args[r.index earlier]? = some v ∧ v.IsUsableCount

variable {heap : Heap} {args : List Value} {registry : Registry} {next next' : Nat}
  {x y : Progress} {action : Action} {earlier : List Reference} {e : Failure} {t : List Char}

theorem usable_of_takeCount {role : Role} {count : Count} {r : Reference} {n : Nat}
    (hr : count.reference? role = some r)
    (h : (takeCount heap args role count).result next = .ok (n, next')) :
    ∃ v, args[r.position.getD next]? = some v ∧ v.IsUsableCount := by
  rcases takeCount_eq_ok h with ⟨rfl, -⟩ | ⟨position, index, v, rfl, ht, hv⟩
  · cases hr
  · cases hr
    obtain ⟨hget, rfl, -⟩ := getElem?_of_take ht
    exact ⟨v, hget, Value.isUsableCount_of_toCount hv⟩

theorem usable_of_run {r : Reference} (hr : action.reference? = some r) (hrole : r.role ≠ .field)
    (h : (action.run heap args registry x).result next = .ok (y, next')) :
    ∃ v, args[r.position.getD next]? = some v ∧ v.IsUsableCount := by
  have hrun := Action.run_eq_ok h
  cases action with
  | write text | read source offset f | render spec | fail failure => cases hr
  | argument position => cases hr; exact absurd rfl hrole
  | width count =>
    obtain ⟨n, hn, -⟩ := hrun
    exact usable_of_takeCount hr hn
  | precision count =>
    obtain ⟨n, hn, -⟩ := hrun
    obtain ⟨c, rfl, hc⟩ := Option.bind_eq_some_iff.mp hr
    rcases takeCount?_eq_ok hn with ⟨hnone, -⟩ | ⟨c', m, hsome, -, hm⟩
    · cases hnone
    · cases hsome
      exact usable_of_takeCount hc hm

/-- A run that comes to its end has found all its counts usable, counted on from the references
that came before it. -/
theorem usable_of_runActions {actions : List Action} (hnext : next = turn earlier)
    (h : (runActions heap args registry x actions).result next = .ok (y, next')) :
    ∀ before r after, Action.references actions = before ++ r :: after → r.role ≠ .field →
      ∃ v, args[r.index (earlier ++ before)]? = some v ∧ v.IsUsableCount := by
  induction actions generalizing x next earlier with
  | nil =>
    intro before r after hsplit
    cases before <;> cases hsplit
  | cons action rest ih =>
    intro before r after hsplit hrole
    rw [runActions, Run.result_bind] at h
    obtain ⟨⟨z, next₁⟩, hz, hrest⟩ := bind_eq_ok_iff.mp h
    have hnext₁ : next₁ = turn (earlier ++ action.reference?.toList) := by
      rw [turn_append, ← hnext, next_of_run hz]
    rw [Action.references_cons] at hsplit
    cases hs : action.reference? with
    | none =>
      rw [hs, Option.toList_none, List.append_nil] at hnext₁
      rw [hs] at hsplit
      exact ih hnext₁ hrest before r after hsplit hrole
    | some s =>
      rw [hs] at hnext₁ hsplit
      cases before with
      | nil =>
        cases hsplit
        rw [List.append_nil, index_of_turn hnext]
        exact usable_of_run hs hrole hz
      | cons s' before =>
        change s :: Action.references rest = s' :: (before ++ r :: after) at hsplit
        obtain ⟨rfl, htail⟩ := List.cons.inj hsplit
        rw [List.append_cons]
        exact ih hnext₁ hrest before r after htail hrole

theorem not_isOfCount_of_mem_actions (h : .fail e ∈ actions t) : ¬ e.IsOfCount := by
  obtain ⟨p, hp, he⟩ := List.mem_flatMap.mp h
  obtain ⟨earlier, later, hsplit⟩ := List.append_of_mem hp
  have htile : IsTile t earlier p later := Walk.isTile (hsplit ▸ walk_iff.mpr rfl)
  obtain ⟨offset, source, content⟩ := p
  cases content with
  | literal text => cases List.mem_singleton.mp he
  | field f => simp [Piece.actions, Field.actions] at he
  | failure failure =>
    cases List.mem_singleton.mp he
    obtain ⟨-, -, -, hread⟩ := htile.content
    rw [Field.readAt] at hread
    split at hread
    · cases hread
    · next fault _ =>
      rw [← Except.error.inj hread]
      cases fault with
      | unexpected wanted rest => exact id
      | tooManyDigits => exact id

theorem exists_of_takeCount_isOfCount {role : Role} {count : Count} (he : e.IsOfCount)
    (h : (takeCount heap args role count).result next = .error e) :
    ∃ r v w shown, count.reference? role = some r ∧ r.role = role ∧
      args[r.position.getD next]? = some v ∧ v.toCount = .error w ∧ w.literal heap = .ok shown ∧
      e = .unusableCount r.role (r.position.getD next) (w.typeName heap) shown := by
  obtain ⟨r, hr, rfl, ⟨-, rfl⟩ | ⟨v, w, hget, hv, hshown⟩⟩ := exists_of_takeCount_error h
  · exact absurd he (r.outOfRange_not_isOfCount _)
  · refine ⟨r, v, w, ?_⟩
    cases hw : w.literal heap with
    | ok shown =>
      rw [hw] at hshown
      exact ⟨shown, hr, rfl, hget, hv, rfl, hshown⟩
    | error failure =>
      rw [hw] at hshown
      obtain rfl : e = failure := hshown
      obtain rfl := w.literalWithin_failsOnly heap [] _ hw
      exact he.elim

theorem exists_of_run_isOfCount (hr : ∀ r ∈ registry, r.renderer.FailsOnly (¬ ·.IsOfCount))
    (hfail : ∀ failure, action = .fail failure → ¬ failure.IsOfCount) (he : e.IsOfCount)
    (h : (action.run heap args registry x).result next = .error e) :
    ∃ r v w shown, action.reference? = some r ∧ r.role ≠ .field ∧
      args[r.position.getD next]? = some v ∧ v.toCount = .error w ∧
      w.literal heap = .ok shown ∧
      e = .unusableCount r.role (r.position.getD next) (w.typeName heap) shown := by
  cases action with
  | write text | read source offset f => cases h
  | argument position =>
    rw [Action.run, Run.result_bind] at h
    rcases bind_eq_error_iff.mp h with ht | ⟨_, -, h₁⟩
    · obtain ⟨-, rfl⟩ := take_eq_error (r := ⟨.field, position⟩) ht
      exact absurd he (Reference.outOfRange_not_isOfCount _ _)
    · cases h₁
  | width count =>
    rw [Action.run, Run.result_bind] at h
    rcases bind_eq_error_iff.mp h with hc | ⟨_, -, h₁⟩
    · obtain ⟨r, v, w, shown, hr, hrole, hall⟩ := exists_of_takeCount_isOfCount he hc
      exact ⟨r, v, w, shown, hr, by rw [hrole]; decide, hall⟩
    · cases h₁
  | precision count =>
    rw [Action.run, Run.result_bind] at h
    rcases bind_eq_error_iff.mp h with hc | ⟨_, -, h₁⟩
    · cases count with
      | none => cases hc
      | some count =>
        rw [takeCount?, Run.result_bind] at hc
        rcases bind_eq_error_iff.mp hc with hc | ⟨_, -, h₁⟩
        · obtain ⟨r, v, w, shown, hr, hrole, hall⟩ := exists_of_takeCount_isOfCount he hc
          exact ⟨r, v, w, shown, hr, by rw [hrole]; decide, hall⟩
        · cases h₁
    · cases h₁
  | render spec =>
    rw [Action.run, Run.result_bind, Run.result_lift] at h
    have hrender : FailsOnly (¬ ·.IsOfCount)
        (registry.render heap spec x.width (x.precision.map Int.ofNat) x.argument) :=
      Registry.render_failsOnly_of (fun _ => Failure.IsOfRendering.not_isOfCount) hr
    cases hs : registry.render heap spec x.width (x.precision.map Int.ofNat) x.argument with
    | ok shown => rw [hs] at h; cases h
    | error failure =>
      rw [hs] at h
      cases h
      exact absurd he (hrender _ hs)
  | fail failure =>
    cases h
    exact absurd he (hfail _ rfl)

/-- A count that is not usable is the first one in its template. Its failure has the role of the
reference and the index of the argument that was taken for it, and ends with the type and the literal
of that argument. Only a negative whole double is shown as the integer that it is equal to. No further
renderer may make such failures of its own. -/
theorem Registry.format_unusableCount {further : List Registration}
    (hfurther : ∀ r ∈ further, r.renderer.FailsOnly (¬ ·.IsOfCount))
    {defaultPrecision defaultIndent : Int} {role : Role} {position : Nat}
    {typeName shown : List Char}
    (h : (standard defaultPrecision defaultIndent further).format heap args t =
      .error (.unusableCount role position typeName shown)) :
    typeName ++ ' ' :: shown <:+ (Failure.unusableCount role position typeName shown).message ∧
    ∃ before r after v w, Action.references (actions t) = before ++ r :: after ∧
      CountsUsable args before ∧ r.role = role ∧ role ≠ .field ∧ r.index before = position ∧
      args[position]? = some v ∧ ¬ v.IsUsableCount ∧
      v.IsShownAs w ∧ w.typeName heap = typeName ∧ w.literal heap = .ok shown := by
  constructor
  · exact Failure.suffix_message role position typeName shown
  have hr := standard_failsOnly (fun _ => Failure.IsOfRendering.not_isOfCount)
    defaultPrecision defaultIndent hfurther
  rw [Registry.format, trace_eq_runActions] at h
  cases hrun : (runActions heap args (standard defaultPrecision defaultIndent further) {}
      (actions t)).result 0 with
  | ok ending => rw [hrun] at h; cases h
  | error e =>
    rw [hrun] at h
    cases h
    obtain ⟨before, action, after, y, next, hsplit, hbefore, haction, -⟩ :=
      exists_failing_action hrun
    have hfail (failure : Failure) (hf : action = .fail failure) : ¬ failure.IsOfCount :=
      not_isOfCount_of_mem_actions (t := t) (by rw [hsplit, hf]; simp)
    obtain ⟨r, v, w, shown, hs, hrole, hv, hw, hshown, he⟩ :=
      exists_of_run_isOfCount (e := .unusableCount role position typeName shown) hr hfail trivial
        haction
    cases he
    obtain ⟨hunusable, hshownAs⟩ := Value.not_isUsableCount_of_toCount hw
    have hnext : next = turn (Action.references before) := by
      rw [next_of_runActions hbefore, Nat.zero_add]
    refine ⟨Action.references before, r, Action.references after, v, w, ?_, ?_, rfl, hrole,
      index_of_turn hnext r, hv, hunusable, hshownAs, rfl, hshown⟩
    · rw [hsplit, Action.references, List.filterMap_append, List.filterMap_cons, hs]
      rfl
    · have hstart : 0 = turn [] := rfl
      exact usable_of_runActions hstart hbefore

/-- The first width is usable, and the second one is true, which is no number. -/
theorem Registry.format_unusableCount_bool :
    let args := [.int 4, .bool true]
    let t := "\x7b:\x7b0\x7d\x7d\x7b0:.\x7b\x7d\x7d".toList
    (∀ r ∈ ([] : List Registration), r.renderer.FailsOnly (¬ ·.IsOfCount)) ∧
      (standard).format [] args t =
        .error (.unusableCount .precision 1 "bool".toList "True".toList) ∧
      ∃ before r after, Action.references (actions t) = before ++ r :: after ∧
        CountsUsable args before ∧ r.index before = 1 := by
  intro args t
  have hfurther : ∀ r ∈ ([] : List Registration), r.renderer.FailsOnly (¬ ·.IsOfCount) := nofun
  have h : (standard).format [] args t =
      .error (.unusableCount .precision 1 "bool".toList "True".toList) := by decide +kernel
  obtain ⟨-, before, r, after, -, -, hsplit, husable, -, -, hindex, -⟩ :=
    format_unusableCount hfurther h
  exact ⟨hfurther, h, before, r, after, hsplit, husable, hindex⟩

/-- A negative whole double is taken for the width, and an integer is shown. -/
theorem Registry.format_whole_double_width :
    let v : Value := .float (.ofBits 0xC000000000000000)
    let args := [.int 1, v]
    let t := "\x7b:\x7b\x7d\x7d".toList
    (standard).format [] args t = .error (.unusableCount .width 1 "int".toList "-2".toList) ∧
      args[1]? = some v ∧ v.typeName [] = "float".toList ∧
      v.literal [] = .ok "-2.0".toList := by
  decide +kernel

end Stencil
