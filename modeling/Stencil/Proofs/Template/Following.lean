import Stencil.Proofs.Template.Taking

/-! # Runs that follow others

Two runs do the same as long as their steps do, and what a step does depends on few things. It takes
its arguments from the list, and a field is rendered as the registry has it for the argument that is
its own. So arguments and registries can be replaced where the difference never shows.
-/

namespace Stencil

namespace Run

variable {α β : Type} {allowed : Event → Prop} {ending : Failure → Prop}

/-- The second run does the same as the first from wherever that one has only events and failures
that are allowed. -/
def Follows (allowed : Event → Prop) (ending : Failure → Prop) (x x' : Run α) : Prop :=
  ∀ next, (∀ e, x.result next = .error e → ending e) → (∀ event ∈ x.events next, allowed event) →
    x' next = x next

theorem Follows.refl (x : Run α) : Follows allowed ending x x := fun _ _ _ => rfl

theorem Follows.bind_of_result {x x' : Run α} {f f' : α → Run β} (hx : Follows allowed ending x x')
    (hf : ∀ a next next', x.result next = .ok (a, next') →
      (∀ event ∈ x.events next, allowed event) → Follows allowed ending (f a) (f' a)) :
    Follows allowed ending (x >>= f) (x' >>= f') := by
  intro next hend hevents
  have hevents' : ∀ event ∈ x.events next, allowed event :=
    fun event h => hevents event ((events_prefix_bind x f next).subset h)
  have hfirst : x' next = x next := by
    refine hx next (fun e he => hend e ?_) hevents'
    rw [result_bind, he]
    rfl
  rw [bind_eq, bind_eq, hfirst]
  rcases hxn : x next with ⟨events, e | ⟨a, next'⟩⟩
  · rfl
  · have hresult : x.result next = .ok (a, next') := congrArg Prod.snd hxn
    have hrest : f' a next' = f a next' := by
      refine hf a next next' hresult hevents' next' (fun e he => hend e ?_) fun event h => ?_
      · rw [result_bind, hresult]
        exact he
      · apply hevents event
        rw [events_bind hresult]
        exact List.mem_append_right _ h
    simp only [hrest]

theorem Follows.bind {x x' : Run α} {f f' : α → Run β} (hx : Follows allowed ending x x')
    (hf : ∀ a, Follows allowed ending (f a) (f' a)) :
    Follows allowed ending (x >>= f) (x' >>= f') :=
  hx.bind_of_result fun a _ _ _ _ => hf a

end Run

section Following

open Run

variable {heap : Heap} {args args' : List Value} {registry registry' : Registry}
  {allowed : Event → Prop} {ending : Failure → Prop}
  (htake : ∀ role position, Follows allowed ending (take args role position)
    (take args' role position))

include htake in
theorem takeCount_follows (role : Role) (count : Count) :
    Follows allowed ending (takeCount heap args role count) (takeCount heap args' role count) := by
  cases count with
  | literal n => exact .refl _
  | argument position => exact (htake role position).bind fun _ => .refl _

include htake in
theorem takeCount?_follows (role : Role) (count : Option Count) :
    Follows allowed ending (takeCount? heap args role count)
      (takeCount? heap args' role count) := by
  cases count with
  | none => exact .refl _
  | some count => exact (takeCount_follows htake role count).bind fun _ => .refl _

variable (hrender : ∀ index v, allowed (.taken .field index v) → ∀ spec width precision,
  registry'.render heap spec width precision v = registry.render heap spec width precision v)

include htake hrender

theorem runField_follows (f : Field) :
    Follows allowed ending (runField heap args registry f) (runField heap args' registry' f) := by
  refine (htake .field f.position).bind_of_result fun (index, v) next next' htaken hevents => ?_
  rw [events_of_take htaken, List.forall_mem_singleton] at hevents
  refine (takeCount_follows htake .width f.spec.width).bind fun width => ?_
  refine (takeCount?_follows htake .precision f.spec.precision).bind fun precision => ?_
  rw [hrender index v hevents]
  exact .refl _

theorem runPiece_follows (p : Piece) :
    Follows allowed ending (runPiece heap args registry p)
      (runPiece heap args' registry' p) := by
  obtain ⟨offset, source, content⟩ := p
  cases content with
  | literal text | failure e => exact .refl _
  | field f => exact (Follows.refl _).bind fun _ => runField_follows htake hrender f

theorem runPieces_follows (ps : List Piece) :
    Follows allowed ending (runPieces heap args registry ps)
      (runPieces heap args' registry' ps) := by
  induction ps with
  | nil => exact .refl _
  | cons p ps ih =>
    exact (runPiece_follows htake hrender p).bind fun text => ih.bind fun _ => .refl _

/-- A run of the template follows another whose journal and failure are allowed. -/
theorem trace_eq_of_allowed {t : List Char}
    (hend : ∀ e, registry.format heap args t = .error e → ending e)
    (hevents : ∀ event ∈ (trace heap args registry t).1, allowed event) :
    trace heap args' registry' t = trace heap args registry t := by
  have hresult : registry.format heap args t =
      ((runPieces heap args registry (pieces 0 t)).result 0).map (·.1) := rfl
  have hrun : runPieces heap args' registry' (pieces 0 t) 0 =
      runPieces heap args registry (pieces 0 t) 0 := by
    refine runPieces_follows htake hrender (pieces 0 t) 0 (fun e he => hend e ?_) hevents
    rw [hresult, he]
    rfl
  rw [trace, trace, hrun]

end Following

end Stencil
