import Stencil.Text.CodePoint
import Stencil.Template
import Stencil.Value.Basic

/-! # Runs

A run is a computation that takes arguments in turn and keeps a journal. The journal holds the
fields that were read and the arguments that were taken, up to the first failure.
-/

namespace Stencil

inductive Event
  | read (source : List Char) (offset : Nat) (field : Field)
  | taken (role : Role) (index : Nat) (value : Value)
  deriving DecidableEq

/-- A step of a run. It starts from the number of arguments taken in turn so far, and gives the
events of the journal with a result and the new number, or with a failure. -/
def Run (α : Type) := Nat → List Event × Except Failure (α × Nat)

namespace Run

variable {α β : Type}

protected def pure (a : α) : Run α := fun next => ([], .ok (a, next))

protected def bind (x : Run α) (f : α → Run β) : Run β := fun next =>
  match x next with
  | (events, .ok (a, next)) => let (more, result) := f a next; (events ++ more, result)
  | (events, .error failure) => (events, .error failure)

instance : Monad Run where
  pure := Run.pure
  bind := Run.bind

theorem bind_eq (x : Run α) (f : α → Run β) (next : Nat) :
    (x >>= f) next = match x next with
      | (events, .ok (a, next)) => (events ++ (f a next).1, (f a next).2)
      | (events, .error failure) => (events, .error failure) := rfl

instance : LawfulMonad Run := by
  refine LawfulMonad.mk' Run (fun x => ?_) (fun a f => rfl) fun x f g => ?_
  · funext next
    refine (bind_eq x pure next).trans ?_
    rcases x next with ⟨events, failure | ⟨a, next'⟩⟩
    · rfl
    · exact congrArg (·, _) (List.append_nil events)
  · funext next
    simp only [bind_eq]
    rcases x next with ⟨events, failure | ⟨a, next'⟩⟩
    · rfl
    · simp only
      rcases f a next' with ⟨events', failure | ⟨b, next''⟩⟩
      · rfl
      · exact congrArg (·, _) (List.append_assoc ..)

def result (x : Run α) (next : Nat) : Except Failure (α × Nat) := (x next).2

theorem result_bind (x : Run α) (f : α → Run β) (next : Nat) :
    (x >>= f).result next = x.result next >>= fun (a, next) => (f a).result next := by
  simp only [result, bind_eq]
  rcases x next with ⟨events, failure | ⟨a, next'⟩⟩ <;> rfl

def events (x : Run α) (next : Nat) : List Event := (x next).1

theorem events_bind {x : Run α} {a : α} {next next' : Nat} (h : x.result next = .ok (a, next'))
    (f : α → Run β) : (x >>= f).events next = x.events next ++ (f a).events next' := by
  simp only [result] at h
  simp only [events, bind_eq]
  rcases hx : x next with ⟨events, failure | ⟨b, next''⟩⟩
  · rw [hx] at h; cases h
  · rw [hx] at h; cases h; rfl

theorem events_bind_of_error {x : Run α} {next : Nat} {e : Failure} (h : x.result next = .error e)
    (f : α → Run β) : (x >>= f).events next = x.events next := by
  simp only [result] at h
  simp only [events, bind_eq]
  rcases hx : x next with ⟨events, failure | ⟨b, next''⟩⟩
  · rfl
  · rw [hx] at h; cases h

theorem map_apply (f : α → β) (x : Run α) (next : Nat) :
    (f <$> x) next = (x.events next, (x.result next).map fun (a, next) => (f a, next)) := by
  refine (bind_eq x (fun a => pure (f a)) next).trans ?_
  simp only [events, result]
  rcases x next with ⟨events, failure | ⟨a, next'⟩⟩
  · rfl
  · exact congrArg (·, _) (List.append_nil events)

theorem events_map (f : α → β) (x : Run α) (next : Nat) : (f <$> x).events next = x.events next :=
  congrArg Prod.fst (map_apply f x next)

theorem events_prefix_bind (x : Run α) (f : α → Run β) (next : Nat) :
    x.events next <+: (x >>= f).events next := by
  cases h : x.result next with
  | error e => exact events_bind_of_error h f ▸ List.prefix_rfl
  | ok result => exact events_bind h f ▸ List.prefix_append ..

def note (event : Event) : Run Unit := fun next => ([event], .ok ((), next))

def lift (x : Except Failure α) : Run α := fun next => ([], x.map (·, next))

@[simp] theorem result_pure (a : α) (next : Nat) :
    (pure a : Run α).result next = .ok (a, next) := rfl

@[simp] theorem events_pure (a : α) (next : Nat) : (pure a : Run α).events next = [] := rfl

@[simp] theorem events_note (event : Event) (next : Nat) : (note event).events next = [event] := rfl

@[simp] theorem result_note (event : Event) (next : Nat) :
    (note event).result next = .ok ((), next) := rfl

@[simp] theorem events_lift (x : Except Failure α) (next : Nat) : (lift x).events next = [] := rfl

@[simp] theorem result_lift (x : Except Failure α) (next : Nat) :
    (lift x).result next = x.map (·, next) := rfl

end Run

end Stencil
