import Stencil.Proofs.Template.Taking

/-! # Runs action by action

A run goes through a list of actions that its template alone determines. Each of them asks for one
argument at most, and the number of those that ask for the next in turn is the turn that a run has
come to.
-/

namespace Stencil

/-- What a run does at a time. A count is an action even if it is written out or left out. -/
inductive Action
  | write (text : List Char)
  | read (source : List Char) (offset : Nat) (field : Field)
  | argument (position : Option Nat)
  | width (count : Count)
  | precision (count : Option Count)
  | render (spec : Spec)
  | fail (failure : Failure)
  deriving DecidableEq

/-- What a run has between two actions: the text so far, and what the last field was given. -/
structure Progress where
  text : Text := []
  argument : Value := .null
  width : Nat := 0
  precision : Option Nat := none

def Field.actions (f : Field) : List Action :=
  [.argument f.position, .width f.spec.width, .precision f.spec.precision, .render f.spec]

def Piece.actions (p : Piece) : List Action :=
  match p.content with
  | .literal text => [.write text]
  | .field f => .read p.source p.offset f :: f.actions
  | .failure e => [.fail e]

def actions (template : List Char) : List Action := (pieces 0 template).flatMap Piece.actions

section Runs

variable (heap : Heap) (args : List Value) (registry : Registry)

def Action.run (x : Progress) : Action → Run Progress
  | write text => pure { x with text := x.text ++ .ofChars text }
  | read source offset field => do
    .note (.read source offset field)
    return x
  | argument position => do
    let (_, v) ← take args .field position
    return { x with argument := v }
  | width count => do return { x with width := ← takeCount heap args .width count }
  | precision count => do return { x with precision := ← takeCount? heap args .precision count }
  | render spec => do
    let shown ← .lift (registry.render heap spec x.width (x.precision.map Int.ofNat) x.argument)
    return { x with text := x.text ++ shown }
  | fail e => .lift (.error e)

def runActions (x : Progress) : List Action → Run Progress
  | [] => pure x
  | action :: rest => do runActions (← action.run heap args registry x) rest

theorem runActions_append (x : Progress) (earlier later : List Action) :
    runActions heap args registry x (earlier ++ later) =
      runActions heap args registry x earlier >>= fun y => runActions heap args registry y later := by
  induction earlier generalizing x with
  | nil => simp only [List.nil_append, runActions, pure_bind]
  | cons action rest ih => simp only [List.cons_append, runActions, ih, bind_assoc]

theorem runActions_piece {α : Type} (x : Progress) (p : Piece) (k : Text → Run α) :
    (runActions heap args registry x p.actions >>= fun y => k y.text) =
      runPiece heap args registry p >>= fun text => k (x.text ++ text) := by
  obtain ⟨offset, source, content⟩ := p
  cases content with
  | literal text => simp only [Piece.actions, runActions, Action.run, runPiece, pure_bind]
  | field f =>
    simp only [Piece.actions, Field.actions, runActions, Action.run, runPiece, runField, pure_bind,
      bind_assoc]
  | failure e => rfl

theorem runActions_pieces (x : Progress) (ps : List Piece) :
    (·.text) <$> runActions heap args registry x (ps.flatMap Piece.actions) =
      (x.text ++ ·) <$> runPieces heap args registry ps := by
  induction ps generalizing x with
  | nil => simp [runActions, runPieces]
  | cons p ps ih =>
    calc (·.text) <$> runActions heap args registry x ((p :: ps).flatMap Piece.actions)
      _ = runActions heap args registry x p.actions >>= fun y =>
          (y.text ++ ·) <$> runPieces heap args registry ps := by
        simp only [List.flatMap_cons, runActions_append, map_bind, ih]
      _ = runPiece heap args registry p >>= fun text =>
          ((x.text ++ text) ++ ·) <$> runPieces heap args registry ps :=
        runActions_piece heap args registry x p fun text =>
          (text ++ ·) <$> runPieces heap args registry ps
      _ = (x.text ++ ·) <$> runPieces heap args registry (p :: ps) := by
        simp only [runPieces, map_eq_pure_bind, bind_assoc, pure_bind, List.append_assoc]

/-- A run is that of its actions. -/
theorem trace_eq_runActions (t : List Char) :
    trace heap args registry t =
      ((runActions heap args registry {} (actions t)).events 0,
        ((runActions heap args registry {} (actions t)).result 0).map (·.1.text)) := by
  have h := runActions_pieces heap args registry {} (pieces 0 t)
  simp only [List.nil_append, id_map'] at h
  rw [trace, ← h, actions, Run.map_apply]
  cases (runActions heap args registry {} ((pieces 0 t).flatMap Piece.actions)).result 0 <;> rfl

end Runs

theorem Action.run_eq_ok {heap : Heap} {args : List Value} {registry : Registry} {x y : Progress}
    {action : Action} {next next' : Nat}
    (h : (action.run heap args registry x).result next = .ok (y, next')) :
    match action with
    | write text => y = { x with text := x.text ++ .ofChars text } ∧ next' = next
    | read _ _ _ => y = x ∧ next' = next
    | argument position => ∃ index v,
      (take args .field position).result next = .ok ((index, v), next') ∧
        y = { x with argument := v }
    | width count => ∃ n,
      (takeCount heap args .width count).result next = .ok (n, next') ∧ y = { x with width := n }
    | precision count => ∃ n,
      (takeCount? heap args .precision count).result next = .ok (n, next') ∧
        y = { x with precision := n }
    | render spec => ∃ shown,
      registry.render heap spec x.width (x.precision.map Int.ofNat) x.argument = .ok shown ∧
        y = { x with text := x.text ++ shown } ∧ next' = next
    | fail _ => False := by
  cases action with
  | write text | read source offset f => cases h; exact ⟨rfl, rfl⟩
  | argument position =>
    rw [run, Run.result_bind] at h
    obtain ⟨⟨⟨index, v⟩, next₁⟩, ht, h⟩ := bind_eq_ok_iff.mp h
    cases h
    exact ⟨index, v, ht, rfl⟩
  | width count | precision count =>
    rw [run, Run.result_bind] at h
    obtain ⟨⟨n, next₁⟩, hn, h⟩ := bind_eq_ok_iff.mp h
    cases h
    exact ⟨n, hn, rfl⟩
  | render spec =>
    rw [run, Run.result_bind, Run.result_lift] at h
    cases hs : registry.render heap spec x.width (x.precision.map Int.ofNat) x.argument with
    | error e => rw [hs] at h; cases h
    | ok shown => rw [hs] at h; cases h; exact ⟨shown, hs, rfl, rfl⟩
  | fail e => cases h

end Stencil
