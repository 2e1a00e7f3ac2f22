import Mathlib.Data.List.Nodup
import Stencil.Proofs.Template.Addressing
import Stencil.Proofs.Template.Following

/-! # Arguments that are not addressed

A run depends on the arguments that it takes, and on how many there are only where it asks for one
that does not exist. So it ends alike with any arguments that are the same where it takes them.
-/

namespace Stencil

def Failure.IsOutOfRange : Failure → Prop
  | notEnoughArguments .. | positionOutOfRange .. => True
  | _ => False

section Following

open Run

variable {heap : Heap} {args args' : List Value} {registry : Registry}

def Event.IsIn (args : List Value) : Event → Prop
  | .read .. => True
  | .taken _ index v => args[index]? = some v

theorem take_follows (role : Role) (position : Option Nat) :
    Follows (Event.IsIn args') (¬ Failure.IsOutOfRange ·) (take args role position)
      (take args' role position) := by
  intro next hend htaken
  simp only [Run.result, Run.events, take] at hend htaken
  cases hv : args[position.getD next]? with
  | some v =>
    rw [hv] at htaken
    have hv' : args'[position.getD next]? = some v := htaken _ (List.mem_singleton_self _)
    simp only [take, hv, hv']
  | none =>
    rw [hv] at hend
    cases position with
    | none => exact (hend _ rfl trivial).elim
    | some p => exact (hend _ rfl trivial).elim

theorem trace_eq_of_taken {t : List Char}
    (hend : ∀ e, registry.format heap args t = .error e → ¬ e.IsOutOfRange)
    (htaken : ∀ role index v, .taken role index v ∈ (trace heap args registry t).1 →
      args'[index]? = some v) :
    trace heap args' registry t = trace heap args registry t := by
  refine trace_eq_of_allowed take_follows (fun _ _ _ _ _ _ => rfl) hend fun event h => ?_
  cases event with
  | read source offset f => trivial
  | taken role index v => exact htaken role index v h

theorem trace_append_arguments {t : List Char} (more : List Value)
    (hend : ∀ e, registry.format heap args t = .error e → ¬ e.IsOutOfRange) :
    trace heap (args ++ more) registry t = trace heap args registry t := by
  apply trace_eq_of_taken hend
  intro role index v hv
  obtain ⟨before, after, hsplit⟩ := List.append_of_mem hv
  rw [trace_eq_runActions] at hsplit
  obtain ⟨-, -, -, -, -, -, -, -, -, -, -, hget⟩ := exists_reference_of_taken hsplit
  obtain ⟨hlt, -⟩ := List.getElem?_eq_some_iff.mp hget
  rw [List.getElem?_append_left hlt, hget]

end Following

/-- Unless it asks for an argument that there is not, a run ends alike, and with the same journal,
whatever the arguments are that it does not take, and however many. So further arguments at the end
never change a text. -/
theorem trace_ignores_unaddressed (heap : Heap) (args : List Value) (registry : Registry)
    (t : List Char) :
    (∀ args', (∀ e, registry.format heap args t = .error e → ¬ e.IsOutOfRange) →
      (∀ role index v, .taken role index v ∈ (trace heap args registry t).1 →
        args'[index]? = some v) →
      trace heap args' registry t = trace heap args registry t ∧
        registry.format heap args' t = registry.format heap args t) ∧
    ∀ text more, registry.format heap args t = .ok text →
      registry.format heap (args ++ more) t = .ok text := by
  constructor
  · intro args' hend htaken
    have h := trace_eq_of_taken hend htaken
    exact ⟨h, congrArg Prod.snd h⟩
  · intro text more h
    rw [← h]
    refine congrArg Prod.snd (trace_append_arguments more fun e he => ?_)
    rw [h] at he
    cases he

/-- The last argument is replaced and there is one more, but the run ends before it comes to it. -/
theorem trace_ignores_unaddressed_mismatch :
    let args := [.int 4, .string ['a'], .null]
    let args' := [.int 4, .string ['a'], .bool true, .container 7]
    let t := "\x7b1:>\x7b\x7d\x7d \x7b1:d\x7d\x7b\x7d\x7b9\x7d".toList
    (∀ e, Registry.standard.format [] args t = .error e → ¬ e.IsOutOfRange) ∧
      (∀ role index v, .taken role index v ∈ (trace [] args Registry.standard t).1 →
        args'[index]? = some v) ∧
      Registry.standard.format [] args' t =
        .error (.typeMismatch (some 'd') "str".toList) := by
  intro args args' t
  have hformat : Registry.standard.format [] args t =
      .error (.typeMismatch (some 'd') "str".toList) := by decide +kernel
  have hend : ∀ e, Registry.standard.format [] args t = .error e → ¬ e.IsOutOfRange := by
    intro e he
    rw [hformat] at he
    cases he
    exact id
  have htaken : ∀ role index v, .taken role index v ∈ (trace [] args Registry.standard t).1 →
      args'[index]? = some v := by
    have hjournal : (trace [] args Registry.standard t).1.filterMap (fun
        | .taken _ index v => some (index, v)
        | .read .. => none) = [(1, .string ['a']), (0, .int 4), (1, .string ['a'])] := by
      decide +kernel
    intro role index v hv
    have hmem : (index, v) ∈ [(1, .string ['a']), (0, .int 4), (1, .string ['a'])] :=
      hjournal ▸ List.mem_filterMap.mpr ⟨_, hv, rfl⟩
    simp only [List.mem_cons, List.not_mem_nil, or_false] at hmem
    rcases hmem with h | h | h <;> cases h <;> rfl
  refine ⟨hend, htaken, ?_⟩
  rw [((trace_ignores_unaddressed [] args Registry.standard t).1 args' hend htaken).2, hformat]

end Stencil
