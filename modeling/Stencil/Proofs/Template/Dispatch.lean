import Stencil.Proofs.Registry.History
import Stencil.Proofs.Template.Following

/-! # Registering further kinds

A registry is asked for the argument of a field, and never for a count or for what a container
holds. So a registration under a new name makes no difference to a run in which it is meant for none
of the arguments of fields, wherever it comes to stand among the others.
-/

namespace Stencil

variable {heap : Heap} {args : List Value} {r : Registration} {v : Value} {t : List Char}

namespace Registry

variable {registry : Registry}

theorem find?_insert {p : Registration → Bool} (h : p r = false) :
    (registry.insert r).find? p = registry.find? p := by
  induction registry with
  | nil => exact List.find?_cons_of_neg (by rw [h]; exact Bool.false_ne_true)
  | cons first rest ih =>
    rw [insert]
    split
    · rw [List.find?_cons, List.find?_cons, ih]
    · exact List.find?_cons_of_neg (by rw [h]; exact Bool.false_ne_true)

theorem resolve_register (hname : ∀ s ∈ registry, s.name ≠ r.name)
    (h : r.accepts heap v = false) :
    (registry.register r).resolve heap v = registry.resolve heap v := by
  have hfilter : registry.filter (·.name ≠ r.name) = registry :=
    List.filter_eq_self.mpr fun s hs => decide_eq_true (hname s hs)
  rw [resolve, register, hfilter, find?_insert h, resolve]

theorem render_eq_of_resolve {registry' : Registry}
    (h : registry'.resolve heap v = registry.resolve heap v) (spec : Spec) (width : Int)
    (precision : Option Int) :
    registry'.render heap spec width precision v = registry.render heap spec width precision v := by
  rw [render, render, h]

end Registry

/-- The registration is meant for no argument of a field. -/
def Event.IsRefused (heap : Heap) (r : Registration) : Event → Prop
  | .taken .field _ v => r.accepts heap v = false
  | .read .. | .taken .. => True

theorem Event.isRefused_of_fields {events : List Event}
    (h : ∀ index v, .taken .field index v ∈ events → r.accepts heap v = false) :
    ∀ event ∈ events, event.IsRefused heap r := by
  intro event hevent
  cases event with
  | read source offset f => trivial
  | taken role index v =>
    cases role with
    | field => exact h index v hevent
    | width | precision => trivial

/-- A registration under a new name that accepts no argument of a field changes neither the text nor
the failure nor the journal, whatever else it accepts, and it is enough to know this of the run
before it or of the one after. -/
theorem Registry.format_register_unaccepted (heap : Heap) (args : List Value) (t : List Char)
    (history : List Registration) (r : Registration) (hname : ∀ s ∈ history, s.name ≠ r.name)
    (haccepts : (∀ index v, .taken .field index v ∈ (trace heap args (after history) t).1 →
        r.accepts heap v = false) ∨
      ∀ index v, .taken .field index v ∈ (trace heap args (after (history ++ [r])) t).1 →
        r.accepts heap v = false) :
    (after (history ++ [r])).format heap args t = (after history).format heap args t ∧
      trace heap args (after (history ++ [r])) t = trace heap args (after history) t := by
  have hname : ∀ s ∈ after history, s.name ≠ r.name :=
    fun s hs => hname s ((survivors_sublist history).subset (mem_after.mp hs))
  have hresolve (v : Value) (h : r.accepts heap v = false) :
      (after (history ++ [r])).resolve heap v = (after history).resolve heap v := by
    rw [after_append_singleton]
    exact resolve_register hname h
  have htrace : trace heap args (after (history ++ [r])) t = trace heap args (after history) t := by
    rcases haccepts with h | h
    · exact trace_eq_of_allowed (fun _ _ => .refl _)
        (fun _ v hv => render_eq_of_resolve (hresolve v hv)) (fun _ _ => trivial)
        (Event.isRefused_of_fields h)
    · exact (trace_eq_of_allowed (fun _ _ => .refl _)
        (fun _ v hv => render_eq_of_resolve (hresolve v hv).symm) (fun _ _ => trivial)
        (Event.isRefused_of_fields h)).symm
  exact ⟨congrArg Prod.snd htrace, htrace⟩

/-- The new kind stands before that of numbers, but there is none to be asked for, only a width and
the items of a list. -/
theorem Registry.format_register_unaccepted_counts :
    let heap : Heap := [.sequence .list [.int 1, .int 2]]
    let args := [.string ['a'], .int 3, .container 0]
    let t := "\x7b:>\x7b\x7d\x7d\x7b2:d\x7d".toList
    let r : Registration := ⟨"counter".toList, 15, fun _ v => v.isNumber, .number 2⟩
    (∀ s ∈ standardKinds 6 4, s.name ≠ r.name) ∧ r.accepts heap (.int 3) = true ∧
      (∀ index v, .taken .field index v ∈ (trace heap args (after (standardKinds 6 4)) t).1 →
        r.accepts heap v = false) ∧
      (after (standardKinds 6 4 ++ [r])).format heap args t =
        .error (.typeMismatch (some 'd') "container".toList) := by
  intro heap args t r
  have hname : ∀ s ∈ standardKinds 6 4, s.name ≠ r.name := by decide
  have hjournal : (trace heap args (after (standardKinds 6 4)) t).1.filterMap (fun
      | .taken .field _ v => some v
      | _ => none) = [.string ['a'], .container 0] := by
    decide +kernel
  have haccepts : ∀ index v,
      .taken .field index v ∈ (trace heap args (after (standardKinds 6 4)) t).1 →
      r.accepts heap v = false := by
    intro index v hv
    have hmem : v ∈ [Value.string ['a'], .container 0] :=
      hjournal ▸ List.mem_filterMap.mpr ⟨_, hv, rfl⟩
    simp only [List.mem_cons, List.not_mem_nil, or_false] at hmem
    rcases hmem with rfl | rfl <;> rfl
  refine ⟨hname, rfl, haccepts, ?_⟩
  rw [(format_register_unaccepted heap args t _ r hname (.inl haccepts)).1]
  decide +kernel

end Stencil
