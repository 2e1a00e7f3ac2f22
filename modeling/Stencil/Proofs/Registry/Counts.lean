import Stencil.Registry

/-! # Counts in renderers

A renderer is given width and precision as numbers, beside the specification of the field. The
standard renderers look at these numbers only, and not at how the specification writes them.
-/

namespace Stencil

def Spec.withCounts (s : Spec) (width : Count) (precision : Option Count) : Spec :=
  { s with width, precision }

def Renderer.IgnoresCounts (r : Renderer) : Prop :=
  ∀ heap v (spec : Spec) w p width precision,
    r.convert heap v (spec.withCounts w p) width precision = r.convert heap v spec width precision

namespace Renderer

theorem container_ignoresCounts (indent : Int) : (container indent).IgnoresCounts :=
  fun _ _ _ _ _ _ _ => rfl

theorem text_ignoresCounts : text.IgnoresCounts :=
  fun _ _ _ _ _ _ _ => rfl

theorem number_ignoresCounts (precision : Int) : (number precision).IgnoresCounts :=
  fun _ _ _ _ _ _ _ => rfl

theorem fallback_ignoresCounts : fallback.IgnoresCounts :=
  fun _ _ _ _ _ _ _ => rfl

end Renderer

namespace Registry

variable {registry : Registry} {r s : Registration}

theorem mem_insert : s ∈ registry.insert r ↔ s = r ∨ s ∈ registry := by
  induction registry with
  | nil => simp [insert]
  | cons first rest ih =>
    rw [insert]
    split
    · rw [List.mem_cons, ih, List.mem_cons, or_left_comm]
    · exact List.mem_cons

theorem mem_register : s ∈ registry.register r ↔ s = r ∨ s ∈ registry ∧ s.name ≠ r.name := by
  simp [register, mem_insert]

theorem mem_of_mem_foldl {rs : List Registration} (h : s ∈ rs.foldl register registry) :
    s ∈ rs ∨ s ∈ registry := by
  induction rs generalizing registry with
  | nil => exact .inr h
  | cons r rs ih =>
    rcases ih h with h | h
    · exact .inl (List.mem_cons_of_mem r h)
    · rcases mem_register.mp h with rfl | ⟨h, -⟩
      · exact .inl (List.mem_cons_self ..)
      · exact .inr h

theorem mem_of_mem_standard {precision indent : Int} {further : List Registration}
    (h : s ∈ standard precision indent further) :
    s ∈ standardKinds precision indent ∨ s ∈ further := by
  rcases mem_of_mem_foldl h with h | h
  · exact List.mem_append.mp h
  · cases h

def IgnoresCounts (registry : Registry) : Prop := ∀ r ∈ registry, r.renderer.IgnoresCounts

theorem standard_ignoresCounts (precision indent : Int) :
    (standard precision indent).IgnoresCounts := by
  intro r hr
  rcases mem_of_mem_standard hr with h | h
  · simp only [standardKinds, List.mem_cons, List.not_mem_nil, or_false] at h
    rcases h with rfl | rfl | rfl | rfl
    · exact Renderer.container_ignoresCounts indent
    · exact Renderer.text_ignoresCounts
    · exact Renderer.number_ignoresCounts precision
    · exact Renderer.fallback_ignoresCounts
  · cases h

theorem render_withCounts (hr : registry.IgnoresCounts) (heap : Heap) (spec : Spec) (w : Count)
    (p : Option Count) (width : Int) (precision : Option Int) (v : Value) :
    registry.render heap (spec.withCounts w p) width precision v =
      registry.render heap spec width precision v := by
  have hconvert : ∀ r ∈ registry.resolve heap v, r.IgnoresCounts := by
    intro r h
    obtain ⟨s, hs, rfl⟩ := Option.map_eq_some_iff.mp h
    exact hr s (List.mem_of_find?_eq_some hs)
  unfold render
  cases hv : registry.resolve heap v with
  | none => rfl
  | some r =>
    simp only [hconvert r hv heap v spec w p width precision]
    rfl

end Registry

end Stencil
