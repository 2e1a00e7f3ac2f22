import Stencil.Run.Template

/-! # What a field takes

A field takes its own argument and those for its width and its precision, if they are references.
Each reference without a position moves the turn on by one, and nothing else does.
-/

namespace Stencil

/-- The positions that are asked for, where none is the next argument in turn. -/
def Count.positions : Count → List (Option Nat)
  | literal _ => []
  | argument position => [position]

def Field.positions (f : Field) : List (Option Nat) :=
  f.position :: (f.spec.width.positions ++ f.spec.precision.elim [] Count.positions)

variable {heap : Heap} {args : List Value} {registry : Registry} {next next' : Nat}

theorem getElem?_of_take {role : Role} {position : Option Nat} {index : Nat} {v : Value}
    (h : (take args role position).result next = .ok ((index, v), next')) :
    args[index]? = some v ∧ index = position.getD next ∧ next' = next + [position].count none := by
  simp only [Run.result, take] at h
  split at h
  · next w hw => cases position <;> cases h <;> exact ⟨hw, rfl, rfl⟩
  · cases h

theorem events_of_take {role : Role} {position : Option Nat} {index : Nat} {v : Value}
    (h : (take args role position).result next = .ok ((index, v), next')) :
    (take args role position).events next = [.taken role index v] := by
  simp only [Run.result, Run.events, take] at h ⊢
  split at h
  · cases h; rfl
  · cases h

theorem takeCount_eq_ok {role : Role} {count : Count} {n : Nat}
    (h : (takeCount heap args role count).result next = .ok (n, next')) :
    (count = .literal n ∧ next' = next) ∨ ∃ position index v, count = .argument position ∧
      (take args role position).result next = .ok ((index, v), next') ∧ v.toCount = .ok n := by
  cases count with
  | literal m => cases h; exact .inl ⟨rfl, rfl⟩
  | argument position =>
    simp only [takeCount, Run.result_bind] at h
    obtain ⟨⟨⟨index, v⟩, next''⟩, ht, h⟩ := bind_eq_ok_iff.mp h
    cases hc : v.toCount with
    | ok m =>
      simp only [hc, Run.result_pure] at h
      cases h
      exact .inr ⟨position, index, v, rfl, ht, hc⟩
    | error w =>
      simp only [hc, Run.result_lift] at h
      cases hw : w.literal heap with
      | error e => rw [hw] at h; cases h
      | ok s => rw [hw] at h; cases h

theorem next_of_takeCount {role : Role} {count : Count} {n : Nat}
    (h : (takeCount heap args role count).result next = .ok (n, next')) :
    next' = next + count.positions.count none := by
  rcases takeCount_eq_ok h with ⟨rfl, rfl⟩ | ⟨position, index, v, rfl, ht, -⟩
  · rfl
  · exact (getElem?_of_take ht).2.2

theorem takeCount?_eq_ok {role : Role} {count : Option Count} {n : Option Nat}
    (h : (takeCount? heap args role count).result next = .ok (n, next')) :
    (count = none ∧ n = none ∧ next' = next) ∨ ∃ c m, count = some c ∧ n = some m ∧
      (takeCount heap args role c).result next = .ok (m, next') := by
  cases count with
  | none => cases h; exact .inl ⟨rfl, rfl, rfl⟩
  | some c =>
    simp only [takeCount?, Run.result_bind] at h
    obtain ⟨⟨m, next''⟩, hm, h⟩ := bind_eq_ok_iff.mp h
    cases h
    exact .inr ⟨c, m, rfl, rfl, hm⟩

theorem runField_eq_ok {f : Field} {text : Text}
    (h : (runField heap args registry f).result next = .ok (text, next')) :
    ∃ index v next₁ width next₂ precision,
      (take args .field f.position).result next = .ok ((index, v), next₁) ∧
      (takeCount heap args .width f.spec.width).result next₁ = .ok (width, next₂) ∧
      (takeCount? heap args .precision f.spec.precision).result next₂ = .ok (precision, next') ∧
      registry.render heap f.spec width (precision.map Int.ofNat) v = .ok text := by
  simp only [runField, Run.result_bind] at h
  obtain ⟨⟨⟨index, v⟩, next₁⟩, hv, h⟩ := bind_eq_ok_iff.mp h
  obtain ⟨⟨width, next₂⟩, hw, h⟩ := bind_eq_ok_iff.mp h
  obtain ⟨⟨precision, next₃⟩, hp, h⟩ := bind_eq_ok_iff.mp h
  simp only [Run.result_lift] at h
  cases hr : registry.render heap f.spec width (precision.map Int.ofNat) v with
  | error e => rw [hr] at h; cases h
  | ok out =>
    rw [hr] at h
    cases h
    exact ⟨index, v, next₁, width, next₂, precision, hv, hw, hp, hr⟩

theorem next_of_runField {f : Field} {text : Text}
    (h : (runField heap args registry f).result next = .ok (text, next')) :
    next' = next + f.positions.count none := by
  obtain ⟨index, v, next₁, width, next₂, precision, hv, hw, hp, -⟩ := runField_eq_ok h
  obtain ⟨-, -, rfl⟩ := getElem?_of_take hv
  obtain rfl := next_of_takeCount hw
  have hpositions : f.positions.count none = [f.position].count none +
      (f.spec.width.positions.count none +
        (f.spec.precision.elim [] Count.positions).count none) := by
    rw [Field.positions, ← List.singleton_append, List.count_append, List.count_append]
  rcases takeCount?_eq_ok hp with ⟨hn, -, rfl⟩ | ⟨c, m, hc, -, hm⟩
  · rw [hpositions, hn]
    simp [Nat.add_assoc]
  · obtain rfl := next_of_takeCount hm
    rw [hpositions, hc]
    simp [Nat.add_assoc]

end Stencil
