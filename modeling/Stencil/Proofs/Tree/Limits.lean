import Stencil.Proofs.Tree.Path
import Stencil.Tree.Pretty

/-! # Limits of printing

The text of a value fails only where a number has too many digits. A tree whose leaves have texts is
printed, whatever its shape, if the indentation of its deepest level can be written.
-/

namespace Stencil

variable {α : Type}

abbrev FailsOnlyForDigits (x : Except Failure α) : Prop := FailsOnly (· = .exceeded .digits) x

theorem decimalText_failsOnly (n : Int) : FailsOnlyForDigits (decimalText n) := by
  intro e h
  unfold decimalText at h
  split at h <;> cases h
  rfl

theorem rangeText_failsOnly (start stop step : Int) :
    FailsOnlyForDigits (rangeText start stop step) := by
  unfold rangeText
  apply (FailsOnly.mapM fun n _ => decimalText_failsOnly n).bind
  intro bounds
  split
  · exact .ok _
  · exact (FailsOnly.mapM fun n _ => decimalText_failsOnly n).bind fun steps => .ok _

theorem Container.literal_failsOnly {inner : Value → Except Failure (List Char)}
    (h : ∀ v, FailsOnlyForDigits (inner v)) (c : Container) :
    FailsOnlyForDigits (c.literal inner) := by
  cases c with
  | sequence kind items => exact (FailsOnly.mapM fun v _ => h v).bind fun parts => .ok _
  | mapping kind entries =>
    refine (FailsOnly.mapM fun entry _ => ?_).bind fun parts => .ok _
    exact (h entry.1).bind fun key => (h entry.2).bind fun value => .ok _
  | set members => exact (FailsOnly.mapM fun v _ => h v).bind fun parts => .ok _

theorem Value.literalWithin_failsOnly (heap : Heap) (path : List Nat) (v : Value) :
    FailsOnlyForDigits (v.literalWithin heap path) := by
  induction hn : heap.unvisited path using Nat.strongRecOn generalizing path v with
  | ind n ih =>
    cases v with
    | container address =>
      by_cases hp : address ∈ path
      · rw [literalWithin, dif_pos hp]
        exact .ok _
      · by_cases hl : address < heap.length
        · have hlt := heap.unvisited_cons_lt hl hp
          rw [literalWithin_container hp]
          exact Container.literal_failsOnly (fun u => ih _ (hn ▸ hlt) _ u rfl) _
        · rw [literalWithin, dif_neg hp, dif_neg hl]
          exact .ok _
    | _ =>
      rw [literalWithin]
      first
      | exact .ok _
      | exact decimalText_failsOnly _
      | exact rangeText_failsOnly _ _ _

theorem Value.text_failsOnly (heap : Heap) (v : Value) : FailsOnlyForDigits (v.text heap) := by
  cases v with
  | string s => exact .ok _
  | object typeName text literal => exact .ok _
  | container address => exact Container.literal_failsOnly (literalWithin_failsOnly heap _) _
  | _ => exact literalWithin_failsOnly heap [] _

theorem exists_repeated_eq_ok (a : α) {n : Nat} (h : n ≤ repetitionLimit) :
    ∃ s, repeated [a] n = .ok s := by
  have hlen : [a].length * n ≤ repetitionLimit := by rwa [List.length_singleton, Nat.one_mul]
  rw [repeated, if_pos ⟨h, hlen⟩]
  exact ⟨_, rfl⟩

theorem exists_spaces_eq_ok {n : Int} (hn : 0 ≤ n) (h : n ≤ repetitionLimit) :
    ∃ s, spaces n = .ok s := by
  have hlow : ¬ n < -(2 ^ 63) := by omega
  rw [spaces, if_neg hlow]
  exact exists_repeated_eq_ok ' ' (by omega)

namespace Tree

mutual

def leaves : Tree → List Value
  | leaf v => [v]
  | self => []
  | branch _ entries => leavesIn entries
  termination_by structural t => t

def leavesIn : List (Tree × Tree) → List Value
  | [] => []
  | (key, value) :: rest => key.leaves ++ value.leaves ++ leavesIn rest
  termination_by structural entries => entries

end

theorem mem_leavesIn {entries : List (Tree × Tree)} {v : Value} :
    v ∈ leavesIn entries ↔ ∃ entry ∈ entries, v ∈ entry.1.leaves ∨ v ∈ entry.2.leaves := by
  induction entries with
  | nil => simp [leavesIn]
  | cons entry rest ih => simp [leavesIn, ih, or_assoc]

theorem exists_print_eq_ok {heap : Heap} {o : PrettyOptions} (order : List Nat)
    (hi : 0 ≤ o.indent) (t : Tree) {depth : Int} (hd : 0 ≤ depth)
    (hleaf : ∀ v ∈ t.leaves, ∃ s, v.text heap = .ok s)
    (hr : o.indent * (depth + t.height) ≤ repetitionLimit) :
    ∃ s, t.print heap o order depth = .ok s := by
  induction t using Tree.induct generalizing depth with
  | leaf v => exact hleaf v (List.mem_singleton_self v)
  | self => exact ⟨_, rfl⟩
  | branch address entries ih =>
    by_cases hnil : entries = []
    · rw [hnil]
      exact ⟨_, rfl⟩
    · rw [height_branch address hnil] at hr
      have within (n : Int) (hn : 0 ≤ n) (h : n ≤ depth + 1) :
          ∃ s, spaces (o.indent * n) = .ok s := by
        refine exists_spaces_eq_ok (Int.mul_nonneg hi hn) (le_trans ?_ hr)
        exact Int.mul_le_mul_of_nonneg_left (by omega) hi
      obtain ⟨padding, hpadding⟩ := within (depth + 1) (by omega) (by omega)
      obtain ⟨closing, hclosing⟩ := within depth hd (by omega)
      have hlines : ∃ lines, entries.mapM (line padding (print heap o order (depth + 1))) =
          .ok lines := by
        apply exists_mapM_eq_ok
        intro entry hentry
        obtain ⟨hk, hv⟩ := heightIn_le_iff.mp le_rfl entry hentry
        have room (side : Tree) (h : side.height ≤ heightIn entries) :
            o.indent * (depth + 1 + side.height) ≤ repetitionLimit := by
          refine le_trans (Int.mul_le_mul_of_nonneg_left ?_ hi) hr
          push_cast
          omega
        obtain ⟨key, hkey⟩ := (ih entry hentry).1 (by omega)
          (fun v hv => hleaf v (mem_leavesIn.mpr ⟨entry, hentry, .inl hv⟩)) (room _ hk)
        obtain ⟨value, hvalue⟩ := (ih entry hentry).2 (by omega)
          (fun v hv => hleaf v (mem_leavesIn.mpr ⟨entry, hentry, .inr hv⟩)) (room _ hv)
        exact ⟨_, by simp only [line, hkey, hvalue]; rfl⟩
      obtain ⟨lines, hlines⟩ := hlines
      rw [print_branch _ _ _ _ _ hnil, hpadding, hclosing]
      simp only [bind, Except.bind, hlines]
      exact ⟨_, rfl⟩

end Tree

end Stencil
