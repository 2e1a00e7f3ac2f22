import Mathlib.Data.List.Induction
import Mathlib.Data.List.Nodup
import Stencil.Proofs.Registry.Counts

/-! # Registries after any history

Of several registrations of one name the last survives. A registry holds the survivors of its
history by descending priority, and those of one priority in the order of the history. So a value is
rendered by the first survivor of the highest priority that accepts it.
-/

namespace Stencil

namespace Registry

variable {registry : Registry} {r s : Registration} {history : List Registration}

def after (history : List Registration) : Registry := history.foldl register []

/-- The registrations that no later one replaces, in the order of the history. -/
def survivors : List Registration → List Registration
  | [] => []
  | r :: later => if ∃ s ∈ later, s.name = r.name then survivors later else r :: survivors later

/-- Of those that precede each other either way the order is left as it is. -/
def precedes (r s : Registration) : Bool := s.priority ≤ r.priority

theorem precedes_iff : precedes r s ↔ s.priority ≤ r.priority := decide_eq_true_iff

theorem precedes_trans (a b c : Registration) : precedes a b → precedes b c → precedes a c := by
  simp only [precedes_iff]
  omega

theorem precedes_total (a b : Registration) : precedes a b || precedes b a := by
  simp only [Bool.or_eq_true, precedes_iff]
  omega

theorem survivors_sublist (history : List Registration) : (survivors history).Sublist history := by
  induction history with
  | nil => exact .slnil
  | cons r later ih =>
    rw [survivors]
    split
    · exact ih.cons r
    · exact ih.cons_cons r

theorem survivors_append_singleton (history : List Registration) (r : Registration) :
    survivors (history ++ [r]) = (survivors history).filter (·.name ≠ r.name) ++ [r] := by
  induction history with
  | nil => simp [survivors]
  | cons a later ih =>
    by_cases ha : ∃ s ∈ later, s.name = a.name
    · have : ∃ s ∈ later ++ [r], s.name = a.name :=
        ha.imp fun s hs => ⟨List.mem_append_left _ hs.1, hs.2⟩
      rw [List.cons_append, survivors, if_pos this, survivors, if_pos ha, ih]
    · by_cases hr : a.name = r.name
      · have : ∃ s ∈ later ++ [r], s.name = a.name := ⟨r, by simp, hr.symm⟩
        rw [List.cons_append, survivors, if_pos this, survivors, if_neg ha, ih,
          List.filter_cons_of_neg (by simpa using hr)]
      · have : ¬ ∃ s ∈ later ++ [r], s.name = a.name := by
          rintro ⟨s, hs, hn⟩
          rcases List.mem_append.mp hs with hs | hs
          · exact ha ⟨s, hs, hn⟩
          · exact hr (List.mem_singleton.mp hs ▸ hn.symm)
        rw [List.cons_append, survivors, if_neg this, survivors, if_neg ha, ih,
          List.filter_cons_of_pos (by simpa using hr), List.cons_append]

theorem survivors_append_cons {earlier later : List Registration}
    (h : ∃ s ∈ later, s.name = r.name) :
    survivors (earlier ++ r :: later) = survivors (earlier ++ later) := by
  induction earlier with
  | nil => rw [List.nil_append, List.nil_append, survivors, if_pos h]
  | cons a earlier ih =>
    have hiff : (∃ s ∈ earlier ++ r :: later, s.name = a.name) ↔
        ∃ s ∈ earlier ++ later, s.name = a.name := by
      obtain ⟨s, hs, hn⟩ := h
      constructor
      · rintro ⟨u, hu, hua⟩
        rcases List.mem_append.mp hu with hu | hu
        · exact ⟨u, List.mem_append_left _ hu, hua⟩
        · rcases List.mem_cons.mp hu with rfl | hu
          · exact ⟨s, List.mem_append_right _ hs, hn.trans hua⟩
          · exact ⟨u, List.mem_append_right _ hu, hua⟩
      · rintro ⟨u, hu, hua⟩
        exact ⟨u, ((List.sublist_cons_self r later).append_left earlier).subset hu, hua⟩
    simp only [List.cons_append, survivors, hiff, ih]

theorem nodup_names_survivors (history : List Registration) :
    ((survivors history).map (·.name)).Nodup := by
  induction history with
  | nil => exact List.nodup_nil
  | cons r later ih =>
    rw [survivors]
    split
    · exact ih
    · next h =>
      rw [List.map_cons, List.nodup_cons]
      refine ⟨fun hr => ?_, ih⟩
      obtain ⟨s, hs, hn⟩ := List.mem_map.mp hr
      exact h ⟨s, (survivors_sublist later).subset hs, hn⟩

theorem survivors_of_nodup (h : (history.map (·.name)).Nodup) : survivors history = history := by
  induction history with
  | nil => rfl
  | cons r later ih =>
    rw [List.map_cons, List.nodup_cons] at h
    have : ¬ ∃ s ∈ later, s.name = r.name := fun ⟨s, hs, hn⟩ => h.1 (List.mem_map.mpr ⟨s, hs, hn⟩)
    rw [survivors, if_neg this, ih h.2]

theorem subset_of_filter {as bs : List Registration}
    (h : ∀ p, as.filter (·.priority = p) = bs.filter (·.priority = p)) : as ⊆ bs := by
  intro r hr
  have : r ∈ as.filter (·.priority = r.priority) := List.mem_filter.mpr ⟨hr, by simp⟩
  rw [h] at this
  exact (List.mem_filter.mp this).1

theorem priority_le_head {b : Registration} {bs : List Registration}
    (hb : (b :: bs).Pairwise (precedes · ·)) (h : r ∈ b :: bs) : r.priority ≤ b.priority := by
  rcases List.mem_cons.mp h with rfl | h
  · exact Int.le_refl _
  · exact precedes_iff.mp (List.rel_of_pairwise_cons hb h)

/-- A sorted registry is determined by what it holds of each priority, in order. -/
theorem eq_of_pairwise_of_filter {as bs : List Registration} (ha : as.Pairwise (precedes · ·))
    (hb : bs.Pairwise (precedes · ·))
    (h : ∀ p, as.filter (·.priority = p) = bs.filter (·.priority = p)) : as = bs := by
  have has : as ⊆ bs := subset_of_filter h
  have hbs : bs ⊆ as := subset_of_filter fun p => (h p).symm
  induction as generalizing bs with
  | nil => exact (List.subset_nil.mp hbs).symm
  | cons a as ih =>
    cases bs with
    | nil => exact List.subset_nil.mp has
    | cons b bs =>
      have hab : a.priority = b.priority :=
        Int.le_antisymm (priority_le_head hb (has (List.mem_cons_self ..)))
          (priority_le_head ha (hbs (List.mem_cons_self ..)))
      have hhead := h a.priority
      rw [List.filter_cons_of_pos (by simp), List.filter_cons_of_pos (by simp [hab])] at hhead
      obtain rfl := (List.cons.inj hhead).1
      have htail : ∀ p, as.filter (·.priority = p) = bs.filter (·.priority = p) := by
        intro p
        by_cases hp : a.priority = p
        · exact hp ▸ (List.cons.inj hhead).2
        · have := h p
          rwa [List.filter_cons_of_neg (by simpa using hp),
            List.filter_cons_of_neg (by simpa using hp)] at this
      rw [ih ha.of_cons hb.of_cons htail (subset_of_filter htail)
        (subset_of_filter fun p => (htail p).symm)]

theorem pairwise_sorted (rs : List Registration) :
    (rs.mergeSort precedes).Pairwise (precedes · ·) :=
  List.pairwise_mergeSort precedes_trans precedes_total rs

theorem filter_sorted (rs : List Registration) (p : Int) :
    (rs.mergeSort precedes).filter (·.priority = p) = rs.filter (·.priority = p) := by
  have hsub : (rs.filter (·.priority = p)).Sublist
      ((rs.mergeSort precedes).filter (·.priority = p)) := by
    have hpairwise : (rs.filter (·.priority = p)).Pairwise (precedes · ·) := by
      apply List.pairwise_of_forall_mem_list
      intro r hr s hs
      simp only [List.mem_filter, decide_eq_true_eq] at hr hs
      rw [precedes_iff]
      omega
    have := (List.sublist_mergeSort precedes_trans precedes_total hpairwise
      List.filter_sublist).filter (·.priority = p)
    simpa only [List.filter_filter, Bool.and_self] using this
  have hperm :
      (rs.filter (·.priority = p)).Perm ((rs.mergeSort precedes).filter (·.priority = p)) :=
    ((List.mergeSort_perm rs precedes).filter _).symm
  exact (hsub.eq_of_length hperm.length_eq).symm

theorem pairwise_insert (h : registry.Pairwise (precedes · ·)) :
    (insert r registry).Pairwise (precedes · ·) := by
  induction registry with
  | nil => exact List.pairwise_singleton ..
  | cons first rest ih =>
    rw [insert]
    split
    · next hle =>
      rw [List.pairwise_cons]
      refine ⟨fun s hs => precedes_iff.mpr ?_, ih h.of_cons⟩
      rcases mem_insert.mp hs with rfl | hs
      · exact hle
      · exact priority_le_head h (List.mem_cons_of_mem _ hs)
    · next hlt =>
      refine List.pairwise_cons.mpr ⟨fun s hs => precedes_iff.mpr ?_, h⟩
      have := priority_le_head h hs
      omega

theorem filter_insert (h : registry.Pairwise (precedes · ·)) (p : Int) :
    (insert r registry).filter (·.priority = p) =
      registry.filter (·.priority = p) ++ [r].filter (·.priority = p) := by
  induction registry with
  | nil => rfl
  | cons first rest ih =>
    rw [insert]
    split
    · rw [List.filter_cons, List.filter_cons, ih h.of_cons]
      split <;> rfl
    · next hlt =>
      by_cases hp : r.priority = p
      · have hnone : (first :: rest).filter (·.priority = p) = [] := by
          rw [List.filter_eq_nil_iff]
          intro s hs
          have := priority_le_head h hs
          rw [decide_eq_true_eq]
          omega
        rw [List.filter_cons, hnone]
        simp [hp]
      · simp [List.filter_cons, hp]

theorem pairwise_register (h : registry.Pairwise (precedes · ·)) (r : Registration) :
    (registry.register r).Pairwise (precedes · ·) :=
  pairwise_insert (h.filter _)

theorem filter_register (h : registry.Pairwise (precedes · ·)) (r : Registration) (p : Int) :
    (registry.register r).filter (·.priority = p) =
      (registry.filter (·.name ≠ r.name) ++ [r]).filter (·.priority = p) := by
  rw [register, filter_insert (h.filter _), List.filter_append]

/-- Registering in a sorted registry is to drop what is replaced, add at the end and sort again. -/
theorem register_eq_mergeSort (h : registry.Pairwise (precedes · ·)) (r : Registration) :
    registry.register r = (registry.filter (·.name ≠ r.name) ++ [r]).mergeSort precedes :=
  eq_of_pairwise_of_filter (pairwise_register h r) (pairwise_sorted _) fun p =>
    (filter_register h r p).trans (filter_sorted _ p).symm

theorem after_append_singleton (history : List Registration) (r : Registration) :
    after (history ++ [r]) = (after history).register r := by
  rw [after, List.foldl_append]
  rfl

theorem pairwise_after (history : List Registration) :
    (after history).Pairwise (precedes · ·) := by
  induction history using List.reverseRecOn with
  | nil => exact .nil
  | append_singleton history r ih =>
    rw [after_append_singleton]
    exact pairwise_register ih r

theorem filter_after (history : List Registration) (p : Int) :
    (after history).filter (·.priority = p) = (survivors history).filter (·.priority = p) := by
  induction history using List.reverseRecOn with
  | nil => rfl
  | append_singleton history r ih =>
    have hcomm (rs : List Registration) : (rs.filter (·.name ≠ r.name)).filter (·.priority = p) =
        (rs.filter (·.priority = p)).filter (·.name ≠ r.name) := by
      simp only [List.filter_filter, Bool.and_comm]
    rw [after_append_singleton, filter_register (pairwise_after history),
      survivors_append_singleton, List.filter_append, List.filter_append, hcomm, hcomm, ih]

theorem after_eq_mergeSort (history : List Registration) :
    after history = (survivors history).mergeSort precedes :=
  eq_of_pairwise_of_filter (pairwise_after history) (pairwise_sorted _) fun p =>
    (filter_after history p).trans (filter_sorted _ p).symm

theorem after_of_pairwise (hname : (history.map (·.name)).Nodup)
    (h : history.Pairwise (precedes · ·)) : after history = history := by
  rw [after_eq_mergeSort, survivors_of_nodup hname, List.mergeSort_of_pairwise h]

theorem perm_after (history : List Registration) : (after history).Perm (survivors history) := by
  rw [after_eq_mergeSort]
  exact List.mergeSort_perm ..

theorem mem_after : r ∈ after history ↔ r ∈ survivors history := (perm_after history).mem_iff

theorem nodup_names_after (history : List Registration) :
    ((after history).map (·.name)).Nodup :=
  ((perm_after history).map _).nodup_iff.mpr (nodup_names_survivors history)

theorem after_eq_of_perm {history' : List Registration} (h : history'.Perm history)
    (hname : (history.map (·.name)).Nodup) (hpriority : (history.map (·.priority)).Nodup) :
    after history' = after history := by
  have hname' : (history'.map (·.name)).Nodup := (h.map _).nodup_iff.mpr hname
  have hperm : (after history').Perm (after history) := by
    refine (perm_after history').trans (.trans ?_ (perm_after history).symm)
    rwa [survivors_of_nodup hname, survivors_of_nodup hname']
  apply List.Perm.eq_of_pairwise _ (pairwise_after history') (pairwise_after history) hperm
  intro r s hr hs hrs hsr
  have hr := survivors_sublist _ |>.subset (mem_after.mp (hperm.mem_iff.mp hr))
  have hs := survivors_sublist _ |>.subset (mem_after.mp hs)
  rw [precedes_iff] at hrs hsr
  exact List.inj_on_of_nodup_map hpriority hr hs (Int.le_antisymm hsr hrs)

/-- The registration accepts the value, unlike every earlier one of its priority and every one of
higher priority. -/
def IsFirstChoice (heap : Heap) (v : Value) (rs : List Registration) (r : Registration) : Prop :=
  r.accepts heap v ∧ ∃ earlier later, rs = earlier ++ r :: later ∧
    (∀ s ∈ earlier, s.accepts heap v → s.priority < r.priority) ∧
    ∀ s ∈ later, s.accepts heap v → s.priority ≤ r.priority

variable {heap : Heap} {v : Value}

theorem IsFirstChoice.le {rs : List Registration} (h : IsFirstChoice heap v rs r) (hs : s ∈ rs)
    (hv : s.accepts heap v) : s.priority ≤ r.priority := by
  obtain ⟨-, earlier, later, rfl, hearlier, hlater⟩ := h
  rcases List.mem_append.mp hs with hs | hs
  · exact Int.le_of_lt (hearlier s hs hv)
  · rcases List.mem_cons.mp hs with rfl | hs
    · exact Int.le_refl _
    · exact hlater s hs hv

theorem IsFirstChoice.mem {rs : List Registration} (h : IsFirstChoice heap v rs r) : r ∈ rs := by
  obtain ⟨-, earlier, later, rfl, -⟩ := h
  exact List.mem_append_cons_self

theorem IsFirstChoice.eq {rs : List Registration} (h : IsFirstChoice heap v rs r)
    (h' : IsFirstChoice heap v rs s) : r = s := by
  have hpriority : r.priority = s.priority :=
    Int.le_antisymm (h'.le h.mem h.1) (h.le h'.mem h'.1)
  obtain ⟨hr, earlier, later, rfl, hearlier, -⟩ := h
  obtain ⟨hs, earlier', later', hsplit, hearlier', -⟩ := h'
  rcases List.append_eq_append_iff.mp hsplit with ⟨between, rfl, hb⟩ | ⟨between, rfl, hb⟩
  · cases between with
    | nil => exact (List.cons.inj hb).1
    | cons b between =>
      obtain rfl := (List.cons.inj hb).1
      have := hearlier' r (by simp) hr
      omega
  · cases between with
    | nil => exact (List.cons.inj hb).1.symm
    | cons b between =>
      obtain rfl := (List.cons.inj hb).1
      have := hearlier s (by simp) hs
      omega

theorem isFirstChoice_of_find? (h : (after history).find? (·.accepts heap v) = some r) :
    IsFirstChoice heap v (survivors history) r := by
  obtain ⟨hr, before, behind, hsplit, hbefore⟩ := List.find?_eq_some_iff_append.mp h
  have hmem : r ∈ survivors history := mem_after.mp (List.mem_of_find?_eq_some h)
  obtain ⟨earlier, later, hsurvivors⟩ := List.append_of_mem hmem
  have hle : ∀ s ∈ survivors history, s.accepts heap v → s.priority ≤ r.priority := by
    intro s hs hv
    have hs := mem_after.mpr hs
    have hsorted := pairwise_after history
    rw [hsplit] at hs hsorted
    rcases List.mem_append.mp hs with hs | hs
    · simpa [hv] using hbefore s hs
    · exact priority_le_head (List.pairwise_append.mp hsorted).2.1 hs
  refine ⟨hr, earlier, later, hsurvivors, fun s hs hv => ?_, fun s hs hv => ?_⟩
  · refine Int.lt_iff_le_and_ne.mpr ⟨hle s (by simp [hsurvivors, hs]) hv, fun hpriority => ?_⟩
    have hfilter := filter_after history r.priority
    rw [hsplit, hsurvivors, List.filter_append, List.filter_append,
      List.filter_cons_of_pos (by simp), List.filter_cons_of_pos (by simp)] at hfilter
    have hnodup : (after history).Nodup := (nodup_names_after history).of_map _
    rw [hsplit, List.nodup_middle, List.nodup_cons, List.mem_append, not_or] at hnodup
    have hbefore' := ((List.append_cons_inj_of_notMem
      (fun hr => hnodup.1.1 (List.mem_filter.mp hr).1)
      fun hr => hnodup.1.2 (List.mem_filter.mp hr).1).mp hfilter).1
    have : s ∈ before.filter (·.priority = r.priority) := by
      rw [hbefore']
      exact List.mem_filter.mpr ⟨hs, by simpa using hpriority⟩
    simpa [hv] using hbefore s (List.mem_filter.mp this).1
  · exact hle s (by simp [hsurvivors, hs]) hv

theorem resolve_eq_some_iff {renderer : Renderer} :
    (after history).resolve heap v = some renderer ↔
      ∃ r, IsFirstChoice heap v (survivors history) r ∧ r.renderer = renderer := by
  constructor
  · intro h
    obtain ⟨r, hr, rfl⟩ := Option.map_eq_some_iff.mp h
    exact ⟨r, isFirstChoice_of_find? hr, rfl⟩
  · rintro ⟨r, hr, rfl⟩
    rw [resolve]
    cases h : (after history).find? (·.accepts heap v) with
    | none => exact absurd hr.1 (List.find?_eq_none.mp h r (mem_after.mpr hr.mem))
    | some s => rw [(isFirstChoice_of_find? h).eq hr]; rfl

theorem resolve_eq_none_iff :
    (after history).resolve heap v = none ↔ ∀ r ∈ survivors history, ¬ r.accepts heap v := by
  rw [resolve, Option.map_eq_none_iff, List.find?_eq_none]
  simp only [mem_after]

/-- A registry is the survivors of its history, sorted by priority and otherwise left in the order
of the history, although it is sorted anew with each registration. Their names are different, and
what has been replaced is as good as never registered. A value is rendered by the first that accepts
it among those of the highest priority that do. -/
theorem after_eq_sorted_survivors (history : List Registration) :
    after history = (survivors history).mergeSort precedes ∧
    (∀ r, (after history).register r =
      ((after history).filter (·.name ≠ r.name) ++ [r]).mergeSort precedes) ∧
    ((after history).map (·.name)).Nodup ∧
    (∀ history', history'.Perm history → (history.map (·.name)).Nodup →
      (history.map (·.priority)).Nodup → after history' = after history) ∧
    (∀ earlier r later, history = earlier ++ r :: later → (∃ s ∈ later, s.name = r.name) →
      after history = after (earlier ++ later)) ∧
    ∀ heap v,
      (after history).resolve heap v =
        (((survivors history).mergeSort precedes).find? (·.accepts heap v)).map (·.renderer) ∧
      (∀ renderer, (after history).resolve heap v = some renderer ↔
        ∃ r, IsFirstChoice heap v (survivors history) r ∧ r.renderer = renderer) ∧
      ((after history).resolve heap v = none ↔
        ∀ r ∈ survivors history, ¬ r.accepts heap v) := by
  refine ⟨after_eq_mergeSort history, register_eq_mergeSort (pairwise_after history),
    nodup_names_after history, fun history' => after_eq_of_perm, ?_,
    fun heap v => ⟨?_, fun renderer => resolve_eq_some_iff, resolve_eq_none_iff⟩⟩
  · rintro earlier r later rfl h
    rw [after_eq_mergeSort, after_eq_mergeSort, survivors_append_cons h]
  · rw [← after_eq_mergeSort]
    rfl

/-- A replacement that raises the priority comes behind the one that had it before. -/
theorem after_eq_sorted_survivors_tie :
    let low : Registration := ⟨"rounded".toList, 10, fun _ v => v.isNumber, .number 2⟩
    let plain : Registration := ⟨"plain".toList, 20, fun _ v => v.isNumber, .number 6⟩
    let high := { low with priority := 20 }
    (∃ s ∈ [plain, high], s.name = low.name) ∧
      after [low, plain, high] = after [plain, high] ∧
      (after [low, plain, high]).resolve [] (.int 5) = some (.number 6) := by
  intro low plain high
  have hreplaced : ∃ s ∈ [plain, high], s.name = low.name := ⟨high, by simp, rfl⟩
  have hsurvivors : survivors [low, plain, high] = [plain, high] := by
    simp [survivors, low, plain, high]
  obtain ⟨-, -, -, -, hdropped, hresolve⟩ := after_eq_sorted_survivors [low, plain, high]
  refine ⟨hreplaced, hdropped [] low [plain, high] rfl hreplaced, ?_⟩
  refine ((hresolve [] (.int 5)).2.1 _).mpr ⟨plain, ⟨rfl, [], [high], hsurvivors, nofun, ?_⟩, rfl⟩
  intro s hs _
  obtain rfl := List.mem_singleton.mp hs
  exact Int.le_refl 20

end Registry

end Stencil
