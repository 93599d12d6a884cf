import Mathlib.Data.List.Range
import Mathlib.Data.List.Perm.Basic

/-!
# Stable partition into windows

A list is partitioned into the consecutive windows of its elements, which keep their order
within a window.  Window `v` occupies the positions from `offset v` to `offset (v + 1)`, so
an arrangement that puts the elements of each window in order at these positions is the
stable partition.
-/

namespace StablePartition

variable {α : Type*} (win : α → ℕ)

/-- The elements of window `v`, in order. -/
def window (l : List α) (v : ℕ) : List α :=
  l.filter (fun a => win a = v)

/-- The number of elements in the windows before `v`. -/
def offset (l : List α) (v : ℕ) : ℕ :=
  l.countP (fun a => win a < v)

/-- The elements of the first `windows` windows, window by window. -/
def stablePartition (windows : ℕ) (l : List α) : List α :=
  (List.range windows).flatMap (window win l)

/-- The list `sorted` is the stable sort of `l` by window: a permutation of `l`, in the order of
the windows, in which the elements of each window are in the order of `l`. -/
structure IsStableSort (l sorted : List α) : Prop where
  perm : sorted.Perm l
  ordered : sorted.Pairwise (fun a b => win a ≤ win b)
  stable : ∀ v, window win sorted v = window win l v

variable {win} {l : List α}

theorem offset_zero :
  offset win l 0 = 0
  := by
  simp [offset]

theorem offset_succ (v : ℕ) :
  offset win l (v + 1) = offset win l v + (window win l v).length
  := by
  rw [offset, offset, window, ← List.countP_eq_length_filter]
  induction l with
  | nil => rfl
  | cons a l ih =>
      rw [List.countP_cons, List.countP_cons, List.countP_cons, ih]
      by_cases h : win a < v
      · simp [h, h.ne, Nat.lt_succ_of_lt h]
        omega
      · by_cases h' : win a = v
        · simp [h']
          omega
        · simp [h, h', show ¬ win a < v + 1 by omega]

theorem offset_mono (win : α → ℕ) (l : List α) {u v : ℕ} (h : u ≤ v) :
  offset win l u ≤ offset win l v
  := by
  apply List.countP_mono_left
  intro a _ ha
  simp only [decide_eq_true_eq] at ha ⊢
  omega

/-- When no element is in a later window, the offset past the last window is the number of
elements. -/
theorem offset_eq_length {windows : ℕ} (h : ∀ a ∈ l, win a < windows) :
  offset win l windows = l.length
  := by
  rw [offset, List.countP_eq_length]
  simpa using h

theorem stablePartition_succ (windows : ℕ) :
  stablePartition win (windows + 1) l = stablePartition win windows l ++ window win l windows
  := by
  rw [stablePartition, List.range_succ, List.flatMap_append, List.flatMap_singleton]
  rfl

theorem length_stablePartition (windows : ℕ) :
  (stablePartition win windows l).length = offset win l windows
  := by
  induction windows with
  | zero => rw [offset_zero]; rfl
  | succ windows ih => rw [stablePartition_succ, List.length_append, ih, offset_succ]

/-- The partition is a permutation of the elements of its windows. -/
theorem stablePartition_perm_filter (win : α → ℕ) (l : List α) (windows : ℕ) :
  (stablePartition win windows l).Perm (l.filter (fun a => win a < windows))
  := by
  induction windows with
  | zero => simp [stablePartition]
  | succ windows ih =>
      have hlt : l.filter (fun a => win a < windows)
          = (l.filter (fun a => win a < windows + 1)).filter (fun a => win a < windows) := by
        rw [List.filter_filter]
        apply List.filter_congr
        intro a _
        simp only [← Bool.decide_and, decide_eq_decide]
        omega
      have heq : window win l windows
          = (l.filter (fun a => win a < windows + 1)).filter (fun a => ! (win a < windows)) := by
        rw [window, List.filter_filter]
        apply List.filter_congr
        intro a _
        rw [← decide_not, ← Bool.decide_and, decide_eq_decide]
        omega
      rw [stablePartition_succ, heq]
      apply (ih.append_right _).trans
      rw [hlt]
      apply List.filter_append_perm

theorem stablePartition_perm {windows : ℕ} (h : ∀ a ∈ l, win a < windows) :
  (stablePartition win windows l).Perm l
  := by
  have hfilter : l.filter (fun a => win a < windows) = l := by
    rw [List.filter_eq_self]
    simpa using h
  have hperm := stablePartition_perm_filter win l windows
  rwa [hfilter] at hperm

/-- Window `v` of the partition starts at its offset. -/
theorem getElem?_stablePartition {windows v j : ℕ} (hv : v < windows)
    (hj : j < (window win l v).length) :
  (stablePartition win windows l)[offset win l v + j]? = (window win l v)[j]?
  := by
  induction windows with
  | zero => omega
  | succ windows ih =>
      rw [stablePartition_succ]
      rcases Nat.lt_succ_iff_lt_or_eq.mp hv with hlt | rfl
      · rw [List.getElem?_append_left, ih hlt]
        rw [length_stablePartition]
        have hle := offset_mono win l hlt
        rw [offset_succ] at hle
        omega
      · rw [List.getElem?_append_right (by rw [length_stablePartition]; omega),
          length_stablePartition, Nat.add_sub_cancel_left]

/-- Every position before the last offset lies in a window. -/
theorem exists_window {windows p : ℕ} (hp : p < offset win l windows) :
  ∃ v < windows, ∃ j < (window win l v).length, p = offset win l v + j
  := by
  induction windows with
  | zero => rw [offset_zero] at hp; omega
  | succ windows ih =>
      by_cases h : p < offset win l windows
      · obtain ⟨v, hv, hj⟩ := ih h
        exact ⟨v, Nat.lt_succ_of_lt hv, hj⟩
      · rw [offset_succ] at hp
        exact ⟨windows, Nat.lt_succ_self windows, p - offset win l windows, by omega, by omega⟩

/-- The positions of different places in the windows are different. -/
theorem offset_add_ne {u v i j : ℕ} (hi : i < (window win l u).length)
    (hj : j < (window win l v).length) (h : u ≠ v) :
  offset win l u + i ≠ offset win l v + j
  := by
  rcases lt_or_gt_of_ne h with huv | huv
  · have hle := offset_mono win l huv
    rw [offset_succ] at hle
    omega
  · have hle := offset_mono win l huv
    rw [offset_succ] at hle
    omega

/-- A list of the right length with each window at its offset is the partition. -/
theorem eq_stablePartition {windows : ℕ} {out : List α} (hlen : out.length = offset win l windows)
    (hout : ∀ v < windows, ∀ j < (window win l v).length,
      out[offset win l v + j]? = (window win l v)[j]?) :
  out = stablePartition win windows l
  := by
  apply List.ext_getElem?
  intro p
  by_cases hp : p < offset win l windows
  · obtain ⟨v, hv, j, hj, rfl⟩ := exists_window hp
    rw [hout v hv j hj, getElem?_stablePartition hv hj]
  · rw [List.getElem?_eq_none (by omega),
      List.getElem?_eq_none (by rw [length_stablePartition]; omega)]

/-- The positions of a window in the partition. -/
theorem take_drop_stablePartition {windows v : ℕ} (hv : v < windows) :
  ((stablePartition win windows l).drop (offset win l v)).take (window win l v).length
    = window win l v
  := by
  apply List.ext_getElem?
  intro j
  by_cases hj : j < (window win l v).length
  · rw [List.getElem?_take_of_lt hj, List.getElem?_drop, getElem?_stablePartition hv hj]
  · rw [List.getElem?_take_eq_none (by omega), List.getElem?_eq_none (by omega)]

theorem mem_stablePartition {windows : ℕ} {a : α} :
  a ∈ stablePartition win windows l ↔ a ∈ l ∧ win a < windows
  := by
  rw [(stablePartition_perm_filter win l windows).mem_iff, List.mem_filter, decide_eq_true_iff]

theorem mem_window {v : ℕ} {a : α} :
  a ∈ window win l v ↔ a ∈ l ∧ win a = v
  := by
  rw [window, List.mem_filter, decide_eq_true_iff]

theorem ordered_stablePartition (win : α → ℕ) (l : List α) (windows : ℕ) :
  (stablePartition win windows l).Pairwise (fun a b => win a ≤ win b)
  := by
  induction windows with
  | zero => apply List.Pairwise.nil
  | succ windows ih =>
      rw [stablePartition_succ, List.pairwise_append]
      refine ⟨ih, ?_, ?_⟩
      · apply List.pairwise_of_forall_mem_list
        intro a ha b hb
        rw [(mem_window.mp ha).2, (mem_window.mp hb).2]
      · intro a ha b hb
        rw [(mem_window.mp hb).2]
        apply (mem_stablePartition.mp ha).2.le

/-- A window of the partition holds the elements of the window, in order. -/
theorem window_stablePartition (win : α → ℕ) (l : List α) (windows v : ℕ) :
  window win (stablePartition win windows l) v = if v < windows then window win l v else []
  := by
  induction windows with
  | zero => rfl
  | succ windows ih =>
      rw [stablePartition_succ, window, List.filter_append, ← window, ← window, ih]
      by_cases h : v = windows
      · subst h
        rw [if_neg (lt_irrefl v), if_pos (Nat.lt_succ_self v), List.nil_append, window, window,
          List.filter_filter]
        simp
      · have hnil : window win (window win l windows) v = [] := by
          rw [window, List.filter_eq_nil_iff]
          intro a ha
          rw [(mem_window.mp ha).2, decide_eq_true_iff]
          apply Ne.symm h
        have hlt : v < windows ↔ v < windows + 1 := by omega
        rw [hnil, List.append_nil]
        simp only [hlt]

/-- When no element is in a later window, the partition is the stable sort. -/
theorem isStableSort_stablePartition {windows : ℕ} (h : ∀ a ∈ l, win a < windows) :
  IsStableSort win l (stablePartition win windows l)
  where
  perm := stablePartition_perm h
  ordered := ordered_stablePartition win l windows
  stable v := by
    rw [window_stablePartition]
    by_cases hv : v < windows
    · rw [if_pos hv]
    · rw [if_neg hv, eq_comm, window, List.filter_eq_nil_iff]
      intro a ha
      rw [decide_eq_true_iff]
      intro heq
      apply hv
      rw [← heq]
      apply h a ha

end StablePartition
