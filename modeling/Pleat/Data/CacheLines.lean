import Mathlib.Data.Set.Defs
import Mathlib.Tactic.Common

/-!
# Cache lines

The elements of an array lie in lines of memory.  An element is covered by a set of touched
ones when it shares a line with one of them.  Touching an element for each line's worth
covers what lies between two touched ones, wherever the array starts; what lies past the
last touched one is covered only as far as its line goes.
-/

namespace CacheLines

/-- The line of the element at position `i` of an array at address `addr`, in bytes. -/
def line (lineSize elemSize addr i : ℕ) : ℕ :=
  (addr + i * elemSize) / lineSize

/-- The element at position `i` shares a line with a touched one. -/
def Covers (lineSize elemSize addr : ℕ) (touched : Set ℕ) (i : ℕ) : Prop :=
  ∃ t ∈ touched, line lineSize elemSize addr t = line lineSize elemSize addr i

/-- An aligned array of which `perLine` elements fill a line. -/
structure Aligned (lineSize elemSize perLine addr : ℕ) : Prop where
  positive : 0 < perLine
  elem : 0 < elemSize
  size : lineSize = perLine * elemSize
  aligned : elemSize ∣ addr

variable {lineSize elemSize perLine addr : ℕ} {touched : Set ℕ}

/-- Lines in numbers of elements. -/
theorem Aligned.line_eq (h : Aligned lineSize elemSize perLine addr) (i : ℕ) :
  line lineSize elemSize addr i = (addr / elemSize + i) / perLine
  := by
  obtain ⟨a, rfl⟩ := h.aligned
  rw [line, h.size, Nat.mul_div_cancel_left a h.elem, Nat.mul_comm elemSize a,
    ← Nat.add_mul, Nat.mul_div_mul_right _ _ h.elem]

theorem Aligned.line_mono (h : Aligned lineSize elemSize perLine addr) {i j : ℕ} (hij : i ≤ j) :
  line lineSize elemSize addr i ≤ line lineSize elemSize addr j
  := by
  rw [h.line_eq, h.line_eq]
  apply Nat.div_le_div_right (by omega)

/-- A line further there is the next line. -/
theorem Aligned.line_add_perLine (h : Aligned lineSize elemSize perLine addr) (i : ℕ) :
  line lineSize elemSize addr (i + perLine) = line lineSize elemSize addr i + 1
  := by
  rw [h.line_eq, h.line_eq, ← Nat.add_assoc, Nat.add_div_right _ h.positive]

/-- Two touched elements at most a line apart cover what lies between them. -/
theorem Aligned.covers_between (h : Aligned lineSize elemSize perLine addr) {t t' i : ℕ}
    (ht : t ∈ touched) (ht' : t' ∈ touched) (hapart : t' ≤ t + perLine) (hi : t ≤ i)
    (hi' : i ≤ t') :
  Covers lineSize elemSize addr touched i
  := by
  have hlow := h.line_mono hi
  have hhigh := h.line_mono hi'
  have hnext := h.line_mono hapart
  rw [h.line_add_perLine] at hnext
  by_cases hsame : line lineSize elemSize addr t = line lineSize elemSize addr i
  · exact ⟨t, ht, hsame⟩
  · exact ⟨t', ht', by omega⟩

/-- Elements touched a line apart from `first` on, and `last`, cover all between these two. -/
theorem Aligned.covers_of_steps (h : Aligned lineSize elemSize perLine addr) {first last i : ℕ}
    (hsteps : ∀ k, first + k * perLine < last → first + k * perLine ∈ touched)
    (hlast : last ∈ touched) (hi : first ≤ i) (hi' : i ≤ last) :
  Covers lineSize elemSize addr touched i
  := by
  have hdiv := Nat.div_add_mod' (i - first) perLine
  have hmod := Nat.mod_lt (i - first) h.positive
  rcases Nat.eq_or_lt_of_le hi' with rfl | hlt
  · exact ⟨i, hlast, rfl⟩
  · -- The touched elements next below and next above `i`.
    have hbelow := hsteps ((i - first) / perLine) (by omega)
    have hnext : first + ((i - first) / perLine + 1) * perLine
        = first + (i - first) / perLine * perLine + perLine := by
      rw [Nat.add_mul, Nat.one_mul, Nat.add_assoc]
    by_cases habove : first + ((i - first) / perLine + 1) * perLine < last
    · apply h.covers_between hbelow (hsteps _ habove) (by omega) (by omega) (by omega)
    · apply h.covers_between hbelow hlast (by omega) (by omega) hi'

/-- Past the last touched element only its own line is covered. -/
theorem Aligned.covers_iff_of_last (h : Aligned lineSize elemSize perLine addr) {t i : ℕ}
    (ht : t ∈ touched) (hlast : ∀ t' ∈ touched, t' ≤ t) (hi : t ≤ i) :
  Covers lineSize elemSize addr touched i
    ↔ line lineSize elemSize addr i = line lineSize elemSize addr t
  := by
  constructor
  · rintro ⟨t', ht', heq⟩
    apply Nat.le_antisymm _ (h.line_mono hi)
    rw [← heq]
    apply h.line_mono (hlast t' ht')
  · intro heq
    exact ⟨t, ht, heq.symm⟩

/-- The element `r` after another shares its line when it does not reach the end of it. -/
theorem Aligned.line_add_eq_iff (h : Aligned lineSize elemSize perLine addr) (i r : ℕ) :
  line lineSize elemSize addr (i + r) = line lineSize elemSize addr i
    ↔ (addr / elemSize + i) % perLine + r < perLine
  := by
  have hdiv := Nat.div_add_mod' (addr / elemSize + i) perLine
  rw [h.line_eq, h.line_eq, ← Nat.add_assoc]
  constructor
  · intro heq
    have hdiv' := Nat.div_add_mod' (addr / elemSize + i + r) perLine
    have hmod' := Nat.mod_lt (addr / elemSize + i + r) h.positive
    rw [heq] at hdiv'
    omega
  · intro hlt
    apply Nat.div_eq_of_lt_le
    · omega
    · rw [Nat.add_mul, Nat.one_mul]
      omega

end CacheLines
