import Mathlib.Algebra.Order.Floor.Div
import Mathlib.Order.Interval.Finset.Nat
import Mathlib.Tactic.Common

/-!
# Range reduction by a product

The numbers below `N` are reduced to the numbers below `m` by a product and a division.  The
numbers that the reduction sends into a range are those of an interval, and they are as many, up
to less than one, as the share of the range in `m` asks for.
-/

namespace RangeReduction

variable {N m lo hi x : ℕ}

/-- A number below `N` reduced to a number below `m`. -/
def reduce (N m x : ℕ) : ℕ :=
  x * m / N

/-- The numbers reduced to `lo` or more are those from a bound on. -/
theorem le_reduce_iff (hN : 0 < N) (hm : 0 < m) :
  lo ≤ reduce N m x ↔ lo * N ⌈/⌉ m ≤ x
  := by
  rw [reduce, Nat.le_div_iff_mul_le hN, ceilDiv_le_iff_le_smul hm, smul_eq_mul, Nat.mul_comm m]

/-- The numbers reduced to a range. -/
theorem filter_reduce_eq (hN : 0 < N) (hm : 0 < m) (hhi : hi ≤ m) :
  (Finset.range N).filter (fun x => lo ≤ reduce N m x ∧ reduce N m x < hi)
    = Finset.Ico (lo * N ⌈/⌉ m) (hi * N ⌈/⌉ m)
  := by
  ext x
  have hlt : reduce N m x < hi ↔ x < hi * N ⌈/⌉ m := by
    rw [← not_le, ← not_le, le_reduce_iff hN hm]
  rw [Finset.mem_filter, Finset.mem_range, Finset.mem_Ico, le_reduce_iff hN hm, hlt,
    and_iff_right_iff_imp]
  rintro ⟨-, hx⟩
  apply lt_of_lt_of_le hx
  rw [ceilDiv_le_iff_le_smul hm, smul_eq_mul]
  apply Nat.mul_le_mul_right N hhi

/-- A range of `hi - lo` of the `m` numbers has its share of the `N` numbers, up to less than
one. -/
theorem card_reduce_bounds (hN : 0 < N) (hm : 0 < m) (hlo : lo ≤ hi) (hhi : hi ≤ m) :
  let count := ((Finset.range N).filter fun x => lo ≤ reduce N m x ∧ reduce N m x < hi).card
  count * m < (hi - lo) * N + m ∧ (hi - lo) * N < count * m + m
  := by
  intro count
  have hcount : count = hi * N ⌈/⌉ m - lo * N ⌈/⌉ m := by
    rw [← Nat.card_Ico, ← filter_reduce_eq hN hm hhi]
  have hceil : ∀ a, a ≤ (a ⌈/⌉ m) * m ∧ (a ⌈/⌉ m) * m < a + m := by
    intro a
    rw [Nat.ceilDiv_eq_add_pred_div]
    have hdiv := Nat.div_add_mod' (a + m - 1) m
    have hmod := Nat.mod_lt (a + m - 1) hm
    omega
  obtain ⟨hlo₁, hlo₂⟩ := hceil (lo * N)
  obtain ⟨hhi₁, hhi₂⟩ := hceil (hi * N)
  have hle : lo * N ≤ hi * N := Nat.mul_le_mul_right N hlo
  rw [hcount, Nat.sub_mul, Nat.sub_mul]
  omega

end RangeReduction
