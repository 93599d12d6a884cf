import Pleat.Query

/-!
# Solving a table

Back-substitution reads the rows of a well-formed table, with a right-hand side of its own
at each empty slot.  The segments it computes satisfy every equation in the span of the
table, and the span, the number of slots and the right-hand sides at the empty slots
determine them: the span fixes which slots are empty, and no other assignment satisfies
the equations with the same values there.
-/

namespace Pleat

open Bits Linear

variable {w r n : ℕ}

/-- The rows read are those of the table `t`, with the right-hand sides `fill` at the empty
slots. -/
structure Reads (rows : Table w 32) (t : Table w r) (fill : ℕ → U32) : Prop where
  coeff : ∀ i, (rows i).1 = (t i).1
  result : ∀ i, (t i).1 ≠ 0 → bit (rows i).2 = bit (t i).2
  fill : ∀ i, (t i).1 = 0 → (rows i).2 = fill i

namespace Reads

variable {rows rows' : Table w 32} {t t' : Table w r} {fill : ℕ → U32}

/-- The bits of a column satisfy the equations of the table. -/
theorem solves (h : Reads rows t fill) (ht : t.WellFormed n) (j : ℕ) :
  Solves (column j) (solutionBit n rows j) (t.echelon ht).equations
  := by
  rw [Table.solves_echelon_iff]
  intro i hi
  have hwithin := ht.within i hi
  have hodd : (rows i).1.getLsbD 0 = true := by
    rw [h.coeff]
    apply hwithin.1
  have hsum := sum_solutionBit_eq rows j hwithin.slot_lt hodd
  rw [h.coeff, h.result i hi] at hsum
  apply hsum

/-- At an empty slot the bit is that of the right-hand side. -/
theorem solutionBit_of_empty (h : Reads rows t fill) (hw : 0 < w) {i : ℕ} (hi : i < n)
    (hempty : (t i).1 = 0) (j : ℕ) :
  solutionBit n rows j i = bit (fill i) j
  := by
  rw [Pleat.solutionBit_of_empty hw hi (by rw [h.coeff, hempty]), h.fill i hempty]

/-- The segments are determined by the span and the right-hand sides at the empty slots. -/
theorem backSubstitute_eq (h : Reads rows t fill) (h' : Reads rows' t' fill) (hw : 0 < w)
    (ht : t.WellFormed n) (ht' : t'.WellFormed n) (hspan : t'.span = t.span) (hn : n % w = 0)
    (R : ℕ) :
  backSubstitute R n rows' = backSubstitute R n rows
  := by
  have hechelon : (t'.echelon ht').span = (t.echelon ht).span := by
    rw [Table.span_echelon, Table.span_echelon, hspan]
  have hpivots := Echelon.pivots_eq_of_span_eq hechelon
  have hbits : ∀ j, solutionBit n rows' j = solutionBit n rows j := by
    intro j
    apply Echelon.solution_unique_of_span_eq hechelon (h'.solves ht' j) (h.solves ht j)
    intro i hi
    have hempty' : (t' i).1 = 0 := by
      rw [Table.mem_pivots_echelon] at hi
      apply not_not.mp hi
    have hempty : (t i).1 = 0 := by
      rw [hpivots, Table.mem_pivots_echelon] at hi
      apply not_not.mp hi
    by_cases hin : i < n
    · rw [h'.solutionBit_of_empty hw hin hempty', h.solutionBit_of_empty hw hin hempty]
    · rw [solutionBit_of_ge (by omega), solutionBit_of_ge (by omega)]
  apply backSubstitute_congr hn
  intro j _ i _
  rw [hbits]

/-- The segments satisfy, in every column, an equation in the span of the table. -/
theorem sum_cell_eq (h : Reads rows t fill) (ht : t.WellFormed n) (hn : n % w = 0) {R i : ℕ}
    {c : BitVec w} {s : ℕ} {b : BitVec s} (hmem : equationAt i c b ∈ t.span) (hi : i + w ≤ n)
    {j : ℕ} (hj : j < R) :
  ∑ k ∈ Finset.range w, bit c k * cell R (backSubstitute R n rows) (i + k) j = bit b j
  := by
  rw [← Table.span_echelon ht] at hmem
  have hsum := (h.solves ht j).of_mem_span hmem
  rw [equationAt, linearCombination_place] at hsum
  apply Eq.trans _ hsum
  apply Finset.sum_congr rfl
  intro k hk
  have hin : i + k < n := lt_of_lt_of_le (Nat.add_lt_add_left (Finset.mem_range.mp hk) i) hi
  rw [smul_eq_mul, cell_backSubstitute rows hn hin hj]

end Reads

end Pleat
