import Pleat.Homogeneous.Solution
import Pleat.Standard.Solution

/-!
# The assignment of back-substitution

Back-substitution of a band matrix, however it was filled, whose rows have their low bit
set and do not reach past the last slot, returns the one assignment of bits to slots and
columns that satisfies the equation of every occupied slot and has the prescribed fill at
every empty one.
-/

namespace Pleat

open Bits Linear

/-- The rows of a matrix have their low bit set and do not reach past the last slot. -/
def InReach {w : ℕ} (coeffRows : List (BitVec w)) : Prop :=
  ∀ i c, coeffRows[i]? = some c → c ≠ 0 →
    c.getLsbD 0 = true ∧ i + bitLength c ≤ coeffRows.length

/-- The assignment `x` satisfies in `R` columns the equation of every occupied slot of a table
of `n` slots, and is the right-hand side at every empty one. -/
structure Assigns {w : ℕ} (R n : ℕ) (rows : Table w 32) (x : ℕ → ℕ → Gf2) : Prop where
  occupied : ∀ i < n, (rows i).1 ≠ 0 → ∀ j < R,
    ∑ k ∈ Finset.range w, bit (rows i).1 k * x (i + k) j = bit (rows i).2 j
  empty : ∀ i < n, (rows i).1 = 0 → ∀ j < R, x i j = bit (rows i).2 j

variable {w R n : ℕ} {rows : Table w 32}

/-- Back-substitution assigns a bit to every slot and column. -/
theorem backSubstitute_assigns (hw : 0 < w) (hn : n % w = 0)
    (hwithin : ∀ i < n, (rows i).1 ≠ 0 → Within n i (rows i).1) :
  Assigns R n rows (cell R (backSubstitute R n rows))
  where
  occupied i hi hne j hj := by
    rw [← sum_solutionBit_eq rows j hi (hwithin i hi hne).1]
    apply Finset.sum_congr rfl
    intro k _
    by_cases hbit : (rows i).1.getLsbD k = true
    · rw [cell_backSubstitute rows hn ((hwithin i hi hne).2 k hbit) hj]
    · rw [bit_of_false (Bool.eq_false_iff.mpr hbit), zero_mul, zero_mul]
  empty i hi hempty j hj := by
    rw [cell_backSubstitute rows hn hi hj, solutionBit_of_empty hw hi hempty]

/-- No other assignment satisfies the equations with the same fill: from the last slot down,
the equation of a slot leaves its bit no choice. -/
theorem Assigns.unique {x y : ℕ → ℕ → Gf2} (hx : Assigns R n rows x) (hy : Assigns R n rows y)
    (hwithin : ∀ i < n, (rows i).1 ≠ 0 → Within n i (rows i).1) {i j : ℕ} (hi : i < n)
    (hj : j < R) :
  x i j = y i j
  := by
  induction hm : n - i using Nat.strong_induction_on generalizing i with
  | _ m ih =>
      by_cases hempty : (rows i).1 = 0
      · rw [hx.empty i hi hempty j hj, hy.empty i hi hempty j hj]
      · have hrow := hwithin i hi hempty
        have hw := BitVec.lt_of_getLsbD hrow.1
        have htail : ∑ k ∈ Finset.range (w - 1), bit (rows i).1 (k + 1) * x (i + (k + 1)) j
            = ∑ k ∈ Finset.range (w - 1), bit (rows i).1 (k + 1) * y (i + (k + 1)) j := by
          apply Finset.sum_congr rfl
          intro k _
          by_cases hbit : (rows i).1.getLsbD (k + 1) = true
          · have hlater := hrow.2 _ hbit
            rw [ih (n - (i + (k + 1))) (by omega) hlater rfl]
          · rw [bit_of_false (Bool.eq_false_iff.mpr hbit), zero_mul, zero_mul]
        have hsum := (hx.occupied i hi hempty j hj).trans (hy.occupied i hi hempty j hj).symm
        rw [sum_range_eq_add_low hw, sum_range_eq_add_low hw, htail] at hsum
        have hlow := add_left_cancel hsum
        rwa [bit_of_true hrow.1, one_mul, one_mul, Nat.add_zero] at hlow

/-! ### Homogeneous matrices -/

namespace Banding

/-- The assignment `x` satisfies the homogeneous equation of every occupied slot and has the
pseudorandom fill at every empty one. -/
structure Solved (b : Banding R) (x : ℕ → ℕ → Gf2) : Prop where
  occupied : ∀ i c, b.coeffRows[i]? = some c → c ≠ 0 → ∀ j < R,
    ∑ k ∈ Finset.range W, bit c k * x (i + k) j = 0
  empty : ∀ i, b.coeffRows[i]? = some 0 → ∀ j < R,
    x i j = bit ((BitVec.ofNat 64 i * 0x9E3779B185EBCA87 : U64).setWidth 32) j

theorem solveRows_of_getElem? {b : Banding R} {i : ℕ} {c : U64} (h : b.coeffRows[i]? = some c) :
  b.solveRows i = (c, fillRow c i)
  := by
  rw [solveRows, List.getD_eq_getElem?_getD, h, Option.getD_some]

theorem getElem?_rows {b : Banding R} {i : ℕ} (hi : i < b.numSlots) :
  b.coeffRows[i]? = some (b.solveRows i).1
  := by
  rw [solveRows, List.getD_eq_getElem?_getD, List.getElem?_eq_getElem hi, Option.getD_some]

theorem solved_iff {b : Banding R} {x : ℕ → ℕ → Gf2} :
  b.Solved x ↔ Assigns R b.numSlots b.solveRows x
  := by
  have hlt : ∀ i c, b.coeffRows[i]? = some c → i < b.numSlots :=
    fun i c h => (List.getElem?_eq_some_iff.mp h).1
  constructor
  · intro h
    constructor
    · intro i hi hne j hj
      have hzero : (b.solveRows i).2 = 0 := by
        rw [solveRows_of_getElem? (getElem?_rows hi), fillRow, if_neg hne]
      rw [h.occupied i _ (getElem?_rows hi) hne j hj, hzero, bit_zero, Pi.zero_apply]
    · intro i hi hempty j hj
      have hcell := getElem?_rows hi
      rw [hempty] at hcell
      rw [h.empty i hcell j hj, solveRows_of_getElem? hcell, fillRow, if_pos rfl]
  · intro h
    constructor
    · intro i c hc hne j hj
      have hrow := solveRows_of_getElem? hc
      have hsum := h.occupied i (hlt i c hc) (by rw [hrow]; exact hne) j hj
      rw [hrow, fillRow, if_neg hne, bit_zero, Pi.zero_apply] at hsum
      apply hsum
    · intro i hc j hj
      have hrow := solveRows_of_getElem? hc
      have hcell := h.empty i (hlt i 0 hc) (by rw [hrow]) j hj
      rwa [hrow, fillRow, if_pos rfl] at hcell

theorem within_of_inReach {b : Banding R} (h : InReach b.coeffRows) {i : ℕ} (hi : i < b.numSlots)
    (hne : (b.solveRows i).1 ≠ 0) :
  Within b.numSlots i (b.solveRows i).1
  := within_iff.mpr (h i _ (getElem?_rows hi) hne)

end Banding

/-! ### Standard matrices -/

namespace Banding128

/-- The assignment `x` satisfies the equation of every occupied slot and is the result row, zero
in a matrix built by insertions, at every empty one. -/
structure Solved (b : Banding128 R) (x : ℕ → ℕ → Gf2) : Prop where
  occupied : ∀ i c r, b.coeffRows[i]? = some c → b.resultRows[i]? = some r → c ≠ 0 → ∀ j < R,
    ∑ k ∈ Finset.range W128, bit c k * x (i + k) j = bit r j
  empty : ∀ i r, b.coeffRows[i]? = some 0 → b.resultRows[i]? = some r → ∀ j < R,
    x i j = bit r j

/-- The rows that back-substitution reads. -/
abbrev solveRows (b : Banding128 R) : Table 128 32 :=
  fun i => (b.coeffRows.getD i 0, b.resultRows.getD i 0)

theorem getElem?_rows {b : Banding128 R} (hlen : b.resultRows.length = b.numSlots) {i : ℕ}
    (hi : i < b.numSlots) :
  b.coeffRows[i]? = some (b.solveRows i).1 ∧ b.resultRows[i]? = some (b.solveRows i).2
  := by
  have hi' : i < b.resultRows.length := hlen ▸ hi
  constructor
  · change b.coeffRows[i]? = some (b.coeffRows.getD i 0)
    rw [List.getD_eq_getElem?_getD, List.getElem?_eq_getElem hi, Option.getD_some]
  · change b.resultRows[i]? = some (b.resultRows.getD i 0)
    rw [List.getD_eq_getElem?_getD, List.getElem?_eq_getElem hi', Option.getD_some]

theorem solveRows_of_getElem? {b : Banding128 R} {i : ℕ} {c : U128} {r : U32}
    (hc : b.coeffRows[i]? = some c) (hr : b.resultRows[i]? = some r) :
  b.solveRows i = (c, r)
  := by
  rw [solveRows, List.getD_eq_getElem?_getD, List.getD_eq_getElem?_getD, hc, hr, Option.getD_some,
    Option.getD_some]

theorem solved_iff {b : Banding128 R} (hlen : b.resultRows.length = b.numSlots)
    {x : ℕ → ℕ → Gf2} :
  b.Solved x ↔ Assigns R b.numSlots b.solveRows x
  := by
  have hlt : ∀ i c, b.coeffRows[i]? = some c → i < b.numSlots :=
    fun i c h => (List.getElem?_eq_some_iff.mp h).1
  constructor
  · intro h
    constructor
    · intro i hi hne j hj
      obtain ⟨hc, hr⟩ := getElem?_rows hlen hi
      apply h.occupied i _ _ hc hr hne j hj
    · intro i hi hempty j hj
      obtain ⟨hc, hr⟩ := getElem?_rows hlen hi
      rw [hempty] at hc
      apply h.empty i _ hc hr j hj
  · intro h
    constructor
    · intro i c r hc hr hne j hj
      have hrow := solveRows_of_getElem? hc hr
      have hsum := h.occupied i (hlt i c hc) (by rw [hrow]; exact hne) j hj
      rwa [hrow] at hsum
    · intro i r hc hr j hj
      have hrow := solveRows_of_getElem? hc hr
      have hcell := h.empty i (hlt i 0 hc) (by rw [hrow]) j hj
      rwa [hrow] at hcell

theorem within_of_inReach {b : Banding128 R} (hlen : b.resultRows.length = b.numSlots)
    (h : InReach b.coeffRows) {i : ℕ} (hi : i < b.numSlots) (hne : (b.solveRows i).1 ≠ 0) :
  Within b.numSlots i (b.solveRows i).1
  := within_iff.mpr (h i _ (getElem?_rows hlen hi).1 hne)

end Banding128

/-! ### Both families -/

/-- Back-substitution of any matrix whose rows are in reach returns segments that hold a bit
for every slot and column, and these bits are the one assignment that satisfies the
equations of the occupied slots and has the fill at the empty ones. -/
theorem backSubstitute_solved (R : ℕ) :
  (∀ b : Banding R, b.numSlots % W = 0 → InReach b.coeffRows →
      (∀ i < b.numSlots, ∀ j < R, i / W * R + j < b.backSubstitute.length)
      ∧ b.Solved (cell R b.backSubstitute)
      ∧ ∀ x, b.Solved x → ∀ i < b.numSlots, ∀ j < R, x i j = cell R b.backSubstitute i j)
  ∧ (∀ b : Banding128 R, b.numSlots % W128 = 0 → b.resultRows.length = b.numSlots →
      InReach b.coeffRows →
      (∀ i < b.numSlots, ∀ j < R, i / W128 * R + j < b.backSubstitute.length)
      ∧ b.Solved (cell R b.backSubstitute)
      ∧ ∀ x, b.Solved x → ∀ i < b.numSlots, ∀ j < R, x i j = cell R b.backSubstitute i j)
  := by
  constructor
  · intro b hblocks hreach
    have hwithin := fun i hi => b.within_of_inReach hreach (i := i) hi
    have hassigns : Assigns R b.numSlots b.solveRows (cell R b.backSubstitute) :=
      backSubstitute_assigns (by decide) hblocks hwithin
    refine ⟨?_, Banding.solved_iff.mpr hassigns, ?_⟩
    · exact fun i hi j hj => segment_lt hblocks (length_backSubstitute R _ hblocks) hi hj
    intro x hx i hi j hj
    apply (Banding.solved_iff.mp hx).unique hassigns hwithin hi hj
  · intro b hblocks hlen hreach
    have hwithin := fun i hi => Banding128.within_of_inReach hlen hreach (i := i) hi
    have hassigns : Assigns R b.numSlots b.solveRows (cell R b.backSubstitute) :=
      backSubstitute_assigns (by decide) hblocks hwithin
    refine ⟨?_, (Banding128.solved_iff hlen).mpr hassigns, ?_⟩
    · exact fun i hi j hj => segment_lt hblocks (length_backSubstitute R _ hblocks) hi hj
    intro x hx i hi j hj
    apply ((Banding128.solved_iff hlen).mp hx).unique hassigns hwithin hi hj

/-- Matrices of one block in which the first slot is occupied. -/
theorem backSubstitute_solved_one :
  let b : Banding 2 := ⟨5 :: List.replicate 63 0, 1, 0⟩
  let b' : Banding128 2 := ⟨5 :: List.replicate 127 0, 3 :: List.replicate 127 0, 1, 0, 0⟩
  b.Solved (cell 2 b.backSubstitute) ∧ b'.Solved (cell 2 b'.backSubstitute)
  := by
  intro b b'
  have hreach : ∀ {w m : ℕ} (hw : 3 ≤ w) (hm : 2 < m),
      InReach ((5 : BitVec w) :: List.replicate (m - 1) 0) := by
    intro w m hw hm i c hc hne
    have hfive : (5 : BitVec w).toNat = 5 := by
      have hpow : 2 ^ 3 ≤ 2 ^ w := Nat.pow_le_pow_right Nat.two_pos hw
      change 5 % 2 ^ w = 5
      apply Nat.mod_eq_of_lt
      omega
    cases i with
    | zero =>
        obtain rfl := Option.some_injective _ hc
        constructor
        · rw [← BitVec.testBit_toNat, hfive]
          decide
        · have hsize : bitLength (5 : BitVec w) ≤ 3 := by
            rw [bitLength, hfive, Nat.size_le]
            decide
          rw [List.length_cons, List.length_replicate]
          omega
    | succ i =>
        rw [List.getElem?_cons_succ, List.getElem?_replicate] at hc
        split at hc
        · exact absurd (Option.some_injective _ hc).symm hne
        · cases hc
  have hslots : b.numSlots = 64 := by
    rw [Banding.numSlots, List.length_cons, List.length_replicate]
  have hslots' : b'.numSlots = 128 := by
    rw [Banding128.numSlots, List.length_cons, List.length_replicate]
  have hresults : b'.resultRows.length = b'.numSlots := by
    rw [hslots', List.length_cons, List.length_replicate]
  obtain ⟨hhomog, hstd⟩ := backSubstitute_solved 2
  constructor
  · apply (hhomog b (by rw [hslots]; rfl) (hreach (by decide) (show 2 < 64 by decide))).2.1
  · apply (hstd b' (by rw [hslots']; rfl) hresults
      (hreach (by decide) (show 2 < 128 by decide))).2.1

end Pleat
