import Pleat.BackSubstitution

/-!
# Reading an interleaved solution

A solution keeps the bit of column `j` at slot `i` in segment `(i / w) * R + j`, at
position `i % w`.  A query for a row that starts in the middle of a block reads two
consecutive blocks: the row is shifted left to meet the first and right to meet the
second.  The bits the two shifts select are those the row selects from its start slot on.
-/

namespace Pleat

open Bits

variable {w : ℕ}

/-- The bit of column `j` at slot `i` of the interleaved `segments`. -/
def cell (R : ℕ) (segments : List (BitVec w)) (i j : ℕ) : Gf2 :=
  bit (segments.getD (i / w * R + j) 0) (i % w)

/-- The bits of a segment are the bits of its column at the slots of its block. -/
theorem bit_eq_cell {R : ℕ} {segments : List (BitVec w)} {block j : ℕ} {word : BitVec w}
    (h : segments[block * R + j]? = some word) {p : ℕ} (hp : p < w) :
  bit word p = cell R segments (block * w + p) j
  := by
  have hdiv : (block * w + p) / w = block := by
    rw [Nat.mul_comm, Nat.mul_add_div (by omega), Nat.div_eq_of_lt hp, Nat.add_zero]
  have hmod : (block * w + p) % w = p := by
    rw [Nat.mul_comm, Nat.mul_add_mod, Nat.mod_eq_of_lt hp]
  rw [cell, hdiv, hmod, List.getD_eq_getElem?_getD, h, Option.getD_some]

/-- Back-substitution leaves the bit it computes for a column at each slot. -/
theorem cell_backSubstitute {R n : ℕ} (rows : Table w 32) (hn : n % w = 0) {i j : ℕ}
    (hi : i < n) (hj : j < R) :
  cell R (backSubstitute R n rows) i j = solutionBit n rows j i
  := by
  have hw : 0 < w := by
    rcases Nat.eq_zero_or_pos w with rfl | hw
    · rw [Nat.mod_zero] at hn
      omega
    · apply hw
  have hblock : i / w < n / w := by
    apply Nat.div_lt_of_lt_mul
    rw [Nat.mul_div_cancel' (Nat.dvd_of_mod_eq_zero hn)]
    apply hi
  rw [cell, List.getD_eq_getElem?_getD, getElem?_backSubstitute rows hn hblock hj,
    Option.getD_some, bit_stateAt (Nat.mod_lt i hw), Nat.mul_comm, Nat.div_add_mod]

/-- The two shifts of a row select from two consecutive words the bits that the row selects
from position `s` of the first on. -/
theorem sum_bit_straddle (lo hi c : BitVec w) {s : ℕ} (hs : s < w) (x : ℕ → Gf2)
    (hlo : ∀ p < w, bit lo p = x p) (hhi : s ≠ 0 → ∀ p < w, bit hi p = x (w + p))
    (hsame : s = 0 → hi = lo) :
  ∑ p ∈ Finset.range w, bit (lo &&& c <<< s ||| hi &&& c >>> ((w - s) % w)) p
    = ∑ k ∈ Finset.range w, bit c k * x (s + k)
  := by
  rcases Nat.eq_zero_or_pos s with rfl | hpos
  · rw [hsame rfl, Nat.sub_zero, Nat.mod_self, BitVec.shiftLeft_zero, BitVec.ushiftRight_zero,
      BitVec.or_self]
    apply Finset.sum_congr rfl
    intro p hp
    rw [bit_and, hlo p (Finset.mem_range.mp hp), mul_comm, Nat.zero_add]
  · rw [Nat.mod_eq_of_lt (by omega)]
    -- Below `s` only the second word is selected from, from `s` on only the first.
    have hlow : ∀ p < s, bit (lo &&& c <<< s ||| hi &&& c >>> (w - s)) p
        = bit c (w - s + p) * x (w + p) := by
      intro p hp
      rw [← hhi (by omega) p (by omega), ← bit_ushiftRight, mul_comm, ← bit_and, bit, bit,
        BitVec.getLsbD_or, BitVec.getLsbD_and, BitVec.getLsbD_shiftLeft]
      simp [hp]
    have hhigh : ∀ q < w - s, bit (lo &&& c <<< s ||| hi &&& c >>> (w - s)) (s + q)
        = bit c q * x (s + q) := by
      intro q hq
      have hout : c.getLsbD (w - s + (s + q)) = false :=
        BitVec.getLsbD_of_ge _ _ (by omega)
      have hin : (c <<< s).getLsbD (s + q) = c.getLsbD q := by
        rw [BitVec.getLsbD_shiftLeft]
        simp [show s + q < w by omega]
      rw [← hlo (s + q) (by omega), bit, bit, bit, BitVec.getLsbD_or, BitVec.getLsbD_and,
        BitVec.getLsbD_and, hin, BitVec.getLsbD_ushiftRight, hout, Bool.and_false,
        Bool.or_false]
      cases c.getLsbD q <;> cases lo.getLsbD (s + q) <;> simp
    have hsplit : ∀ (f : ℕ → Gf2) (a : ℕ), a ≤ w →
        ∑ p ∈ Finset.range w, f p
          = ∑ p ∈ Finset.range a, f p + ∑ q ∈ Finset.range (w - a), f (a + q) := by
      intro f a ha
      rw [← Finset.sum_range_add, Nat.add_sub_cancel' ha]
    rw [hsplit _ s hs.le, hsplit _ (w - s) (by omega), Nat.sub_sub_self hs.le, add_comm]
    congr 1
    · apply Finset.sum_congr rfl
      intro q hq
      apply hhigh q (Finset.mem_range.mp hq)
    · apply Finset.sum_congr rfl
      intro p hp
      rw [hlow p (Finset.mem_range.mp hp)]
      congr 2
      omega

/-! ### The blocks a query reads -/

/-- A row of `w` bits at slot `i` of `n` starts in a block of the table. -/
theorem block_lt {n i : ℕ} (hn : n % w = 0) (hi : i + w ≤ n) (hw : 0 < w) :
  i / w < n / w
  := by
  apply Nat.div_lt_of_lt_mul
  rw [Nat.mul_div_cancel' (Nat.dvd_of_mod_eq_zero hn)]
  omega

/-- A row that starts past the first slot of a block has a next block to reach into. -/
theorem succ_block_lt {n i : ℕ} (hn : n % w = 0) (hi : i + w ≤ n)
    (hbit : i % w ≠ 0) :
  i / w + 1 < n / w
  := by
  have hdiv := Nat.div_add_mod i w
  have hmul := Nat.mul_div_cancel' (Nat.dvd_of_mod_eq_zero hn)
  apply Nat.lt_of_mul_lt_mul_left (a := w)
  rw [Nat.mul_add, Nat.mul_one, hmul]
  omega

/-- The segments of the two blocks a query reads are within the solution. -/
theorem slices_le {R n : ℕ} {segments : List (BitVec w)} (hn : n % w = 0)
    (hlen : segments.length = n / w * R) (hw : 0 < w) {i : ℕ} (hi : i + w ≤ n) :
  i / w * R + R ≤ segments.length
    ∧ i / w * R + (if i % w ≠ 0 then R else 0) + R ≤ segments.length
  := by
  have hblock : ∀ block, block < n / w → block * R + R ≤ segments.length := by
    intro block hblock
    rw [hlen]
    calc block * R + R = (block + 1) * R := by rw [Nat.add_mul, Nat.one_mul]
      _ ≤ n / w * R := Nat.mul_le_mul_right R hblock
  constructor
  · apply hblock _ (block_lt hn hi hw)
  · by_cases hbit : i % w = 0
    · rw [if_neg (not_not.mpr hbit), Nat.add_zero]
      apply hblock _ (block_lt hn hi hw)
    · have h := hblock _ (succ_block_lt hn hi hbit)
      rw [if_pos hbit]
      rwa [Nat.add_mul, Nat.one_mul] at h

/-- A segment holds each bit of the matrix. -/
theorem segment_lt {n w R len i j : ℕ} (hn : n % w = 0) (hlen : len = n / w * R) (hi : i < n)
    (hj : j < R) :
  i / w * R + j < len
  := by
  have hblock : i / w < n / w := by
    apply Nat.div_lt_of_lt_mul
    rw [Nat.mul_div_cancel' (Nat.dvd_of_mod_eq_zero hn)]
    apply hi
  rw [hlen]
  calc i / w * R + j < (i / w + 1) * R := by rw [Nat.add_mul, Nat.one_mul]; omega
    _ ≤ n / w * R := Nat.mul_le_mul_right R hblock

/-- The two words a query reads for column `j` exist, and the shifted row `c` selects from
them the bits that `c` selects from slot `i` on. -/
theorem exists_words {R n : ℕ} {segments : List (BitVec w)} (hn : n % w = 0)
    (hlen : segments.length = n / w * R) (hw : 0 < w) {i : ℕ} (hi : i + w ≤ n) (c : BitVec w)
    {j : ℕ} (hj : j < R) :
  ∃ lo hi, segments[i / w * R + j]? = some lo
    ∧ segments[i / w * R + (if i % w ≠ 0 then R else 0) + j]? = some hi
    ∧ ∑ p ∈ Finset.range w, bit (lo &&& c <<< (i % w) ||| hi &&& c >>> ((w - i % w) % w)) p
      = ∑ k ∈ Finset.range w, bit c k * cell R segments (i + k) j
  := by
  have hread : ∀ block, block < n / w → ∃ word, segments[block * R + j]? = some word := by
    intro block hblock
    have hlt : block * R + j < segments.length := by
      rw [hlen]
      calc
        block * R + j < (block + 1) * R := by rw [Nat.add_mul, Nat.one_mul]; omega
        _ ≤ n / w * R := Nat.mul_le_mul_right R hblock
    exact ⟨segments[block * R + j], List.getElem?_eq_getElem hlt⟩
  obtain ⟨lo, hlo⟩ := hread _ (block_lt hn hi hw)
  have hcell : ∀ k, cell R segments (i + k) j = cell R segments (i / w * w + (i % w + k)) j := by
    intro k
    rw [← Nat.add_assoc, Nat.div_add_mod']
  simp only [hcell]
  by_cases hbit : i % w = 0
  · use lo, lo, hlo, by rw [if_neg (not_not.mpr hbit)]; exact hlo
    apply sum_bit_straddle lo lo c (Nat.mod_lt i hw) (fun p => cell R segments (i / w * w + p) j)
      (fun p hp => bit_eq_cell hlo hp) (fun h => absurd hbit h) (fun _ => rfl)
  · obtain ⟨hi', hhi⟩ := hread _ (succ_block_lt hn hi hbit)
    use lo, hi', hlo
    constructor
    · rw [if_pos hbit, ← hhi, Nat.add_mul, Nat.one_mul]
    · apply sum_bit_straddle lo hi' c (Nat.mod_lt i hw) (fun p => cell R segments (i / w * w + p) j)
      · exact fun p hp => bit_eq_cell hlo hp
      · intro _ p hp
        rw [← Nat.add_assoc]
        have h := bit_eq_cell hhi hp
        rwa [Nat.add_mul, Nat.one_mul] at h
      · exact fun h => absurd h hbit

end Pleat
