import Pleat.Hash

/-!
# Interleaved back-substitution

`Banding::back_substitute` and `Banding128::back_substitute` are one loop at two widths,
which differ in the right-hand side they take for a slot.  Here the rows are a table that
gives each slot its coefficients and its right-hand side.  One word of rolling state for
each column is shifted by one for every slot, from the last slot down to the first, and is
copied out at the start of every block of `w` slots.

The bit of column `j` at slot `i` is bit `i % w` of the segment `(i / w) * R + j`.  It is
the right-hand side at an empty slot, and it is determined by the equation of the row at
an occupied one.
-/

namespace Pleat

open Bits

variable {w : ℕ}

/-- The state of column `j` after one more row: the bits move up by one, and the new low
bit is the parity of the old ones that the row selects, corrected by the right-hand side. -/
def backSubstColumn (cr : BitVec w) (rr : U32) (j : ℕ) (sj : BitVec w) : BitVec w :=
  let tmp := sj <<< 1
  let bit := BitVec.ofNat w ((tmp &&& cr).cpop.toNat % 2) ^^^ (rr >>> j &&& 1).setWidth w
  tmp ||| bit

/-- The state of all columns after one more row. -/
def backSubstRow (row : BitVec w × U32) (state : List (BitVec w)) : List (BitVec w) :=
  state.mapIdx (backSubstColumn row.1 row.2)

/-- The state after the rows of the block that starts at `startSlot`, from its last slot
down to its first. -/
def backSubstBlock (rows : Table w 32) (startSlot : ℕ) (state : List (BitVec w)) :
    List (BitVec w) :=
  (List.range' startSlot w).reverse.foldl (fun state i => backSubstRow (rows i) state) state

/-- The slice of `data` from position `i` on overwritten by `src`. -/
def copyFromSlice {α : Type*} (data : List α) (i : ℕ) (src : List α) : List α :=
  data.take i ++ src ++ data.drop (i + src.length)

/-- One block: the state is carried through its rows and copied to its segments. -/
def backSubstStep (R : ℕ) (rows : Table w 32) (acc : List (BitVec w) × List (BitVec w))
    (block : ℕ) : List (BitVec w) × List (BitVec w) :=
  let state := backSubstBlock rows (block * w) acc.2
  (copyFromSlice acc.1 (block * R) state, state)

/-- The segments of the solution of a table of `numSlots` slots in `R` columns. -/
def backSubstitute (R numSlots : ℕ) (rows : Table w 32) : List (BitVec w) :=
  let numBlocks := numSlots / w
  ((List.range numBlocks).reverse.foldl (backSubstStep R rows)
    (List.replicate (numBlocks * R) 0, List.replicate R 0)).1

/-! ### One column -/

theorem bit_backSubstColumn_succ (cr : BitVec w) (rr : U32) (j : ℕ) (s : BitVec w) {k : ℕ}
    (hk : k + 1 < w) :
  bit (backSubstColumn cr rr j s) (k + 1) = bit s k
  := by
  have hle : (tmp : ℕ) → (BitVec.ofNat w (tmp % 2)).getLsbD (k + 1) = false := by
    intro tmp
    rw [BitVec.getLsbD_ofNat, Nat.testBit_lt_two_pow, Bool.and_false]
    calc tmp % 2 < 2 := Nat.mod_lt _ (by norm_num)
      _ ≤ 2 ^ (k + 1) := by rw [pow_succ]; have := Nat.one_le_two_pow (n := k); omega
  have hrr : ((rr >>> j &&& 1).setWidth w).getLsbD (k + 1) = false := by
    simp
  rw [bit, bit, backSubstColumn, BitVec.getLsbD_or, BitVec.getLsbD_xor, hle, hrr,
    BitVec.getLsbD_shiftLeft]
  simp [hk]

theorem bit_backSubstColumn_zero (hw : 0 < w) (cr : BitVec w) (rr : U32) (j : ℕ)
    (s : BitVec w) :
  bit (backSubstColumn cr rr j s) 0
    = ∑ k ∈ Finset.range w, bit cr k * bit (s <<< 1) k + bit rr j
  := by
  have hlow : (s <<< 1).getLsbD 0 = false := by
    simp
  have hpar : bit (BitVec.ofNat w (((s <<< 1) &&& cr).cpop.toNat % 2)) 0
      = ∑ k ∈ Finset.range w, bit cr k * bit (s <<< 1) k := by
    have h := cast_cpop ((s <<< 1) &&& cr)
    simp only [bit_and, mul_comm (bit (s <<< 1) _)] at h
    rw [← h, ← ZMod.natCast_mod]
    rcases Nat.mod_two_eq_zero_or_one (((s <<< 1) &&& cr).cpop.toNat) with h0 | h1
    · rw [h0, bit_of_false (by simp), Nat.cast_zero]
    · rw [h1, bit_of_true (by simp [hw]), Nat.cast_one]
  have hrr : bit ((rr >>> j &&& 1).setWidth w) 0 = bit rr j := by
    rw [bit, bit]
    simp [hw]
  have hor : bit (backSubstColumn cr rr j s) 0
      = bit (BitVec.ofNat w (((s <<< 1) &&& cr).cpop.toNat % 2)
          ^^^ (rr >>> j &&& 1).setWidth w) 0 := by
    rw [backSubstColumn, bit, bit, BitVec.getLsbD_or, hlow, Bool.false_or]
  rw [hor, bit_xor, Pi.add_apply, hpar, hrr]

/-- The state of column `j` after the last `m` of `n` rows. -/
def columnState (n : ℕ) (rows : Table w 32) (j : ℕ) : ℕ → BitVec w
  | 0 => 0
  | m + 1 => backSubstColumn (rows (n - (m + 1))).1 (rows (n - (m + 1))).2 j
      (columnState n rows j m)

/-- The state of column `j` once slot `i` and all later slots of the table are done. -/
def stateAt (n : ℕ) (rows : Table w 32) (j i : ℕ) : BitVec w :=
  columnState n rows j (n - i)

/-- The bit that back-substitution gives column `j` at slot `i`. -/
def solutionBit (n : ℕ) (rows : Table w 32) (j i : ℕ) : Gf2 :=
  bit (stateAt n rows j i) 0

variable {n : ℕ} {rows : Table w 32}

theorem stateAt_of_ge {j i : ℕ} (hi : n ≤ i) :
  stateAt n rows j i = 0
  := by
  rw [stateAt, Nat.sub_eq_zero_of_le hi, columnState]

theorem stateAt_of_lt {j i : ℕ} (hi : i < n) :
  stateAt n rows j i = backSubstColumn (rows i).1 (rows i).2 j (stateAt n rows j (i + 1))
  := by
  have hm : n - i = (n - (i + 1)) + 1 := by omega
  have hi' : n - (n - (i + 1) + 1) = i := by omega
  rw [stateAt, stateAt, hm, columnState, hi']

theorem solutionBit_of_ge {j i : ℕ} (hi : n ≤ i) :
  solutionBit n rows j i = 0
  := by
  rw [solutionBit, stateAt_of_ge hi, bit_zero]
  rfl

/-- The rolling state of a column holds the bits of the next `w` slots. -/
theorem bit_stateAt {j k : ℕ} (hk : k < w) (i : ℕ) :
  bit (stateAt n rows j i) k = solutionBit n rows j (i + k)
  := by
  induction k generalizing i with
  | zero => rfl
  | succ k ih =>
      by_cases hi : i < n
      · rw [stateAt_of_lt hi, bit_backSubstColumn_succ _ _ _ _ hk, ih (by omega)]
        congr 1
        omega
      · rw [stateAt_of_ge (by omega), solutionBit_of_ge (by omega), bit_zero]
        rfl

/-- The bit at a slot is the sum of the later bits its row selects and the right-hand
side. -/
theorem solutionBit_eq (hw : 0 < w) {j i : ℕ} (hi : i < n) :
  solutionBit n rows j i
    = ∑ k ∈ Finset.range (w - 1), bit (rows i).1 (k + 1) * solutionBit n rows j (i + (k + 1))
      + bit (rows i).2 j
  := by
  rw [solutionBit, stateAt_of_lt hi, bit_backSubstColumn_zero hw]
  congr 1
  have hlow : bit (stateAt n rows j (i + 1) <<< 1) 0 = 0 := by
    simp [bit]
  have hhigh : ∀ k, k < w - 1 → bit (stateAt n rows j (i + 1) <<< 1) (k + 1)
      = solutionBit n rows j (i + (k + 1)) := by
    intro k hk
    have hbit : bit (stateAt n rows j (i + 1) <<< 1) (k + 1)
        = bit (stateAt n rows j (i + 1)) k := by
      rw [bit, bit, BitVec.getLsbD_shiftLeft]
      simp [show k + 1 < w by omega]
    rw [hbit, bit_stateAt (by omega)]
    congr 1
    omega
  rw [sum_range_eq_add_low hw, hlow, mul_zero, add_zero]
  apply Finset.sum_congr rfl
  intro k hk
  rw [hhigh k (Finset.mem_range.mp hk)]

/-- The equation of a row with its low bit set holds of the bits back-substitution
gives. -/
theorem sum_solutionBit_eq (rows : Table w 32) (j : ℕ) {i : ℕ} (hi : i < n)
    (hodd : (rows i).1.getLsbD 0 = true) :
  ∑ k ∈ Finset.range w, bit (rows i).1 k * solutionBit n rows j (i + k) = bit (rows i).2 j
  := by
  have hw : 0 < w := BitVec.lt_of_getLsbD hodd
  rw [sum_range_eq_add_low hw, bit_of_true hodd, one_mul, Nat.add_zero,
    solutionBit_eq hw hi, ← add_assoc, CharTwo.add_self_eq_zero, zero_add]

/-- The bit at an empty slot is the right-hand side. -/
theorem solutionBit_of_empty (hw : 0 < w) {j i : ℕ} (hi : i < n) (hempty : (rows i).1 = 0) :
  solutionBit n rows j i = bit (rows i).2 j
  := by
  rw [solutionBit_eq hw hi, hempty, bit_zero]
  simp

/-! ### All columns -/

/-- The states of all columns once slot `i` and all later slots are done. -/
def statesAt (R n : ℕ) (rows : Table w 32) (i : ℕ) : List (BitVec w) :=
  (List.range R).map (fun j => stateAt n rows j i)

@[simp]
theorem length_statesAt (R i : ℕ) :
  (statesAt R n rows i).length = R
  := by
  simp [statesAt]

theorem backSubstRow_statesAt (R : ℕ) {i : ℕ} (hi : i < n) :
  backSubstRow (rows i) (statesAt R n rows (i + 1)) = statesAt R n rows i
  := by
  apply List.ext_getElem
  · simp [backSubstRow]
  · intro j _ _
    simp only [backSubstRow, statesAt, List.getElem_mapIdx, List.getElem_map, List.getElem_range]
    rw [stateAt_of_lt hi]

theorem foldl_backSubstRow (R a m : ℕ) (h : a + m ≤ n) :
  (List.range' a m).reverse.foldl (fun state i => backSubstRow (rows i) state)
      (statesAt R n rows (a + m))
    = statesAt R n rows a
  := by
  induction m generalizing a with
  | zero => rfl
  | succ m ih =>
      have ha : a + (m + 1) = a + 1 + m := by omega
      rw [List.range'_succ, List.reverse_cons, List.foldl_append, ha, ih (a + 1) (by omega)]
      apply backSubstRow_statesAt R (by omega)

theorem backSubstBlock_statesAt (R : ℕ) {block : ℕ} (h : (block + 1) * w ≤ n) :
  backSubstBlock rows (block * w) (statesAt R n rows ((block + 1) * w))
    = statesAt R n rows (block * w)
  := by
  rw [Nat.add_mul, Nat.one_mul] at h ⊢
  apply foldl_backSubstRow R (block * w) w h

theorem length_copyFromSlice {α : Type*} {data src : List α} {i : ℕ}
    (h : i + src.length ≤ data.length) :
  (copyFromSlice data i src).length = data.length
  := by
  simp only [copyFromSlice, List.length_append, List.length_take, List.length_drop]
  omega

theorem getElem?_copyFromSlice {α : Type*} {data src : List α} {i : ℕ}
    (h : i + src.length ≤ data.length) (k : ℕ) :
  (copyFromSlice data i src)[k]?
    = if i ≤ k ∧ k < i + src.length then src[k - i]? else data[k]?
  := by
  have hi : (data.take i).length = i := by
    rw [List.length_take]
    omega
  rw [copyFromSlice, List.append_assoc]
  split_ifs with hk
  · rw [List.getElem?_append_right (by omega), hi, List.getElem?_append_left (by omega)]
  · by_cases hki : k < i
    · rw [List.getElem?_append_left (by omega), List.getElem?_take_of_lt hki]
    · rw [List.getElem?_append_right (by omega), hi, List.getElem?_append_right (by omega),
        List.getElem?_drop]
      congr 1
      omega

/-- What the loop over the blocks has done when the blocks from `b` on are finished. -/
structure BlocksDone (R n : ℕ) (rows : Table w 32) (b : ℕ)
    (acc : List (BitVec w) × List (BitVec w)) : Prop where
  state : acc.2 = statesAt R n rows (b * w)
  length : acc.1.length = n / w * R
  data : ∀ block j, b ≤ block → block < n / w → j < R →
    acc.1[block * R + j]? = some (stateAt n rows j (block * w))

theorem BlocksDone.step {R b : ℕ} {acc : List (BitVec w) × List (BitVec w)}
    (h : BlocksDone R n rows (b + 1) acc) (hb : b < n / w) :
  BlocksDone R n rows b (backSubstStep R rows acc b)
  := by
  have hstate : backSubstBlock rows (b * w) acc.2 = statesAt R n rows (b * w) := by
    rw [h.state]
    apply backSubstBlock_statesAt
    calc (b + 1) * w ≤ n / w * w := Nat.mul_le_mul_right w hb
      _ ≤ n := Nat.div_mul_le_self n w
  have hfit : b * R + (statesAt R n rows (b * w)).length ≤ acc.1.length := by
    rw [length_statesAt, h.length]
    calc b * R + R = (b + 1) * R := by ring
      _ ≤ n / w * R := Nat.mul_le_mul_right R hb
  constructor
  · apply hstate
  · rw [backSubstStep, hstate, length_copyFromSlice hfit, h.length]
  · intro block j hblock hlt hj
    rw [backSubstStep, hstate, getElem?_copyFromSlice hfit, length_statesAt]
    rcases Nat.eq_or_lt_of_le hblock with rfl | hlater
    · rw [if_pos ⟨by omega, by omega⟩, Nat.add_sub_cancel_left]
      simp [statesAt, hj]
    · rw [if_neg]
      · apply h.data block j hlater hlt hj
      · have hle : (b + 1) * R ≤ block * R := Nat.mul_le_mul_right R hlater
        rw [Nat.add_mul, Nat.one_mul] at hle
        omega

/-- Once all blocks are done, segment `block * R + j` holds the state of column `j` at the
start of the block. -/
theorem blocksDone_backSubstitute (R : ℕ) (rows : Table w 32) (hn : n % w = 0) :
  ∃ acc, acc.1 = backSubstitute R n rows ∧ BlocksDone R n rows 0 acc
  := by
  have key : ∀ b, b ≤ n / w → BlocksDone R n rows (n / w - b)
      ((List.range' (n / w - b) b).reverse.foldl (backSubstStep R rows)
        (List.replicate (n / w * R) 0, List.replicate R 0)) := by
    intro b hb
    induction b with
    | zero =>
        constructor
        · have htop : (n / w - 0) * w = n := by
            rw [Nat.sub_zero]
            apply Nat.div_mul_cancel (Nat.dvd_of_mod_eq_zero hn)
          rw [htop]
          apply List.ext_getElem
          · simp
          · intro j _ _
            simp [statesAt, stateAt_of_ge]
        · simp
        · intro block j hle hlt _
          omega
    | succ b ih =>
        have hsub : n / w - (b + 1) + 1 = n / w - b := by omega
        rw [List.range'_succ, List.reverse_cons, List.foldl_append, hsub]
        apply BlocksDone.step (b := n / w - (b + 1))
        · rw [hsub]
          apply ih (by omega)
        · omega
  have h := key (n / w) le_rfl
  rw [Nat.sub_self, ← List.range_eq_range'] at h
  exact ⟨_, rfl, h⟩

theorem length_backSubstitute (R : ℕ) (rows : Table w 32) (hn : n % w = 0) :
  (backSubstitute R n rows).length = n / w * R
  := by
  obtain ⟨acc, hacc, h⟩ := blocksDone_backSubstitute R rows hn
  rw [← hacc, h.length]

theorem getElem?_backSubstitute {R : ℕ} (rows : Table w 32) (hn : n % w = 0) {block j : ℕ}
    (hblock : block < n / w) (hj : j < R) :
  (backSubstitute R n rows)[block * R + j]? = some (stateAt n rows j (block * w))
  := by
  obtain ⟨acc, hacc, h⟩ := blocksDone_backSubstitute R rows hn
  rw [← hacc, h.data block j (Nat.zero_le _) hblock hj]

/-- Tables whose back-substitutions agree bit for bit have the same segments. -/
theorem backSubstitute_congr {R : ℕ} {rows rows' : Table w 32} (hn : n % w = 0)
    (h : ∀ j < R, ∀ i < n, solutionBit n rows j i = solutionBit n rows' j i) :
  backSubstitute R n rows = backSubstitute R n rows'
  := by
  apply List.ext_getElem?
  intro k
  by_cases hk : k < n / w * R
  · have hR : 0 < R := Nat.pos_of_mul_pos_left (Nat.zero_lt_of_lt hk)
    have hblock : k / R < n / w := Nat.div_lt_of_lt_mul (by rwa [Nat.mul_comm])
    rw [← Nat.div_add_mod' k R, getElem?_backSubstitute rows hn hblock (Nat.mod_lt k hR),
      getElem?_backSubstitute rows' hn hblock (Nat.mod_lt k hR)]
    congr 1
    apply bit_injective
    funext p
    by_cases hp : p < w
    · rw [bit_stateAt hp, bit_stateAt hp]
      apply h _ (Nat.mod_lt k hR)
      calc k / R * w + p < (k / R + 1) * w := by rw [Nat.add_mul, Nat.one_mul]; omega
        _ ≤ n / w * w := Nat.mul_le_mul_right w hblock
        _ ≤ n := Nat.div_mul_le_self n w
    · rw [bit_of_ge (by omega), bit_of_ge (by omega)]
  · rw [List.getElem?_eq_none (by rw [length_backSubstitute R rows hn]; omega),
      List.getElem?_eq_none (by rw [length_backSubstitute R rows' hn]; omega)]

end Pleat
