import Pleat.Bits.Table
import Pleat.Data.LittleEndian
import Pleat.Machine

/-!
# Hashing keys to rows

The hash of a key, and the start slot, coefficient row and result row derived from it,
for the homogeneous filter with rows of 64 bits (`hash.rs`) and the standard filter with
rows of 128 bits (`hash128.rs`).
-/

namespace Pleat

open Bits LittleEndian

/-! ### Rows of 64 bits -/

/-- The hash of a key: a finalizer applied to `key + rawSeed`. -/
def ribbonHash (key rawSeed : U64) : U64 :=
  let h := key + rawSeed
  let h := h ^^^ (h >>> 33)
  let h := h * 0xff51afd7ed558ccd
  let h := h ^^^ (h >>> 33)
  let h := h * 0xc4ceb9fe1a85ec53
  h ^^^ (h >>> 33)

/-- The start slot of a hash: the high half of the product with the number of starts. -/
def start (h numStarts : U64) : U64 :=
  ((h.setWidth 128 * numStarts.setWidth 128) >>> 64).setWidth 64

/-- `K_COEFF_AND_RESULT_FACTOR` -/
def coeffAndResultFactor : U64 := 0xc28f82822b650bed

/-- The coefficient row of a hash; its low bit is set. -/
def coeffRow (h : U64) : U64 :=
  h * coeffAndResultFactor ||| 1

/-! ### Rows of 128 bits -/

/-- `K_COEFF_XOR64` -/
def coeffXor64 : U64 := 0xc367844a6e52731d

/-- `K_SEED_MIX_MASK` -/
def seedMixMask : U64 := 0xf0f0f0f0f0f0f0f0

/-- `K_SEED_MIX_SHIFT` -/
def seedMixShift : ℕ := 4

/-- `K_TO_RAW_SEED_FACTOR` -/
def toRawSeedFactor : U64 := 0xc78219a23eeadd03

/-- The coefficient row of a hash; its low bit is set. -/
def coeffRow128 (h : U64) : U128 :=
  let a := h * coeffAndResultFactor
  let c := (a.setWidth 128 <<< 64) ^^^ (a ^^^ coeffXor64).setWidth 128
  c ||| 1

/-- The bytes of a word in the opposite order. -/
def swapBytes (a : U64) : U64 :=
  BitVec.ofNat 64 (ofLe (toLe 8 a.toNat).reverse)

/-- The result row of a hash. -/
def resultRow (h : U64) : U32 :=
  let a := h * coeffAndResultFactor
  (swapBytes a).setWidth 32

/-- The raw seed an ordinal seed stands for. -/
def ordinalToRawSeed (ordinal : U32) : U32 :=
  let tmp := ordinal.setWidth 64 * toRawSeedFactor
  let tmp := tmp ^^^ ((tmp &&& seedMixMask) >>> seedMixShift)
  tmp.setWidth 32

/-! ### Bounds -/

theorem start_toNat (h numStarts : U64) :
  (start h numStarts).toNat = h.toNat * numStarts.toNat / 2 ^ 64
  := by
  have hlt : h.toNat * numStarts.toNat < 2 ^ 64 * 2 ^ 64 :=
    Nat.mul_lt_mul'' h.isLt numStarts.isLt
  have hh : h.toNat < 2 ^ 128 := lt_trans h.isLt (by norm_num)
  have hn : numStarts.toNat < 2 ^ 128 := lt_trans numStarts.isLt (by norm_num)
  rw [start, BitVec.toNat_setWidth, BitVec.toNat_ushiftRight, BitVec.toNat_mul,
    BitVec.toNat_setWidth, BitVec.toNat_setWidth, Nat.mod_eq_of_lt hh, Nat.mod_eq_of_lt hn,
    Nat.mod_eq_of_lt (lt_of_lt_of_eq hlt (by norm_num)), Nat.shiftRight_eq_div_pow,
    Nat.mod_eq_of_lt (Nat.div_lt_of_lt_mul hlt)]

/-- A start slot is below the number of starts. -/
theorem start_lt {h numStarts : U64} (hpos : 0 < numStarts.toNat) :
  (start h numStarts).toNat < numStarts.toNat
  := by
  rw [start_toNat]
  apply Nat.div_lt_of_lt_mul
  apply Nat.mul_lt_mul_of_pos_right h.isLt hpos

/-- A row of `w` bits placed at a start slot does not reach past the last slot of a table,
`numStarts` being the number of slots less `w - 1`. -/
theorem start_add_le {w n : ℕ} (hn : w ≤ n) (h : U64) :
  (start h (BitVec.ofNat 64 (n - w + 1))).toNat + w ≤ n
  := by
  have hle : (BitVec.ofNat 64 (n - w + 1)).toNat ≤ n - w + 1 := by
    rw [BitVec.toNat_ofNat]
    apply Nat.mod_le
  rcases Nat.eq_zero_or_pos (BitVec.ofNat 64 (n - w + 1)).toNat with h0 | hpos
  · rw [start_toNat, h0, Nat.mul_zero, Nat.zero_div]
    omega
  · have hlt := start_lt (h := h) hpos
    omega

/-- So it is a slot of the table. -/
theorem start_lt_slots {w n : ℕ} (hw : 0 < w) (hn : w ≤ n) (h : U64) :
  (start h (BitVec.ofNat 64 (n - w + 1))).toNat < n
  := by
  have hle := start_add_le hn h
  omega

theorem coeffRow_odd (h : U64) :
  (coeffRow h).getLsbD 0 = true
  := by
  rw [coeffRow, BitVec.getLsbD_or]
  simp

theorem coeffRow128_odd (h : U64) :
  (coeffRow128 h).getLsbD 0 = true
  := by
  rw [coeffRow128, BitVec.getLsbD_or]
  simp

/-- A row with its low bit set, placed at a start slot, stays within the table. -/
theorem within_start {w n : ℕ} (hn : w ≤ n) (h : U64) {c : BitVec w}
    (hc : c.getLsbD 0 = true) :
  Within n (start h (BitVec.ofNat 64 (n - w + 1))).toNat c
  := by
  constructor
  · apply hc
  · intro k hk
    have hkw : k < w := BitVec.lt_of_getLsbD hk
    have hle := start_add_le hn h
    omega

end Pleat
