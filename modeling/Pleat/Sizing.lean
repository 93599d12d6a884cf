import Pleat.Machine
import Mathlib.Order.MinMax
import Mathlib.Tactic.Common

/-!
# Sizing

The width of a filter, the number of slots of its table and the number of slots of a
window.  A filter sizes its
table by a product in floating point, of which nothing is used but that it is a natural
number; it is rounded up to whole blocks.
-/

namespace Pleat

/-- What the compiler checks of the number of result columns. -/
def checkWidth (R : ℕ) : Prop :=
  1 ≤ R ∧ R ≤ 32

/-- A sizing product rounded up to a multiple of `w`, and never fewer than two blocks. -/
def roundUpNumSlots (w raw : ℕ) : ℕ :=
  let s := divCeil raw w * w
  let s := if s = w then s + w else s
  max s (2 * w)

/-- The number of slots of a window; the shift must be smaller than the width of a
pointer. -/
def windowSize (T : Target) (windowShift : ℕ) : Option ℕ :=
  if windowShift < T.usizeBits then some (1 <<< windowShift) else none

theorem window_pos (windowShift : ℕ) :
  0 < 1 <<< windowShift
  := by
  rw [Nat.one_shiftLeft]
  apply Nat.two_pow_pos windowShift

theorem roundUpNumSlots_mod (w raw : ℕ) :
  roundUpNumSlots w raw % w = 0
  := by
  have hdvd : w ∣ if divCeil raw w * w = w then divCeil raw w * w + w else divCeil raw w * w := by
    split
    · apply Nat.dvd_add (Nat.dvd_mul_left w _) (Nat.dvd_refl w)
    · apply Nat.dvd_mul_left w _
  apply Nat.mod_eq_zero_of_dvd
  unfold roundUpNumSlots
  rcases max_choice (if divCeil raw w * w = w then divCeil raw w * w + w else divCeil raw w * w)
    (2 * w) with h | h
  · rw [h]
    apply hdvd
  · rw [h]
    apply Nat.dvd_mul_left w 2

theorem two_mul_le_roundUpNumSlots (w raw : ℕ) :
  2 * w ≤ roundUpNumSlots w raw
  := le_max_right ..

theorem le_roundUpNumSlots (w raw : ℕ) :
  w ≤ roundUpNumSlots w raw
  := le_trans (Nat.le_mul_of_pos_left w Nat.two_pos) (two_mul_le_roundUpNumSlots w raw)

/-- The number of starts of a table of whole blocks is one more than a multiple of 64. -/
theorem toNat_numStarts_mod {w n : ℕ} (hw : 64 ∣ w) (hblocks : n % w = 0) (hslots : w ≤ n) :
  (BitVec.ofNat 64 (n - w + 1)).toNat % 64 = 1
  := by
  have hn : 64 ∣ n := Nat.dvd_trans hw (Nat.dvd_of_mod_eq_zero hblocks)
  rw [BitVec.toNat_ofNat]
  omega

end Pleat
