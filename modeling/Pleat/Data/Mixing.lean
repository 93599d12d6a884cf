import Mathlib.Data.BitVec
import Mathlib.Data.FinEnum
import Mathlib.Data.Nat.ModEq
import Mathlib.Data.Nat.Prime.Basic
import Mathlib.Tactic.Common

/-!
# Mixing the bits of a word

A finalizer alternates two steps: adding to a word its own bits shifted down, and
multiplying it by an odd word.  Each of them is a permutation of the words, so that a
finalizer keeps different words apart.
-/

namespace Mixing

variable {w : ℕ}

/-- Add to a word its bits shifted down by `s`. -/
def xorShift (s : ℕ) (x : BitVec w) : BitVec w :=
  x ^^^ (x >>> s)

/-- Only zero stays the same when it is shifted down. -/
theorem eq_zero_of_eq_ushiftRight {s : ℕ} (hs : 0 < s) {x : BitVec w} (h : x = x >>> s) :
  x = 0
  := by
  have hdiv : x.toNat = x.toNat / 2 ^ s := by
    rw [← Nat.shiftRight_eq_div_pow, ← BitVec.toNat_ushiftRight, ← h]
  have hpow : 1 < 2 ^ s := Nat.one_lt_two_pow (Nat.ne_of_gt hs)
  apply BitVec.eq_of_toNat_eq
  by_contra hne
  have hlt := Nat.div_lt_self (Nat.pos_of_ne_zero hne) hpow
  omega

theorem xorShift_injective {s : ℕ} (hs : 0 < s) :
  Function.Injective (xorShift (w := w) s)
  := by
  intro x y h
  -- The difference of the two words is its own shift.
  have hdiff : x ^^^ y = (x ^^^ y) >>> s := by
    apply BitVec.xor_eq_zero_iff.mp
    calc x ^^^ y ^^^ (x ^^^ y) >>> s
        = xorShift s x ^^^ xorShift s y := by
          rw [BitVec.ushiftRight_xor_distrib, xorShift, xorShift]
          ac_rfl
      _ = 0 := BitVec.xor_eq_zero_iff.mpr h
  apply BitVec.xor_eq_zero_iff.mp (eq_zero_of_eq_ushiftRight hs hdiff)

theorem xorShift_bijective {s : ℕ} (hs : 0 < s) :
  Function.Bijective (xorShift (w := w) s)
  := Finite.injective_iff_bijective.mp (xorShift_injective hs)

theorem mul_injective {p : BitVec w} (hp : Odd p.toNat) :
  Function.Injective (· * p)
  := by
  intro x y h
  have hmod : x.toNat * p.toNat ≡ y.toNat * p.toNat [MOD 2 ^ w] := by
    have hnat := congrArg BitVec.toNat h
    rwa [BitVec.toNat_mul, BitVec.toNat_mul] at hnat
  have hcoprime : Nat.Coprime (2 ^ w) p.toNat := (Nat.coprime_two_left.mpr hp).pow_left w
  have hxy := hmod.cancel_right_of_coprime hcoprime
  rw [Nat.ModEq, Nat.mod_eq_of_lt x.isLt, Nat.mod_eq_of_lt y.isLt] at hxy
  apply BitVec.eq_of_toNat_eq hxy

/-- Add to a word those of its bits that `m` selects, shifted down by `s`. -/
def xorMasked (m : BitVec w) (s : ℕ) (x : BitVec w) : BitVec w :=
  x ^^^ ((x &&& m) >>> s)

/-- If no selected bit is shifted to a selected one, a second time undoes the first. -/
theorem xorMasked_involutive {m : BitVec w} {s : ℕ} (h : m >>> s &&& m = 0) :
  Function.Involutive (xorMasked m s)
  := by
  intro x
  have hclear : (x &&& m) >>> s &&& m = 0 := by
    rw [BitVec.ushiftRight_and_distrib, BitVec.and_assoc, h]
    apply BitVec.and_zero
  have hselect : (x ^^^ ((x &&& m) >>> s)) &&& m = x &&& m := by
    calc (x ^^^ ((x &&& m) >>> s)) &&& m
        = (x &&& m) ^^^ ((x &&& m) >>> s &&& m) := by
          ext i
          simp [Bool.and_xor_distrib_right]
      _ = x &&& m := by
          rw [hclear]
          apply BitVec.xor_zero
  rw [xorMasked, xorMasked, hselect, BitVec.xor_assoc, BitVec.xor_self, BitVec.xor_zero]

/-- Multiplication by an odd word is a permutation. -/
theorem mul_bijective {p : BitVec w} (hp : Odd p.toNat) :
  Function.Bijective (· * p)
  := Finite.injective_iff_bijective.mp (mul_injective hp)

end Mixing
