import Pleat.Data.Mixing
import Pleat.Hash
import Mathlib.Data.Set.Card

/-!
# Keys kept apart

For every seed the hash is a permutation of the keys, each of its steps being one.  The
high half of a wide coefficient row is the hash times an odd word, so that different keys
have different rows.  A narrow row is such a product with its low bit set: it forgets that
bit and no other.
-/

namespace Pleat

open Mixing

/-- The hash is a finalizer: three shifts with a multiplication between each two. -/
theorem ribbonHash_eq (key rawSeed : U64) :
  ribbonHash key rawSeed
    = xorShift 33 (xorShift 33 (xorShift 33 (key + rawSeed) * 0xff51afd7ed558ccd)
        * 0xc4ceb9fe1a85ec53)
  := rfl

theorem ribbonHash_bijective (rawSeed : U64) :
  Function.Bijective (fun key => ribbonHash key rawSeed)
  := by
  have hshift : Function.Bijective (xorShift (w := 64) 33) := xorShift_bijective (by decide)
  have hfirst : Function.Bijective (fun x : U64 => x * 0xff51afd7ed558ccd) :=
    mul_bijective (by decide)
  have hsecond : Function.Bijective (fun x : U64 => x * 0xc4ceb9fe1a85ec53) :=
    mul_bijective (by decide)
  have hseed : Function.Bijective (fun key : U64 => key + rawSeed) :=
    AddGroup.addRight_bijective rawSeed
  simp only [ribbonHash_eq]
  exact hshift.comp (hsecond.comp (hshift.comp (hfirst.comp (hshift.comp hseed))))

/-- The hash times the factor of the rows. -/
theorem mul_coeffAndResultFactor_injective :
  Function.Injective (fun h : U64 => h * coeffAndResultFactor)
  := mul_injective (by decide)

/-- The high half of a wide row. -/
theorem coeffRow128_ushiftRight (h : U64) :
  (coeffRow128 h >>> 64).setWidth 64 = h * coeffAndResultFactor
  := by
  apply BitVec.eq_of_getLsbD_eq
  intro i hi
  have hhigh : 64 + i < 128 := by omega
  rw [coeffRow128, BitVec.getLsbD_setWidth, BitVec.getLsbD_ushiftRight]
  simp [hi, hhigh]

theorem coeffRow128_injective :
  Function.Injective coeffRow128
  := by
  intro h h' heq
  apply mul_coeffAndResultFactor_injective
  change h * coeffAndResultFactor = h' * coeffAndResultFactor
  rw [← coeffRow128_ushiftRight, heq, coeffRow128_ushiftRight]

/-- A word is what setting its low bit gives, up to that bit. -/
theorem eq_or_eq_xor_one {a c : U64} (h : a ||| 1 = c) :
  a = c ∨ a = c ^^^ 1
  := by
  have hone : ∀ i, (1 : U64).getLsbD i = decide (i = 0) := by
    intro i
    rw [show (1 : U64) = 1#64 from rfl, BitVec.getLsbD_one]
    simp
  cases hlow : a.getLsbD 0 with
  | true =>
      left
      rw [← h]
      apply BitVec.eq_of_getLsbD_eq
      intro i _
      rw [BitVec.getLsbD_or, hone]
      by_cases hi : i = 0
      · rw [hi, hlow, Bool.true_or]
      · simp [hi]
  | false =>
      right
      rw [← h]
      apply BitVec.eq_of_getLsbD_eq
      intro i _
      rw [BitVec.getLsbD_xor, BitVec.getLsbD_or, hone]
      by_cases hi : i = 0
      · rw [hi, hlow]
        rfl
      · simp [hi]

/-- For every seed the hash is a permutation of the keys.  So different keys have different
wide rows, and at most two keys have the same narrow row. -/
theorem ribbonHash_separates (rawSeed : U64) :
  Function.Bijective (fun key => ribbonHash key rawSeed)
  ∧ Function.Injective (fun key => coeffRow128 (ribbonHash key rawSeed))
  ∧ ∀ c : U64, {key | coeffRow (ribbonHash key rawSeed) = c}.encard ≤ 2
  := by
  have hhash := ribbonHash_bijective rawSeed
  refine ⟨hhash, coeffRow128_injective.comp hhash.injective, ?_⟩
  intro c
  have hmaps : Set.MapsTo (fun key => ribbonHash key rawSeed * coeffAndResultFactor)
      {key | coeffRow (ribbonHash key rawSeed) = c} {c, c ^^^ 1} := by
    intro key hkey
    apply eq_or_eq_xor_one hkey
  have hinj := mul_coeffAndResultFactor_injective.comp hhash.injective
  calc {key | coeffRow (ribbonHash key rawSeed) = c}.encard
      ≤ ({c, c ^^^ 1} : Set U64).encard := Set.encard_le_encard_of_injOn hmaps hinj.injOn
    _ ≤ ({c ^^^ 1} : Set U64).encard + 1 := Set.encard_insert_le _ _
    _ = 2 := by rw [Set.encard_singleton, one_add_one_eq_two]

end Pleat
