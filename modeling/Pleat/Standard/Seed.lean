import Pleat.Standard.Build

/-!
# Seed selection

The seed that the standard build chooses is the least ordinal whose system of equations,
one for each key, is solvable over the two-element field in all 32 result bits; the build
fails when there is none.  The attempts made before have no influence on an attempt.
-/

namespace Pleat

open Bits Linear Retry

/-- The system of a list of keys under an ordinal seed, in a table of `n` slots, is
solvable: there are bits for every slot and column from which the coefficient row of each
key, placed at its start slot, selects its result row. -/
def Solvable (n : ℕ) (keys : List U64) (ordinal : U32) : Prop :=
  ∃ x : ℕ → ℕ → Gf2, ∀ key ∈ keys, ∀ j < 32,
    let h := ribbonHash key ((ordinalToRawSeed ordinal).setWidth 64)
    let numStarts := BitVec.ofNat 64 (n - W128 + 1)
    ∑ k ∈ Finset.range W128, bit (coeffRow128 h) k * x ((start h numStarts).toNat + k) j
      = bit (resultRow h) j

theorem solvable_iff_consistent (n : ℕ) (keys : List U64) (ordinal : U32) :
  Solvable n keys ordinal ↔ Consistent (Banding128.system n ordinal {k | k ∈ keys})
  := by
  constructor
  · rintro ⟨x, hx⟩
    -- The columns past the last result bit are taken to be zero.
    use fun i j => if j < 32 then x i j else 0
    rintro _ ⟨key, hkey, rfl⟩
    rw [Banding128.keyEquation, equationAt, linearCombination_place]
    funext j
    rw [Finset.sum_apply]
    by_cases hj : j < 32
    · have h := hx key hkey j hj
      simpa [hj] using h
    · have hzero : bit (resultRow (ribbonHash key ((ordinalToRawSeed ordinal).setWidth 64))) j
          = 0 := bit_of_ge (Nat.not_lt.mp hj)
      simp [hj, hzero]
  · rintro ⟨x, hx⟩
    refine ⟨x, fun key hkey j _ => ?_⟩
    have h := hx _ ⟨key, hkey, rfl⟩
    rw [Banding128.keyEquation, equationAt, linearCombination_place] at h
    have hj := congrFun h j
    rw [Finset.sum_apply] at hj
    apply hj

theorem mem_ordinals_iff (o : U32) :
  o ∈ ordinals ↔ o.toNat < seedCount
  := by
  rw [ordinals, List.mem_map]
  constructor
  · rintro ⟨i, hi, rfl⟩
    have hi' := List.mem_range.mp hi
    rw [BitVec.toNat_ofNat]
    apply lt_of_le_of_lt (Nat.mod_le i _) hi'
  · intro ho
    exact ⟨o.toNat, List.mem_range.mpr ho, by simp⟩

theorem pairwise_ordinals :
  ordinals.Pairwise (fun o o' => o.toNat < o'.toNat)
  := by
  rw [ordinals, List.pairwise_map]
  apply List.pairwise_lt_range.imp_of_mem
  intro i k hi hk hik
  have hi' : i < 64 := List.mem_range.mp hi
  have hk' : k < 64 := List.mem_range.mp hk
  rw [BitVec.toNat_ofNat, BitVec.toNat_ofNat, Nat.mod_eq_of_lt (by omega),
    Nat.mod_eq_of_lt (by omega)]
  apply hik

namespace Banding128

variable {R n : ℕ}

/-- A seed yields something exactly when the system of the keys is solvable. -/
theorem outcome_eq_none_iff (R : ℕ) (hblocks : n % W128 = 0) (hslots : W128 ≤ n) (o : U32)
    (keys : List U64) :
  outcome R n {k | k ∈ keys} o = none ↔ ¬ Solvable n keys o
  := by
  rw [solvable_iff_consistent, ← outcome_isSome_iff R hblocks hslots, Option.not_isSome_iff_eq_none]

/-- The matrix after attempts at the seeds of a list. -/
def afterAttempts (keys : List U64) (tried : List U32) (b : Banding128 R) :
    Option (Banding128 R) :=
  tried.foldlM (fun b o => (attempt keys b o).map Prod.fst) b

theorem Shape.afterAttempts {b : Banding128 R} (h : b.Shape n) (keys : List U64)
    (tried : List U32) :
  ∃ b', afterAttempts keys tried b = some b' ∧ b'.Shape n
  := by
  induction tried generalizing b with
  | nil => exact ⟨b, rfl, h⟩
  | cons o tried ih =>
      obtain ⟨b₁, r, hrun, h₁, -⟩ := Shape.attempt h keys o
      obtain ⟨b₂, hrest, h₂⟩ := ih h₁
      refine ⟨b₂, ?_, h₂⟩
      rw [Banding128.afterAttempts, List.foldlM_cons, hrun]
      apply hrest

/-- An attempt is the same after any attempts made before it as on an empty matrix. -/
theorem attempt_afterAttempts (R : ℕ) (hblocks : n % W128 = 0) (hslots : W128 ≤ n)
    (keys : List U64) (tried : List U32) (o : U32) :
  ∃ b b' : Banding128 R, new R n = some b ∧ afterAttempts keys tried b = some b'
    ∧ ∃ r, attempt keys b o = some r ∧ attempt keys b' o = some r
  := by
  obtain ⟨b, hnew, hb⟩ := exists_new R hblocks hslots
  obtain ⟨b', hafter, hb'⟩ := hb.afterAttempts keys tried
  obtain ⟨b₁, r, hrun, -, -⟩ := Shape.attempt hb keys o
  use b, b', hnew, hafter, (b₁, r), hrun
  rw [attempt, hb'.reset_congr hb o]
  apply hrun

end Banding128

open Banding128

theorem firstOutcome_eq_some_iff (sizing : ℕ → ℕ → ℕ) (R : ℕ) (keys : List U64) (o : U32) :
  (∃ s, firstOutcome sizing R keys = some s ∧ s.ordinalSeed = o)
    ↔ o.toNat < seedCount ∧ Solvable (numSlotsFor128 sizing keys.length R) keys o
      ∧ ∀ o', o'.toNat < o.toNat → ¬ Solvable (numSlotsFor128 sizing keys.length R) keys o'
  := by
  have hblocks : numSlotsFor128 sizing keys.length R % W128 = 0 := roundUpNumSlots_mod ..
  have hslots : W128 ≤ numSlotsFor128 sizing keys.length R := le_roundUpNumSlots ..
  constructor
  · rintro ⟨s, hs, rfl⟩
    obtain ⟨o, ho, hout, hleast⟩ := (findSome?_eq_some_iff_least pairwise_ordinals).mp hs
    rw [ordinalSeed_of_outcome hout]
    have hlt := (mem_ordinals_iff o).mp ho
    use hlt
    constructor
    · by_contra hns
      rw [(outcome_eq_none_iff R hblocks hslots o keys).mpr hns] at hout
      nomatch hout
    · intro o' ho'
      rw [← outcome_eq_none_iff R hblocks hslots]
      apply hleast o' ((mem_ordinals_iff o').mpr (ho'.trans hlt)) ho'
  · rintro ⟨hlt, hsolvable, hleast⟩
    cases hout : outcome R (numSlotsFor128 sizing keys.length R) {k | k ∈ keys} o with
    | none => exact absurd hsolvable ((outcome_eq_none_iff R hblocks hslots o keys).mp hout)
    | some s =>
        refine ⟨s, ?_, ordinalSeed_of_outcome hout⟩
        apply (findSome?_eq_some_iff_least pairwise_ordinals).mpr
        use o, (mem_ordinals_iff o).mpr hlt, hout
        intro o' _ ho'
        rw [outcome_eq_none_iff R hblocks hslots]
        apply hleast o' ho'

theorem firstOutcome_eq_none_iff (sizing : ℕ → ℕ → ℕ) (R : ℕ) (keys : List U64) :
  firstOutcome sizing R keys = none
    ↔ ∀ o, o.toNat < seedCount → ¬ Solvable (numSlotsFor128 sizing keys.length R) keys o
  := by
  have hblocks : numSlotsFor128 sizing keys.length R % W128 = 0 := roundUpNumSlots_mod ..
  have hslots : W128 ≤ numSlotsFor128 sizing keys.length R := le_roundUpNumSlots ..
  rw [firstOutcome, List.findSome?_eq_none_iff]
  constructor
  · intro h o ho
    apply (outcome_eq_none_iff R hblocks hslots o keys).mp (h o ((mem_ordinals_iff o).mpr ho))
  · intro h o ho
    apply (outcome_eq_none_iff R hblocks hslots o keys).mpr (h o ((mem_ordinals_iff o).mp ho))

/-- The seed built with is the least ordinal whose system is solvable; nothing is built
exactly when the system of no ordinal is; and an attempt does not depend on those made
before it. -/
theorem buildStd128_ordinalSeed (sizing : ℕ → ℕ → ℕ) (R : ℕ) (keys : List U64) :
  let n := numSlotsFor128 sizing keys.length R
  ∃ result, buildStd128 sizing R keys = some result
    ∧ (∀ o, (∃ s, result = some s ∧ s.ordinalSeed = o)
        ↔ o.toNat < seedCount ∧ Solvable n keys o
          ∧ ∀ o', o'.toNat < o.toNat → ¬ Solvable n keys o')
    ∧ (result = none ↔ ∀ o, o.toNat < seedCount → ¬ Solvable n keys o)
    ∧ (∀ tried o, ∃ b b' : Banding128 R, Banding128.new R n = some b
        ∧ afterAttempts keys tried b = some b'
        ∧ ∃ r, attempt keys b o = some r ∧ attempt keys b' o = some r)
  := by
  intro n
  refine ⟨firstOutcome sizing R keys, buildStd128_eq sizing R keys, ?_, ?_, ?_⟩
  · apply firstOutcome_eq_some_iff sizing R keys
  · apply firstOutcome_eq_none_iff sizing R keys
  · apply attempt_afterAttempts R (roundUpNumSlots_mod ..) (le_roundUpNumSlots ..) keys

end Pleat
