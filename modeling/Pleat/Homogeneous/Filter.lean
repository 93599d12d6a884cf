import Pleat.Homogeneous.Solution
import Pleat.Plan
import Pleat.Sizing

/-!
# The homogeneous filter

The filter `Ribbon` and its sequential builders (`filter.rs`), in arrival order and
pleated.  The number of slots comes from a product in floating point, of which nothing is
used but that it is a natural number: it is the parameter `sizing`, a function of the
number of keys and of the result width.

The filter of a list of keys answers yes for each of them, and depends only on the length
of the list and the set of its keys; so the pleated build gives the same filter.
-/

namespace Pleat

open Bits

/-- The number of slots for `n` keys at width `r`. -/
def numSlotsFor (sizing : ℕ → ℕ → ℕ) (n r : ℕ) : ℕ :=
  roundUpNumSlots W (sizing n r)

/-- A homogeneous filter with `R` result columns. -/
structure Ribbon (R : ℕ) where
  soln : Solution R
  deriving DecidableEq

namespace Ribbon

variable {R : ℕ}

/-- Build in arrival order. -/
def fromKeysSeeded (sizing : ℕ → ℕ → ℕ) (R : ℕ) (keys : List U64) (seed : U64) :
    Option (Ribbon R) := do
  let b ← Banding.new R (numSlotsFor sizing keys.length R) seed
  let b ← b.addAll keys
  some ⟨b.solve⟩

/-- Build pleated: fold the keys into windows of `2 ^ windowShift` slots, then band them
in that order. -/
def fromKeysPleatedSeeded (T : Target) (sizing : ℕ → ℕ → ℕ) (R : ℕ) (keys : List U64)
    (seed : U64) (windowShift : ℕ) : Option (Ribbon R) := do
  let _ ← windowSize T windowShift
  let numSlots := numSlotsFor sizing keys.length R
  let numStarts := BitVec.ofNat 64 (numSlots - W + 1)
  let plan ← PleatPlan.new T numStarts windowShift
  let (ordered, _) ← plan.pleat keys (fun k => start (ribbonHash k seed) numStarts)
  let b ← Banding.new R numSlots seed
  let b ← b.addAll ordered
  some ⟨b.solve⟩

/-- Is the key possibly in the set? -/
def contains (f : Ribbon R) (key : U64) : Option Bool :=
  f.soln.contains key

/-- Keep the segments that `relocate` returns; there must be as many. -/
def relocateStorage (relocate : List U64 → List U64) (f : Ribbon R) : Option (Ribbon R) :=
  (f.soln.relocateStorage relocate).map Ribbon.mk

/-! ### The arrival build -/

/-- Banding a list of keys from an empty matrix succeeds, and the matrix holds the keys. -/
theorem exists_banded (R : ℕ) {n : ℕ} (seed : U64) (hblocks : n % W = 0) (hslots : W ≤ n)
    (keys : List U64) :
  ∃ b b' : Banding R, Banding.new R n seed = some b ∧ b.addAll keys = some b'
    ∧ b'.Holds n seed {k | k ∈ keys}
  := by
  obtain ⟨b, hnew, hb⟩ := Banding.exists_new R seed hblocks hslots
  obtain ⟨b', hadd, hb'⟩ := hb.addAll keys
  rw [Set.empty_union] at hb'
  exact ⟨b, b', hnew, hadd, hb'⟩

/-- The arrival build returns the solution of a matrix that holds the keys. -/
theorem fromKeysSeeded_eq_some (sizing : ℕ → ℕ → ℕ) (R : ℕ) (keys : List U64) (seed : U64) :
  ∃ b : Banding R, fromKeysSeeded sizing R keys seed = some ⟨b.solve⟩
    ∧ b.Holds (numSlotsFor sizing keys.length R) seed {k | k ∈ keys}
  := by
  obtain ⟨b, b', hnew, hadd, hb'⟩ := exists_banded R (n := numSlotsFor sizing keys.length R) seed
    (roundUpNumSlots_mod ..) (le_roundUpNumSlots ..) keys
  refine ⟨b', ?_, hb'⟩
  rw [fromKeysSeeded, hnew]
  simp only [Option.bind_eq_bind, Option.bind_some, hadd]

/-- A filter of the solution of a matrix that holds the keys is what the arrival build
returns. -/
theorem fromKeysSeeded_eq_of_holds {sizing : ℕ → ℕ → ℕ} {keys : List U64} {seed : U64}
    {b : Banding R} (hb : b.Holds (numSlotsFor sizing keys.length R) seed {k | k ∈ keys}) :
  fromKeysSeeded sizing R keys seed = some ⟨b.solve⟩
  := by
  obtain ⟨b', hbuild, hb'⟩ := fromKeysSeeded_eq_some sizing R keys seed
  rw [hbuild, hb.solve_unique hb']

/-- No false negatives: the build succeeds, and the filter answers yes for every key it
was built from. -/
theorem fromKeysSeeded_contains (sizing : ℕ → ℕ → ℕ) (R : ℕ) (keys : List U64) (seed : U64) :
  ∃ f, fromKeysSeeded sizing R keys seed = some f
    ∧ ∀ key ∈ keys, f.contains key = some true
  := by
  obtain ⟨b, hbuild, hb⟩ := fromKeysSeeded_eq_some sizing R keys seed
  refine ⟨_, hbuild, ?_⟩
  intro key hkey
  apply hb.contains hkey

/-- Order independence: lists with the same set of keys, banded from an empty matrix, give
the same solution; and the filter built depends only on the length of the list and the
set of its keys. -/
theorem addAll_solve_congr (R : ℕ) (seed : U64) {keys keys' : List U64}
    (hkeys : ∀ k, k ∈ keys ↔ k ∈ keys') :
  (∀ n, n % W = 0 → 2 * W ≤ n →
    ∃ b b₁ b₂ : Banding R, Banding.new R n seed = some b
      ∧ b.addAll keys = some b₁ ∧ b.addAll keys' = some b₂
      ∧ b₁.solve.segments = b₂.solve.segments)
  ∧ (keys.length = keys'.length → ∀ sizing,
    ∃ f, fromKeysSeeded sizing R keys seed = some f
      ∧ fromKeysSeeded sizing R keys' seed = some f)
  := by
  have hset : {k | k ∈ keys'} = {k | k ∈ keys} := by
    ext k
    apply (hkeys k).symm
  constructor
  · intro n hblocks hslots
    have hW : W ≤ n := le_trans (by decide) hslots
    obtain ⟨b, b₁, hnew, hadd, hb₁⟩ := exists_banded R seed hblocks hW keys
    obtain ⟨b', b₂, hnew', hadd', hb₂⟩ := exists_banded R seed hblocks hW keys'
    obtain rfl : b = b' := Option.some_injective _ (hnew.symm.trans hnew')
    rw [hset] at hb₂
    exact ⟨b, b₁, b₂, hnew, hadd, hadd', by rw [hb₂.solve_unique hb₁]⟩
  · intro hlen sizing
    obtain ⟨b, hbuild, hb⟩ := fromKeysSeeded_eq_some sizing R keys' seed
    refine ⟨_, fromKeysSeeded_eq_of_holds ?_, hbuild⟩
    rw [hlen, ← hset]
    apply hb

/-- Both halves at the keys 2 and 21, in either order and with a repetition.  They have the same
start, so the rows stored depend on the order. -/
theorem addAll_solve_congr_pair :
  (∃ b b₁ b₂ : Banding 7, Banding.new 7 128 0 = some b
    ∧ b.addAll [2, 21, 2] = some b₁ ∧ b.addAll [21, 2, 21] = some b₂
    ∧ b₁.coeffRows ≠ b₂.coeffRows ∧ b₁.solve.segments = b₂.solve.segments)
  ∧ ∃ f, fromKeysSeeded (fun n _ => n) 7 [2, 21, 2] 0 = some f
    ∧ fromKeysSeeded (fun n _ => n) 7 [21, 2, 21] 0 = some f
  := by
  have hkeys : ∀ k : U64, k ∈ [2, 21, 2] ↔ k ∈ [21, 2, 21] := by
    intro k
    simp only [List.mem_cons]
    tauto
  constructor
  · obtain ⟨b, b₁, b₂, hnew, hadd, hadd', hsolve⟩ :=
      (addAll_solve_congr 7 0 hkeys).1 128 rfl (by decide)
    have hrows : ((Banding.new 7 128 0).bind fun b => (b.addAll [2, 21, 2]).map Banding.coeffRows)
        ≠ (Banding.new 7 128 0).bind fun b => (b.addAll [21, 2, 21]).map Banding.coeffRows := by
      decide +kernel
    rw [hnew, Option.bind_some, Option.bind_some, hadd, hadd', Option.map_some, Option.map_some,
      ne_eq, Option.some.injEq] at hrows
    exact ⟨b, b₁, b₂, hnew, hadd, hadd', hrows, hsolve⟩
  · apply (addAll_solve_congr 7 0 hkeys).2 rfl _

/-! ### The pleated build -/

/-- Whatever the size of a window, the pleated build returns the solution of a matrix that
holds the keys. -/
theorem fromKeysPleatedSeeded_eq_some {T : Target} (sizing : ℕ → ℕ → ℕ) (R : ℕ) (keys : List U64)
    (seed : U64) {windowShift : ℕ} (hshift : windowShift < T.usizeBits) :
  ∃ b : Banding R, fromKeysPleatedSeeded T sizing R keys seed windowShift = some ⟨b.solve⟩
    ∧ b.Holds (numSlotsFor sizing keys.length R) seed {k | k ∈ keys}
  := by
  have hblocks : numSlotsFor sizing keys.length R % W = 0 := roundUpNumSlots_mod ..
  have hslots : W ≤ numSlotsFor sizing keys.length R := le_roundUpNumSlots ..
  have hbuffer : (List.replicate keys.length (0 : U64)).length = keys.length :=
    List.length_replicate
  obtain ⟨ordered, counts, hpleat, hperm⟩ := PleatPlan.exists_pleatInto
    ⟨BitVec.ofNat 64 (numSlotsFor sizing keys.length R - W + 1), windowShift⟩
    (toNat_numStarts_mod dvd_rfl hblocks hslots) (fun k => ribbonHash k seed) hbuffer
  obtain ⟨b, b', hnew, hadd, hb'⟩ := exists_banded R seed hblocks hslots ordered
  have hset : {k | k ∈ ordered} = {k | k ∈ keys} := by
    ext k
    apply hperm.mem_iff
  rw [hset] at hb'
  refine ⟨b', ?_, hb'⟩
  rw [fromKeysPleatedSeeded, windowSize, if_pos hshift]
  simp only [Option.bind_eq_bind, Option.bind_some, PleatPlan.new, if_pos hshift,
    PleatPlan.pleat, hpleat, hnew, hadd]

/-- A window too large for the target is refused. -/
theorem fromKeysPleatedSeeded_eq_none {T : Target} {sizing : ℕ → ℕ → ℕ} {keys : List U64}
    {seed : U64} {windowShift : ℕ} (hlarge : ¬ windowShift < T.usizeBits) :
  fromKeysPleatedSeeded T sizing R keys seed windowShift = none
  := by
  rw [fromKeysPleatedSeeded, windowSize, if_neg hlarge]
  rfl

/-- The pleated build is the arrival build, whatever the size of a window; none of its
steps is out of bounds. -/
theorem fromKeysPleatedSeeded_eq (T : Target) (sizing : ℕ → ℕ → ℕ) (R : ℕ) (keys : List U64)
    (seed : U64) {windowShift : ℕ} (hshift : windowShift < T.usizeBits) :
  ∃ f, fromKeysPleatedSeeded T sizing R keys seed windowShift = some f
    ∧ fromKeysSeeded sizing R keys seed = some f
  := by
  obtain ⟨b, hbuild, hb⟩ := fromKeysPleatedSeeded_eq_some sizing R keys seed hshift
  exact ⟨⟨b.solve⟩, hbuild, fromKeysSeeded_eq_of_holds hb⟩

/-- The pleated build of three keys in 256 slots on a target of 64 bits; in windows of 64 slots
they start in the third, the first and the second. -/
theorem fromKeysPleatedSeeded_eq_three :
  ([5, 3, 7].map fun k => (start (ribbonHash k 0) (BitVec.ofNat 64 (256 - W + 1))).toNat / 64)
      = [2, 0, 1]
  ∧ ∃ f, fromKeysPleatedSeeded ⟨64, le_rfl⟩ (fun _ _ => 256) 7 [5, 3, 7] 0 6 = some f
    ∧ fromKeysSeeded (fun _ _ => 256) 7 [5, 3, 7] 0 = some f
  := ⟨by decide, fromKeysPleatedSeeded_eq ⟨64, le_rfl⟩ _ 7 [5, 3, 7] 0 (by decide)⟩

end Ribbon

end Pleat
