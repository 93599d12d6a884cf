import Pleat.Plan
import Pleat.Sizing
import Pleat.Standard.Solution

/-!
# Building the standard filter

The search for a seed that solves the banding system, in arrival order and pleated
(`banding128.rs`), and the filter `StdRibbon` built with it (`filter.rs`).  One matrix, and
in the pleated search one buffer of keys, is used for all the seeds.

What a seed yields depends on the number of slots and the set of the keys alone: nothing
if their system is inconsistent, and otherwise the solution of any matrix that holds them.
Every search returns what the first seed yields that yields something.
-/

namespace Pleat

open Bits Linear Retry

/-- `SEED_COUNT`, the number of ordinal seeds tried. -/
def seedCount : ℕ := 64

/-- The ordinal seeds, in the order in which they are tried. -/
def ordinals : List U32 :=
  (List.range seedCount).map (BitVec.ofNat 32)

/-- The number of slots for `n` keys at width `r`. -/
def numSlotsFor128 (sizing : ℕ → ℕ → ℕ) (n r : ℕ) : ℕ :=
  roundUpNumSlots W128 (sizing n r)

namespace Banding128

variable {R : ℕ}

/-- Try one seed: clear the matrix and insert the keys. -/
def attempt (keys : List U64) (b : Banding128 R) (ordinal : U32) :
    Option (Banding128 R × Option (Banding128 R)) := do
  let (b, ok) ← (b.reset ordinal).addEach keys
  some (b, if ok then some b else none)

/-- Try the seeds in order until one solves the whole set. -/
def findSeed (R numSlots : ℕ) (keys : List U64) : Option (Option (Banding128 R)) := do
  let b ← new R numSlots
  firstSuccess (attempt keys) ordinals b

/-- Try one seed: clear the matrix, fold the keys by their starts under this seed into the
scratch buffer, and insert them from there. -/
def attemptPleated (T : Target) (keys : List U64) (numStarts : U64) (windowShift : ℕ) :
    Banding128 R × List U64 → U32 →
      Option ((Banding128 R × List U64) × Option (Banding128 R))
  | (b, scratch), ordinal => do
      let b := b.reset ordinal
      let raw := b.rawSeed.setWidth 64
      let plan ← PleatPlan.new T numStarts windowShift
      let (scratch, _) ← plan.pleatInto keys (fun k => start (ribbonHash k raw) numStarts) scratch
      let (b, ok) ← b.addEach scratch
      some ((b, scratch), if ok then some b else none)

/-- As `findSeed`, but with the keys pleated for each seed. -/
def findSeedPleated (T : Target) (R numSlots : ℕ) (keys : List U64) (windowShift : ℕ) :
    Option (Option (Banding128 R)) := do
  let b ← new R numSlots
  let scratch := List.replicate keys.length 0
  firstSuccess (attemptPleated T keys b.numStarts windowShift) ordinals (b, scratch)

end Banding128

/-- Build in arrival order; `none` inside is that no seed solves. -/
def buildStd128 (sizing : ℕ → ℕ → ℕ) (R : ℕ) (keys : List U64) :
    Option (Option (Solution128 R)) := do
  let numSlots := numSlotsFor128 sizing keys.length R
  let b ← Banding128.findSeed R numSlots keys
  some (b.map Banding128.intoSolution)

/-- Build pleated. -/
def buildStd128Pleated (T : Target) (sizing : ℕ → ℕ → ℕ) (R : ℕ) (keys : List U64)
    (windowShift : ℕ) : Option (Option (Solution128 R)) := do
  let _ ← windowSize T windowShift
  let numSlots := numSlotsFor128 sizing keys.length R
  let b ← Banding128.findSeedPleated T R numSlots keys windowShift
  some (b.map Banding128.intoSolution)

/-! ### What a seed yields -/

namespace Banding128

variable {R n : ℕ} {ordinal : U32} {keys : Set U64}

/-- What a seed yields: the solution of the matrices that hold the keys, if there are
any. -/
noncomputable def outcome (R n : ℕ) (keys : Set U64) (ordinal : U32) : Option (Solution128 R) :=
  open Classical in
  if h : ∃ b : Banding128 R, b.Holds n ordinal keys then some h.choose.intoSolution else none

theorem Holds.outcome_eq {b : Banding128 R} (h : b.Holds n ordinal keys) :
  outcome R n keys ordinal = some b.intoSolution
  := by
  have hex : ∃ b : Banding128 R, b.Holds n ordinal keys := ⟨b, h⟩
  rw [outcome, dif_pos hex, h.intoSolution_unique hex.choose_spec]

theorem outcome_eq_none (h : ¬ Consistent (system n ordinal keys)) :
  outcome R n keys ordinal = none
  := dif_neg fun ⟨_, hb⟩ => h hb.consistent

theorem exists_holds_of_outcome {s : Solution128 R} (h : outcome R n keys ordinal = some s) :
  ∃ b : Banding128 R, b.Holds n ordinal keys ∧ s = b.intoSolution
  := by
  by_cases hex : ∃ b : Banding128 R, b.Holds n ordinal keys
  · obtain ⟨b, hb⟩ := hex
    rw [hb.outcome_eq] at h
    exact ⟨b, hb, (Option.some_injective _ h).symm⟩
  · rw [outcome, dif_neg hex] at h
    nomatch h

theorem ordinalSeed_of_outcome {s : Solution128 R} (h : outcome R n keys ordinal = some s) :
  s.ordinalSeed = ordinal
  := by
  obtain ⟨b, hb, rfl⟩ := exists_holds_of_outcome h
  apply hb.ordinalSeed

/-- A key of the set is found in what a seed yields. -/
theorem contains_of_outcome {s : Solution128 R} (h : outcome R n keys ordinal = some s)
    {key : U64} (hkey : key ∈ keys) :
  s.contains key = some true
  := by
  obtain ⟨b, hb, rfl⟩ := exists_holds_of_outcome h
  apply hb.contains hkey

/-- A matrix in which all insertions succeeded holds what its seed yields. -/
theorem map_intoSolution_eq_outcome {b : Banding128 R} {ok : Bool}
    (hheld : ok = true → b.Holds n ordinal keys)
    (hfail : ok = false → ¬ Consistent (system n ordinal keys)) :
  (if ok then some b else none).map intoSolution = outcome R n keys ordinal
  := by
  cases ok with
  | true => apply (hheld rfl).outcome_eq.symm
  | false => apply (outcome_eq_none (hfail rfl)).symm

/-- A seed yields something exactly when the system of the keys is consistent. -/
theorem outcome_isSome_iff (R : ℕ) {n : ℕ} (hblocks : n % W128 = 0) (hslots : W128 ≤ n)
    (ordinal : U32) (keys : List U64) :
  (outcome R n {k | k ∈ keys} ordinal).isSome
    ↔ Consistent (system n ordinal {k | k ∈ keys})
  := by
  obtain ⟨b, -, hb⟩ := exists_new R hblocks hslots
  obtain ⟨b', ok, -, -, hheld, hfail⟩ := hb.addEach_reset ordinal keys
  cases ok with
  | true =>
      rw [(hheld rfl).outcome_eq]
      exact ⟨fun _ => (hheld rfl).consistent, fun _ => rfl⟩
  | false =>
      rw [outcome_eq_none (hfail rfl)]
      exact ⟨fun h => (nomatch h), fun h => absurd h (hfail rfl)⟩

/-! ### The searches -/

/-- An attempt yields the outcome of its seed, whatever the matrix held before. -/
theorem Shape.attempt {b : Banding128 R} (h : b.Shape n) (keys : List U64) (ordinal : U32) :
  ∃ b' r, attempt keys b ordinal = some (b', r) ∧ b'.Shape n
    ∧ r.map intoSolution = outcome R n {k | k ∈ keys} ordinal
  := by
  obtain ⟨b', ok, hadd, hshape, hheld, hfail⟩ := h.addEach_reset ordinal keys
  refine ⟨b', if ok then some b' else none, ?_, hshape, map_intoSolution_eq_outcome hheld hfail⟩
  rw [Banding128.attempt, hadd]
  rfl

/-- The search in arrival order returns what the first seed yields that yields
something. -/
theorem exists_findSeed (R : ℕ) {n : ℕ} (hblocks : n % W128 = 0) (hslots : W128 ≤ n)
    (keys : List U64) :
  ∃ r, findSeed R n keys = some r
    ∧ r.map intoSolution = ordinals.findSome? (outcome R n {k | k ∈ keys})
  := by
  obtain ⟨b, hnew, hb⟩ := exists_new R hblocks hslots
  rw [findSeed, hnew]
  apply exists_firstSuccess (Shape · n) (fun b' ordinal hb' => Shape.attempt hb' keys ordinal)
    ordinals hb

/-- A pleated attempt yields the outcome of its seed, whatever the matrix and the buffer
held before. -/
theorem Shape.attemptPleated {b : Banding128 R} (h : b.Shape n) {T : Target} {windowShift : ℕ}
    (hshift : windowShift < T.usizeBits) {keys scratch : List U64}
    (hscratch : scratch.length = keys.length) (ordinal : U32) :
  ∃ b' scratch' r,
    attemptPleated T keys (BitVec.ofNat 64 (n - W128 + 1)) windowShift (b, scratch) ordinal
        = some ((b', scratch'), r)
      ∧ b'.Shape n ∧ scratch'.length = keys.length
      ∧ r.map intoSolution = outcome R n {k | k ∈ keys} ordinal
  := by
  obtain ⟨ordered, counts, hpleat, hperm⟩ := PleatPlan.exists_pleatInto
    ⟨BitVec.ofNat 64 (n - W128 + 1), windowShift⟩
    (toNat_numStarts_mod (by decide) h.blocks h.slots)
    (fun k => ribbonHash k ((b.reset ordinal).rawSeed.setWidth 64)) hscratch
  obtain ⟨b', ok, hadd, hshape, hheld, hfail⟩ := h.addEach_reset ordinal ordered
  have hset : {k | k ∈ ordered} = {k | k ∈ keys} := by
    ext k
    apply hperm.mem_iff
  rw [hset] at hheld hfail
  refine ⟨b', ordered, if ok then some b' else none, ?_, hshape, hperm.length_eq,
    map_intoSolution_eq_outcome hheld hfail⟩
  rw [Banding128.attemptPleated]
  simp only [PleatPlan.new, if_pos hshift, Option.bind_eq_bind, Option.bind_some, hpleat, hadd]

/-- The pleated search returns what the first seed yields that yields something. -/
theorem exists_findSeedPleated (R : ℕ) {n : ℕ} (hblocks : n % W128 = 0) (hslots : W128 ≤ n)
    (keys : List U64) {T : Target} {windowShift : ℕ} (hshift : windowShift < T.usizeBits) :
  ∃ r, findSeedPleated T R n keys windowShift = some r
    ∧ r.map intoSolution = ordinals.findSome? (outcome R n {k | k ∈ keys})
  := by
  obtain ⟨b, hnew, hb⟩ := exists_new R hblocks hslots
  rw [findSeedPleated, hnew]
  simp only [Option.bind_eq_bind, Option.bind_some, hb.starts]
  apply exists_firstSuccess
    (fun s : Banding128 R × List U64 => s.1.Shape n ∧ s.2.length = keys.length)
  · rintro ⟨b', scratch⟩ ordinal ⟨hb', hscratch⟩
    obtain ⟨b'', scratch', r, hrun, hshape, hlen, hr⟩ :=
      Shape.attemptPleated hb' hshift hscratch ordinal
    exact ⟨(b'', scratch'), r, hrun, ⟨hshape, hlen⟩, hr⟩
  · exact ⟨hb, List.length_replicate⟩

end Banding128

/-! ### The builders -/

open Banding128

/-- The first outcome among the seeds, for the table of a list of keys. -/
noncomputable def firstOutcome (sizing : ℕ → ℕ → ℕ) (R : ℕ) (keys : List U64) :
    Option (Solution128 R) :=
  ordinals.findSome? (outcome R (numSlotsFor128 sizing keys.length R) {k | k ∈ keys})

theorem buildStd128_eq (sizing : ℕ → ℕ → ℕ) (R : ℕ) (keys : List U64) :
  buildStd128 sizing R keys = some (firstOutcome sizing R keys)
  := by
  obtain ⟨r, hfind, hr⟩ := exists_findSeed R (n := numSlotsFor128 sizing keys.length R)
    (roundUpNumSlots_mod ..) (le_roundUpNumSlots ..) keys
  rw [buildStd128, hfind, Option.bind_eq_bind, Option.bind_some, hr]
  rfl

/-- Order independence: lists of the same length with the same set of keys build the same
solution, or neither builds one. -/
theorem buildStd128_congr (sizing : ℕ → ℕ → ℕ) (R : ℕ) {keys keys' : List U64}
    (hlen : keys.length = keys'.length) (hkeys : ∀ k, k ∈ keys ↔ k ∈ keys') :
  ∃ result, buildStd128 sizing R keys = some result ∧ buildStd128 sizing R keys' = some result
  := by
  have hset : {k | k ∈ keys} = {k | k ∈ keys'} := by
    ext k
    apply hkeys k
  use firstOutcome sizing R keys, buildStd128_eq sizing R keys
  rw [buildStd128_eq, firstOutcome, firstOutcome, hlen, hset]

theorem buildStd128_congr_pair :
  ∃ result, buildStd128 (fun n _ => n) 7 [2, 21, 2] = some result
    ∧ buildStd128 (fun n _ => n) 7 [21, 2, 21] = some result
  := by
  have hkeys : ∀ k : U64, k ∈ [2, 21, 2] ↔ k ∈ [21, 2, 21] := by
    intro k
    simp only [List.mem_cons]
    tauto
  exact buildStd128_congr (fun n _ => n) 7 rfl hkeys

/-- A window too large for the target is refused. -/
theorem buildStd128Pleated_eq_none {T : Target} {sizing : ℕ → ℕ → ℕ} {keys : List U64}
    {windowShift : ℕ} (hlarge : ¬ windowShift < T.usizeBits) :
  buildStd128Pleated T sizing R keys windowShift = none
  := by
  rw [buildStd128Pleated, windowSize, if_neg hlarge]
  rfl

theorem buildStd128Pleated_eq_firstOutcome (T : Target) (sizing : ℕ → ℕ → ℕ) (R : ℕ)
    (keys : List U64) {windowShift : ℕ} (hshift : windowShift < T.usizeBits) :
  buildStd128Pleated T sizing R keys windowShift = some (firstOutcome sizing R keys)
  := by
  obtain ⟨r, hfind, hr⟩ := exists_findSeedPleated R (n := numSlotsFor128 sizing keys.length R)
    (roundUpNumSlots_mod ..) (le_roundUpNumSlots ..) keys hshift
  rw [buildStd128Pleated, windowSize, if_pos hshift]
  simp only [Option.bind_eq_bind, Option.bind_some, hfind, hr]
  rfl

/-- The pleated build is the arrival build, whatever the size of a window. -/
theorem buildStd128Pleated_eq (T : Target) (sizing : ℕ → ℕ → ℕ) (R : ℕ) (keys : List U64)
    {windowShift : ℕ} (hshift : windowShift < T.usizeBits) :
  ∃ result, buildStd128Pleated T sizing R keys windowShift = some result
    ∧ buildStd128 sizing R keys = some result
  := by
  refine ⟨firstOutcome sizing R keys, ?_, buildStd128_eq sizing R keys⟩
  apply buildStd128Pleated_eq_firstOutcome T sizing R keys hshift

/-- The pleated build of three keys in 256 slots on a target of 64 bits; in windows of 64 slots,
under the first seed, one starts in the second and two in the first. -/
theorem buildStd128Pleated_eq_three :
  ([5, 3, 7].map fun k => (start (ribbonHash k ((ordinalToRawSeed 0).setWidth 64))
      (BitVec.ofNat 64 (256 - W128 + 1))).toNat / 64) = [1, 0, 0]
  ∧ ∃ result, buildStd128Pleated ⟨64, le_rfl⟩ (fun _ _ => 256) 7 [5, 3, 7] 6 = some result
    ∧ buildStd128 (fun _ _ => 256) 7 [5, 3, 7] = some result
  := ⟨by decide, buildStd128Pleated_eq ⟨64, le_rfl⟩ _ 7 [5, 3, 7] (by decide)⟩

end Pleat
