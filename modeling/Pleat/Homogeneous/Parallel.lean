import Pleat.Homogeneous.Filter
import Pleat.Homogeneous.Worker

/-!
# The parallel homogeneous build

The build with one thread for each range of slots (`filter/parallel.rs`).  The keys of the
buckets are banded by the threads, in whatever order these take their steps; the deferred
keys and the keys that left their range are inserted into the whole matrix at the end.

Each key is inserted once in one of these ways, so the filter is that of the arrival build.
-/

namespace Pleat

open Bits Linear RangeWorker

namespace Banding

variable {R : ℕ}

/-- Insert the spilled keys of one worker after the other. -/
def addSpilled (b : Banding R) : List (List U64) → Option (Banding R)
  | [] => some b
  | spill :: spilled => do
      let b ← b.addAll spill
      b.addSpilled spilled

theorem Holds.addSpilled {b : Banding R} {n : ℕ} {seed : U64} {keys : Set U64}
    (h : b.Holds n seed keys) (spilled : List (List U64)) :
  ∃ b', b.addSpilled spilled = some b' ∧ b'.Holds n seed (keys ∪ {k | k ∈ spilled.flatten})
  := by
  induction spilled generalizing b keys with
  | nil => exact ⟨b, rfl, by simpa using h⟩
  | cons spill spilled ih =>
      obtain ⟨b₁, hadd, h₁⟩ := h.addAll spill
      obtain ⟨b₂, hrest, h₂⟩ := ih h₁
      use b₂
      constructor
      · rw [Banding.addSpilled, hadd]
        apply hrest
      · rw [union_union_mem] at h₂
        apply h₂

end Banding

/-- The parallel build; the schedule orders the steps of the threads. -/
def Parallel.fromKeysParallelSeeded (T : Target) (sizing : ℕ → ℕ → ℕ) (R : ℕ) (keys : List U64)
    (seed : U64) (windowShift threads : ℕ) (schedule : List ℕ) : Option (Solution R) := do
  let band ← Banding.new R (numSlotsFor sizing keys.length R) seed
  let numSlots := band.numSlots
  let numStarts := BitVec.ofNat 64 (numSlots - W + 1)
  let threads := min (max threads 1) (numSlots / W)
  if threads ≤ 1 then
    let band ← band.addAll keys
    some band.solve
  else
    let window ← windowSize T windowShift
    let bounds := rangeBounds numSlots window threads
    let (buckets, deferred) ← bucketKeys bounds (fun k => start (ribbonHash k seed) numStarts) keys
    let (slices, rest) ← splitSlices bounds 0 band.coeffRows
    let workers ← scope numStarts seed schedule (spawnAll slices buckets)
    let band := { band with coeffRows := (workers.map RangeWorker.slice).flatten ++ rest }
    let band ← band.addAll deferred
    let band ← band.addSpilled (workers.map spilled)
    some band.solve

/-- Build in parallel. -/
def Ribbon.fromKeysParallelSeeded (T : Target) (sizing : ℕ → ℕ → ℕ) (R : ℕ) (keys : List U64)
    (seed : U64) (windowShift threads : ℕ) (schedule : List ℕ) : Option (Ribbon R) := do
  let _ ← windowSize T windowShift
  let soln ← Parallel.fromKeysParallelSeeded T sizing R keys seed windowShift threads schedule
  some ⟨soln⟩

namespace Parallel

/-- From an empty matrix on, the keys find their ranges, the rows are split and the workers
return; with the keys deferred and spilled they have banded all of the keys. -/
theorem exists_workers {R n : ℕ} {seed : U64} {band : Banding R} (hband : band.Holds n seed ∅)
    {window threads : ℕ} (hwindow : 0 < window) (hthreads : 0 < threads) (keys : List U64)
    (schedule : List ℕ) :
  ∃ buckets deferred slices workers, ∃ done : List U64,
    bucketKeys (rangeBounds n window threads)
        (fun k => start (ribbonHash k seed) (BitVec.ofNat 64 (n - W + 1))) keys
        = some (buckets, deferred)
      ∧ splitSlices (rangeBounds n window threads) 0 band.coeffRows = some (slices, [])
      ∧ scope (BitVec.ofNat 64 (n - W + 1)) seed schedule (spawnAll slices buckets) = some workers
      ∧ (matrix R (BitVec.ofNat 64 (n - W + 1)) seed
          (workers.map RangeWorker.slice).flatten).Holds n seed (∅ ∪ {k | k ∈ done})
      ∧ (∅ ∪ {k | k ∈ done} ∪ {k | k ∈ deferred} ∪ {k | k ∈ (workers.map spilled).flatten}
          = {k | k ∈ keys})
  := by
  have hslots := hband.wellFormed.slots
  rw [hband.slots] at hslots
  have hbounds := isBounds_rangeBounds n hwindow hthreads
  obtain ⟨buckets, deferred, hbucket, hbucketed⟩ :=
    bucketKeys_eq_some hbounds (lt_of_lt_of_le (by decide) hslots)
      (fun k (_ : k ∈ keys) => start_lt_slots (by decide) hslots (ribbonHash k seed))
  have hlen : band.coeffRows.length = n := hband.slots
  obtain ⟨slices, hsplit, hsliced⟩ := hbounds.exists_sliced hlen
  have hforall := (hbucketed.forall₂ hsliced).imp fun _ _ hb k hk => (hb k hk).1
  have hmatrix : matrix R (BitVec.ofNat 64 (n - W + 1)) seed band.coeffRows = band := by
    rw [matrix, ← hband.numStarts_eq, ← hband.rawSeed]
  have hholds : (matrix R (BitVec.ofNat 64 (n - W + 1)) seed
      (slices.map Prod.snd).flatten).Holds n seed ∅ := by
    rw [hsliced.flatten, hmatrix]
    apply hband
  obtain ⟨workers, done, hscope, hworkers, hdone⟩ :=
    exists_scope hforall hsliced.contiguous hholds schedule
  exact ⟨buckets, deferred, slices, workers, done, hbucket, hsplit, hscope, hworkers,
    union_eq_keys hbucketed.perm hdone⟩

/-- Whatever the size of a window, the number of threads and the order of their steps, the
build returns the solution of a matrix that holds the keys. -/
theorem exists_fromKeysParallelSeeded (T : Target) (sizing : ℕ → ℕ → ℕ) (R : ℕ) (keys : List U64)
    (seed : U64) {windowShift : ℕ} (hshift : windowShift < T.usizeBits) (threads : ℕ)
    (schedule : List ℕ) :
  ∃ b : Banding R,
    fromKeysParallelSeeded T sizing R keys seed windowShift threads schedule = some b.solve
      ∧ b.Holds (numSlotsFor sizing keys.length R) seed {k | k ∈ keys}
  := by
  have hblocks : numSlotsFor sizing keys.length R % W = 0 := roundUpNumSlots_mod ..
  have hslots : W ≤ numSlotsFor sizing keys.length R := le_roundUpNumSlots ..
  obtain ⟨band, hnew, hband⟩ := Banding.exists_new R seed hblocks hslots
  rw [fromKeysParallelSeeded, hnew]
  simp only [Option.bind_eq_bind, Option.bind_some, hband.slots]
  by_cases hfew : min (max threads 1) (numSlotsFor sizing keys.length R / W) ≤ 1
  · rw [if_pos hfew]
    obtain ⟨b, hadd, hb⟩ := hband.addAll keys
    rw [Set.empty_union] at hb
    rw [hadd]
    exact ⟨b, rfl, hb⟩
  · rw [if_neg hfew, windowSize, if_pos hshift]
    have hthreads : 0 < min (max threads 1) (numSlotsFor sizing keys.length R / W) := by omega
    obtain ⟨buckets, deferred, slices, workers, done, hbucket, hsplit, hscope, hworkers, hkeys⟩ :=
      exists_workers hband (window_pos windowShift) hthreads keys schedule
    -- The sequential tail.
    obtain ⟨b₁, hdeferred, hb₁⟩ := hworkers.addAll deferred
    obtain ⟨b₂, hspilled, hb₂⟩ := hb₁.addSpilled (workers.map spilled)
    rw [hkeys] at hb₂
    refine ⟨b₂, ?_, hb₂⟩
    simp only [Option.bind_some, hbucket, hsplit, hscope, List.append_nil]
    rw [hband.numStarts_eq, hband.rawSeed]
    simp only [hdeferred, Option.bind_some, hspilled]

end Parallel

/-- A window too large for the target is refused. -/
theorem Ribbon.fromKeysParallelSeeded_eq_none {T : Target} {sizing : ℕ → ℕ → ℕ} {R : ℕ}
    {keys : List U64} {seed : U64} {windowShift threads : ℕ} {schedule : List ℕ}
    (hlarge : ¬ windowShift < T.usizeBits) :
  fromKeysParallelSeeded T sizing R keys seed windowShift threads schedule = none
  := by
  rw [fromKeysParallelSeeded, windowSize, if_neg hlarge]
  rfl

/-- The parallel build is the arrival build, whatever the size of a window, the number of
threads and the order of their steps. -/
theorem Ribbon.fromKeysParallelSeeded_eq (T : Target) (sizing : ℕ → ℕ → ℕ) (R : ℕ)
    (keys : List U64) (seed : U64) {windowShift : ℕ} (hshift : windowShift < T.usizeBits)
    (threads : ℕ) (schedule : List ℕ) :
  ∃ f, fromKeysParallelSeeded T sizing R keys seed windowShift threads schedule = some f
    ∧ fromKeysSeeded sizing R keys seed = some f
  := by
  obtain ⟨b, hbuild, hb⟩ := Parallel.exists_fromKeysParallelSeeded T sizing R keys seed hshift
    threads schedule
  refine ⟨⟨b.solve⟩, ?_, fromKeysSeeded_eq_of_holds hb⟩
  rw [fromKeysParallelSeeded, windowSize, if_pos hshift, hbuild]
  rfl

/-- Two threads that take turns on the halves of `2 ^ 16` slots.  Each has two keys of its own,
and one key, near the end of the first half, is deferred. -/
theorem Ribbon.fromKeysParallelSeeded_eq_two :
  bucketKeys (rangeBounds (2 ^ 16) (2 ^ 15) 2)
      (fun k => start (ribbonHash k 0) (BitVec.ofNat 64 (2 ^ 16 - W + 1))) [5, 7, 2, 1, 3]
    = some ([[2, 3], [5, 1]], [7])
  ∧ ∃ f, fromKeysParallelSeeded ⟨64, le_rfl⟩ (fun _ _ => 2 ^ 16) 7 [5, 7, 2, 1, 3] 0 15 2
        [0, 1, 0, 1, 0] = some f
    ∧ fromKeysSeeded (fun _ _ => 2 ^ 16) 7 [5, 7, 2, 1, 3] 0 = some f
  := ⟨by decide +kernel,
    fromKeysParallelSeeded_eq ⟨64, le_rfl⟩ _ 7 [5, 7, 2, 1, 3] 0 (by decide) 2 _⟩

end Pleat
