import Pleat.Standard.Build
import Pleat.Standard.Worker

/-!
# The parallel standard build

The search for a seed with one thread for each range of slots (`banding128.rs`).  For each
seed the keys of the buckets are banded by the threads, in whatever order these take their
steps; the deferred keys and the keys that left their range are inserted into the whole
matrix at the end.  A seed fails when a thread or one of the last insertions does.

In each of these ways a seed fails only if the system of the keys is inconsistent, and
otherwise each key is inserted once; so what a seed yields is what it yields in arrival
order.
-/

namespace Pleat

open Bits Linear Retry Banding128 RangeWorker128

namespace Banding128

variable {R n : ℕ} {ordinal : U32}

/-- Insert the spilled keys of one worker after the other until one fails. -/
def addSpilled (b : Banding128 R) : List (List U64) → Option (Banding128 R × Bool)
  | [] => some (b, true)
  | spill :: spilled => do
      let (b, ok) ← b.addEach spill
      if ok then b.addSpilled spilled else some (b, false)

/-- Try one seed: clear the matrix, let a thread for each range band its keys, then insert
the deferred and the spilled keys. -/
def attemptParallel (keys : List U64) (numSlots window threads : ℕ) (numStarts : U64)
    (schedules : U32 → List ℕ) (b : Banding128 R) (ordinal : U32) :
    Option (Banding128 R × Option (Banding128 R)) := do
  let b := b.reset ordinal
  let raw := b.rawSeed.setWidth 64
  let bounds := rangeBounds numSlots window threads
  let (buckets, deferred) ← bucketKeys bounds (fun k => start (ribbonHash k raw) numStarts) keys
  let (cslices, crest) ← splitSlices bounds 0 b.coeffRows
  let (rslices, rrest) ← splitSlices bounds 0 b.resultRows
  let results ← scope numStarts raw (schedules ordinal) (spawnAll cslices rslices buckets)
  let b := { b with
    coeffRows := (results.map RangeWorker128.coeff).flatten ++ crest
    resultRows := (results.map RangeWorker128.result).flatten ++ rrest }
  if results.any failed then
    some (b, none)
  else
    let (b, tailOk) ← b.addEach deferred
    if tailOk then
      let (b, tailOk) ← b.addSpilled (results.map spilled)
      some (b, if tailOk then some b else none)
    else
      some (b, none)

end Banding128

/-- Build in parallel; the schedule for each seed orders the steps of its threads. -/
def buildStd128Parallel (T : Target) (sizing : ℕ → ℕ → ℕ) (R : ℕ) (keys : List U64)
    (windowShift threads : ℕ) (schedules : U32 → List ℕ) : Option (Option (Solution128 R)) :=
  let numSlots := numSlotsFor128 sizing keys.length R
  if threads ≤ 1 ∨ numSlots / W128 < 2 then
    buildStd128Pleated T sizing R keys windowShift
  else do
    let b ← Banding128.new R numSlots
    let window ← windowSize T windowShift
    let nWindows := divCeil numSlots window
    let threads := min threads nWindows
    let b ← firstSuccess
      (Banding128.attemptParallel keys numSlots window threads b.numStarts schedules) ordinals b
    some (b.map Banding128.intoSolution)

namespace Banding128

variable {R n : ℕ} {ordinal : U32}

/-- Inserting spilled keys up to the first failure adds them to the keys held when no
insertion fails, and otherwise shows that the system of all of them is inconsistent. -/
theorem Holds.addSpilled {b : Banding128 R} {keys : Set U64} (h : b.Holds n ordinal keys)
    (spilled : List (List U64)) :
  ∃ b' ok, b.addSpilled spilled = some (b', ok) ∧ b'.Shape n
    ∧ (ok = true → b'.Holds n ordinal (keys ∪ {k | k ∈ spilled.flatten}))
    ∧ (ok = false → ¬ Consistent (system n ordinal (keys ∪ {k | k ∈ spilled.flatten})))
  := by
  induction spilled generalizing b keys with
  | nil => exact ⟨b, true, rfl, h.shape, fun _ => by simpa using h, fun hok => nomatch hok⟩
  | cons spill spilled ih =>
      obtain ⟨b₁, ok, hadd, hshape, hheld, hfail⟩ := h.addEach spill
      rw [Banding128.addSpilled, hadd, List.flatten_cons, ← union_union_mem]
      simp only [Option.bind_eq_bind, Option.bind_some]
      cases ok with
      | true =>
          obtain ⟨b₂, ok₂, hrest⟩ := ih (hheld rfl)
          exact ⟨b₂, ok₂, hrest⟩
      | false =>
          refine ⟨b₁, false, rfl, hshape, fun hok => (nomatch hok), fun _ => ?_⟩
          apply not_consistent_mono Set.subset_union_left (hfail rfl)

/-- From a reset matrix on, the keys find their ranges, the rows are split and the workers
return; if none failed, with the keys deferred and spilled they have banded all of the
keys, and otherwise the system of the keys is inconsistent. -/
theorem Holds.exists_workers {b : Banding128 R} (h : b.Holds n ordinal ∅) {window threads : ℕ}
    (hwindow : 0 < window) (hthreads : 0 < threads) (keys : List U64) (schedule : List ℕ) :
  ∃ buckets deferred cslices rslices workers, ∃ done : List U64,
    bucketKeys (rangeBounds n window threads) (startSlot n ordinal) keys = some (buckets, deferred)
      ∧ splitSlices (rangeBounds n window threads) 0 b.coeffRows = some (cslices, [])
      ∧ splitSlices (rangeBounds n window threads) 0 b.resultRows = some (rslices, [])
      ∧ scope (BitVec.ofNat 64 (n - W128 + 1)) ((ordinalToRawSeed ordinal).setWidth 64) schedule
          (spawnAll cslices rslices buckets) = some workers
      ∧ (matrix R n ordinal (workers.map RangeWorker128.coeff).flatten
          (workers.map RangeWorker128.result).flatten).Holds n ordinal (∅ ∪ {k | k ∈ done})
      ∧ (workers.any failed = false →
          ∅ ∪ {k | k ∈ done} ∪ {k | k ∈ deferred} ∪ {k | k ∈ (workers.map spilled).flatten}
            = {k | k ∈ keys})
      ∧ (workers.any failed = true → ¬ Consistent (system n ordinal {k | k ∈ keys}))
  := by
  have hslots := h.shape.slots
  have hbounds := isBounds_rangeBounds n hwindow hthreads
  obtain ⟨buckets, deferred, hbucket, hbucketed⟩ :=
    bucketKeys_eq_some hbounds (lt_of_lt_of_le (by decide) hslots)
      (fun k (_ : k ∈ keys) => start_lt_slots (by decide) hslots _)
  obtain ⟨cslices, hcsplit, hcsliced⟩ := hbounds.exists_sliced h.shape.coeffs
  obtain ⟨rslices, hrsplit, hrsliced⟩ := hbounds.exists_sliced h.shape.results
  have hforall := (hbucketed.forall₂ hcsliced).imp fun _ _ hb k hk => (hb k hk).1
  have hmatrix : matrix R n ordinal b.coeffRows b.resultRows = b := by
    rw [matrix, ← h.shape.starts, ← h.rawSeed, ← h.ordinalSeed]
  have hholds : (matrix R n ordinal (cslices.map Prod.snd).flatten
      (rslices.map Prod.snd).flatten).Holds n ordinal ∅ := by
    rw [hcsliced.flatten, hrsliced.flatten, hmatrix]
    apply h
  obtain ⟨workers, done, hscope, hworkers, hok, hfail⟩ := exists_scope hforall
    (hcsliced.forall₂_length hrsliced) hcsliced.contiguous hholds schedule
  refine ⟨buckets, deferred, cslices, rslices, workers, done, hbucket, hcsplit, hrsplit, hscope,
    hworkers, ?_, ?_⟩
  · intro hnone
    apply union_eq_keys hbucketed.perm (hok hnone)
  · intro hsome
    apply not_consistent_mono _ (hfail hsome)
    rw [Set.empty_union]
    intro k hk
    apply hbucketed.perm.mem_iff.mp (List.mem_append_left _ hk)

/-- Inserting the deferred keys and then the spilled ones, up to the first failure, yields
the outcome of the seed for all of the keys. -/
theorem Holds.tail {b : Banding128 R} {keys : Set U64} (h : b.Holds n ordinal keys)
    (deferred : List U64) (spilled : List (List U64)) :
  ∃ b' r,
    (do
      let (b, tailOk) ← b.addEach deferred
      if tailOk then
        let (b, tailOk) ← b.addSpilled spilled
        some (b, if tailOk then some b else none)
      else
        some (b, none)) = some (b', r)
      ∧ b'.Shape n
      ∧ r.map intoSolution
          = outcome R n (keys ∪ {k | k ∈ deferred} ∪ {k | k ∈ spilled.flatten}) ordinal
  := by
  obtain ⟨b₁, ok₁, hdeferred, hb₁, hheld₁, hfail₁⟩ := h.addEach deferred
  rw [hdeferred]
  simp only [Option.bind_eq_bind, Option.bind_some]
  cases ok₁ with
  | false =>
      use b₁, none, rfl, hb₁
      apply (outcome_eq_none (not_consistent_mono Set.subset_union_left (hfail₁ rfl))).symm
  | true =>
      obtain ⟨b₂, ok₂, hspilled, hb₂, hheld₂, hfail₂⟩ := (hheld₁ rfl).addSpilled spilled
      rw [if_pos rfl, hspilled]
      exact ⟨b₂, _, rfl, hb₂, map_intoSolution_eq_outcome hheld₂ hfail₂⟩

/-- A parallel attempt yields the outcome of its seed, whatever the matrix held before and
in whatever order the threads take their steps. -/
theorem Shape.attemptParallel {b : Banding128 R} (h : b.Shape n) (keys : List U64)
    {window threads : ℕ} (hwindow : 0 < window) (hthreads : 0 < threads)
    (schedules : U32 → List ℕ) (ordinal : U32) :
  ∃ b' r,
    attemptParallel keys n window threads (BitVec.ofNat 64 (n - W128 + 1)) schedules b ordinal
        = some (b', r)
      ∧ b'.Shape n ∧ r.map intoSolution = outcome R n {k | k ∈ keys} ordinal
  := by
  have hreset := h.reset ordinal
  obtain ⟨buckets, deferred, cslices, rslices, workers, done, hbucket, hcsplit, hrsplit, hscope,
    hworkers, hok, hfail⟩ := hreset.exists_workers hwindow hthreads keys (schedules ordinal)
  change bucketKeys _ (fun k => start (ribbonHash k _) _) _ = _ at hbucket
  rw [Banding128.attemptParallel]
  simp only [hreset.rawSeed, hreset.ordinalSeed, hreset.shape.starts, hbucket, hcsplit, hrsplit,
    hscope, Option.bind_eq_bind, Option.bind_some, List.append_nil]
  cases hany : workers.any failed with
  | true =>
      refine ⟨_, none, if_pos rfl, hworkers.shape, ?_⟩
      apply (outcome_eq_none (hfail hany)).symm
  | false =>
      rw [if_neg Bool.false_ne_true, ← hok hany]
      apply hworkers.tail deferred (workers.map spilled)

end Banding128

/-- A window too large for the target is refused. -/
theorem buildStd128Parallel_eq_none {T : Target} {sizing : ℕ → ℕ → ℕ} {keys : List U64}
    {windowShift threads : ℕ} {schedules : U32 → List ℕ} (hlarge : ¬ windowShift < T.usizeBits) :
  buildStd128Parallel T sizing R keys windowShift threads schedules = none
  := by
  obtain ⟨b, hnew, -⟩ := exists_new R (n := numSlotsFor128 sizing keys.length R)
    (roundUpNumSlots_mod ..) (le_roundUpNumSlots ..)
  rw [buildStd128Parallel, buildStd128Pleated_eq_none hlarge, hnew, windowSize, if_neg hlarge]
  dsimp only
  split
  · rfl
  · rfl

/-- Whatever the size of a window, the number of threads and the order of their steps, the
parallel build returns the first outcome among the seeds. -/
theorem buildStd128Parallel_eq_firstOutcome {T : Target} (sizing : ℕ → ℕ → ℕ) (R : ℕ)
    (keys : List U64) {windowShift : ℕ} (hshift : windowShift < T.usizeBits) (threads : ℕ)
    (schedules : U32 → List ℕ) :
  buildStd128Parallel T sizing R keys windowShift threads schedules
    = some (firstOutcome sizing R keys)
  := by
  rw [buildStd128Parallel]
  by_cases hfew : threads ≤ 1 ∨ numSlotsFor128 sizing keys.length R / W128 < 2
  · simp only [if_pos hfew]
    apply buildStd128Pleated_eq_firstOutcome T sizing R keys hshift
  · simp only [if_neg hfew]
    have hblocks : numSlotsFor128 sizing keys.length R % W128 = 0 := roundUpNumSlots_mod ..
    have hslots : W128 ≤ numSlotsFor128 sizing keys.length R := le_roundUpNumSlots ..
    have hwindow := window_pos windowShift
    have hwindows := divCeil_pos (lt_of_lt_of_le (by decide) hslots) hwindow
    have hthreads : 0 < min threads
        (divCeil (numSlotsFor128 sizing keys.length R) (1 <<< windowShift)) := by
      omega
    obtain ⟨b, hnew, hb⟩ := exists_new R hblocks hslots
    obtain ⟨r, hfind, hr⟩ := exists_firstSuccess (Shape · _)
      (fun b' ordinal hb' => Shape.attemptParallel hb' keys hwindow hthreads schedules ordinal)
      ordinals hb
    rw [hnew, windowSize, if_pos hshift]
    simp only [Option.bind_eq_bind, Option.bind_some, hb.starts, hfind, hr]
    rfl

/-- The parallel build is the arrival build, whatever the size of a window, the number of
threads and the order of their steps. -/
theorem buildStd128Parallel_eq (T : Target) (sizing : ℕ → ℕ → ℕ) (R : ℕ) (keys : List U64)
    {windowShift : ℕ} (hshift : windowShift < T.usizeBits) (threads : ℕ)
    (schedules : U32 → List ℕ) :
  ∃ result, buildStd128Parallel T sizing R keys windowShift threads schedules = some result
    ∧ buildStd128 sizing R keys = some result
  := by
  refine ⟨firstOutcome sizing R keys, ?_, buildStd128_eq sizing R keys⟩
  apply buildStd128Parallel_eq_firstOutcome sizing R keys hshift threads schedules

/-- Two threads that take turns on the halves of `2 ^ 16` slots.  Under the first seed each has
two keys of its own, and one key, near the end of the first half, is deferred. -/
theorem buildStd128Parallel_eq_two :
  bucketKeys (rangeBounds (2 ^ 16) (2 ^ 15) 2)
      (fun k => start (ribbonHash k ((ordinalToRawSeed 0).setWidth 64))
        (BitVec.ofNat 64 (2 ^ 16 - W128 + 1))) [5, 7, 2, 1, 3]
    = some ([[2, 3], [5, 1]], [7])
  ∧ ∃ result,
    buildStd128Parallel ⟨64, le_rfl⟩ (fun _ _ => 2 ^ 16) 7 [5, 7, 2, 1, 3] 15 2
        (fun _ => [0, 1, 0, 1, 0]) = some result
      ∧ buildStd128 (fun _ _ => 2 ^ 16) 7 [5, 7, 2, 1, 3] = some result
  := ⟨by decide +kernel, buildStd128Parallel_eq ⟨64, le_rfl⟩ _ 7 [5, 7, 2, 1, 3] (by decide) 2 _⟩

end Pleat
