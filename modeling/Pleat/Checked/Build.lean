import Pleat.Checked.Workers
import Pleat.Standard.Filter
import Pleat.Overhead

/-!
# Building with arithmetic that can fail

The builders of both families with the arithmetic of the machine: the sizing, the vectors of
the table, of its segments and of the keys, the pleating pass, the banding, the threads and
back-substitution.  The start slot of a key is a product of 128 bits that does not
overflow (`start_eq`).

It is assumed that the system creates every thread (`scope.spawn` panics where it does not),
that it finds memory for whatever is no larger than `isize::MAX`, and that the vectors that
only have an entry for each thread are allocated.

For a list of keys in memory an arrival or pleated build panics in two cases alone: the rows of
its matrix cannot be allocated, or its window is not smaller than the width of a pointer.  A
parallel build may panic in one more: the keys take up more than half of what can be allocated,
and a bucket that gets more than its share of them cannot be doubled.  Otherwise every build
returns what the arrival build returns in the arithmetic of the numbers.
-/

namespace Pleat

namespace Checked

open Bits Capacity Format Retry

variable {R : ℕ}

/-- Fold into a fresh buffer. -/
def pleat (T : Target) (p : PleatPlan) (keys : List U64) (startOf : U64 → U64) :
    Option (List U64 × List ℕ) := do
  let out ← vec T 8 0 keys.length
  pleatInto T p keys startOf out

/-! ### Homogeneous builders -/

/-- Build in arrival order. -/
def ribbonFromKeysSeeded (T : Target) (R : ℕ) (keys : List U64) (seed : U64) :
    Option (Ribbon R) := do
  let numSlots ← numSlotsFor T keys.length R
  let b ← newBanding T R numSlots seed
  let b ← addAll T b keys
  let soln ← solve T b
  some ⟨soln⟩

/-- Build pleated. -/
def ribbonFromKeysPleatedSeeded (T : Target) (R : ℕ) (keys : List U64) (seed : U64)
    (windowShift : ℕ) : Option (Ribbon R) := do
  let _ ← windowSize T windowShift
  let numSlots ← numSlotsFor T keys.length R
  let numStarts ← startsFor T W numSlots
  let plan ← PleatPlan.new T numStarts windowShift
  let (ordered, _) ← pleat T plan keys (fun k => Pleat.start (ribbonHash k seed) numStarts)
  let b ← newBanding T R numSlots seed
  let b ← addAll T b ordered
  let soln ← solve T b
  some ⟨soln⟩

/-- Insert the spilled keys of one worker after the other. -/
def addSpilled (T : Target) (b : Banding R) : List (List U64) → Option (Banding R)
  | [] => some b
  | spill :: spilled => do
      let b ← addAll T b spill
      addSpilled T b spilled

/-- The parallel build; the schedule orders the steps of the threads. -/
def parallelFromKeysSeeded (T : Target) (R : ℕ) (keys : List U64) (seed : U64)
    (windowShift threads : ℕ) (schedule : List ℕ) : Option (Solution R) := do
  let numSlots ← numSlotsFor T keys.length R
  let band ← newBanding T R numSlots seed
  let numSlots := band.numSlots
  let numStarts ← startsFor T W numSlots
  let windows ← checkedDiv numSlots W
  let threads := min (max threads 1) windows
  if threads ≤ 1 then do
    let band ← addAll T band keys
    solve T band
  else do
    let window ← windowSize T windowShift
    let bounds := rangeBounds T numSlots window threads
    let (buckets, deferred) ←
      pushKeys T bounds (fun k => Pleat.start (ribbonHash k seed) numStarts) keys
    let (slices, rest) ← splitSlices T bounds 0 band.coeffRows
    let workers ← scope T numStarts seed schedule (RangeWorker.spawnAll slices buckets)
    let band := { band with coeffRows := (workers.map RangeWorker.slice).flatten ++ rest }
    let band ← addAll T band deferred
    let band ← addSpilled T band (workers.map RangeWorker.spilled)
    solve T band

/-- Build in parallel. -/
def ribbonFromKeysParallelSeeded (T : Target) (R : ℕ) (keys : List U64) (seed : U64)
    (windowShift threads : ℕ) (schedule : List ℕ) : Option (Ribbon R) := do
  let _ ← windowSize T windowShift
  let soln ← parallelFromKeysSeeded T R keys seed windowShift threads schedule
  some ⟨soln⟩

/-! ### Standard builders -/

/-- Try one seed in arrival order. -/
def attempt (T : Target) (keys : List U64) (b : Banding128 R) (ordinal : U32) :
    Option (Banding128 R × Option (Banding128 R)) := do
  let (b, ok) ← addEach128 T (b.reset ordinal) keys
  some (b, if ok then some b else none)

/-- Try the seeds in order until one solves the whole set. -/
def findSeed (T : Target) (R numSlots : ℕ) (keys : List U64) :
    Option (Option (Banding128 R)) := do
  let b ← newBanding128 T R numSlots
  firstSuccess (attempt T keys) ordinals b

/-- Try one seed with the keys pleated for it. -/
def attemptPleated (T : Target) (keys : List U64) (numStarts : U64) (windowShift : ℕ) :
    Banding128 R × List U64 → U32 →
      Option ((Banding128 R × List U64) × Option (Banding128 R))
  | (b, scratch), ordinal => do
      let b := b.reset ordinal
      let raw := b.rawSeed.setWidth 64
      let plan ← PleatPlan.new T numStarts windowShift
      let (scratch, _) ←
        pleatInto T plan keys (fun k => Pleat.start (ribbonHash k raw) numStarts) scratch
      let (b, ok) ← addEach128 T b scratch
      some ((b, scratch), if ok then some b else none)

/-- As `findSeed`, but with the keys pleated for each seed. -/
def findSeedPleated (T : Target) (R numSlots : ℕ) (keys : List U64) (windowShift : ℕ) :
    Option (Option (Banding128 R)) := do
  let b ← newBanding128 T R numSlots
  let scratch ← vec T 8 0 keys.length
  firstSuccess (attemptPleated T keys b.numStarts windowShift) ordinals (b, scratch)

/-- Insert the spilled keys of one worker after the other until one fails. -/
def addSpilled128 (T : Target) (b : Banding128 R) :
    List (List U64) → Option (Banding128 R × Bool)
  | [] => some (b, true)
  | spill :: spilled => do
      let (b, ok) ← addEach128 T b spill
      if ok then addSpilled128 T b spilled else some (b, false)

/-- Try one seed with a thread for each range. -/
def attemptParallel (T : Target) (keys : List U64) (numSlots window threads : ℕ)
    (numStarts : U64) (schedules : U32 → List ℕ) (b : Banding128 R) (ordinal : U32) :
    Option (Banding128 R × Option (Banding128 R)) := do
  let b := b.reset ordinal
  let raw := b.rawSeed.setWidth 64
  let bounds := rangeBounds T numSlots window threads
  let (buckets, deferred) ←
    pushKeys T bounds (fun k => Pleat.start (ribbonHash k raw) numStarts) keys
  let (cslices, crest) ← splitSlices T bounds 0 b.coeffRows
  let (rslices, rrest) ← splitSlices T bounds 0 b.resultRows
  let results ← scope128 T numStarts raw (schedules ordinal)
    (RangeWorker128.spawnAll cslices rslices buckets)
  let b := { b with
    coeffRows := (results.map RangeWorker128.coeff).flatten ++ crest
    resultRows := (results.map RangeWorker128.result).flatten ++ rrest }
  if results.any RangeWorker128.failed then
    some (b, none)
  else do
    let (b, tailOk) ← addEach128 T b deferred
    if tailOk then do
      let (b, tailOk) ← addSpilled128 T b (results.map RangeWorker128.spilled)
      some (b, if tailOk then some b else none)
    else
      some (b, none)

/-- The solution of the matrix found. -/
def solveFound (T : Target) : Option (Banding128 R) → Option (Option (Solution128 R))
  | none => some none
  | some b => do
      let soln ← intoSolution T b
      some (some soln)

/-- Build in arrival order. -/
def buildStd128 (T : Target) (R : ℕ) (keys : List U64) : Option (Option (Solution128 R)) := do
  let numSlots ← numSlotsFor128 T keys.length R
  let b ← findSeed T R numSlots keys
  solveFound T b

/-- Build pleated. -/
def buildStd128Pleated (T : Target) (R : ℕ) (keys : List U64) (windowShift : ℕ) :
    Option (Option (Solution128 R)) := do
  let _ ← windowSize T windowShift
  let numSlots ← numSlotsFor128 T keys.length R
  let b ← findSeedPleated T R numSlots keys windowShift
  solveFound T b

/-- Build in parallel; the schedule for each seed orders the steps of its threads. -/
def buildStd128Parallel (T : Target) (R : ℕ) (keys : List U64) (windowShift threads : ℕ)
    (schedules : U32 → List ℕ) : Option (Option (Solution128 R)) := do
  let numSlots ← numSlotsFor128 T keys.length R
  let blocks ← checkedDiv numSlots W128
  if threads ≤ 1 ∨ blocks < 2 then
    buildStd128Pleated T R keys windowShift
  else do
    let b ← newBanding128 T R numSlots
    let window ← windowSize T windowShift
    let threads := min threads (divCeil numSlots window)
    let b ← firstSuccess
      (attemptParallel T keys numSlots window threads b.numStarts schedules) ordinals b
    solveFound T b

/-- Build in arrival order. -/
def stdRibbonFromKeys (T : Target) (R : ℕ) (keys : List U64) :
    Option (Except BuildError (StdRibbon R)) :=
  (buildStd128 T R keys).map StdRibbon.ofSolution

/-- Build pleated. -/
def stdRibbonFromKeysPleated (T : Target) (R : ℕ) (keys : List U64) :
    Option (Except BuildError (StdRibbon R)) :=
  (buildStd128Pleated T R keys defaultWindowShift).map StdRibbon.ofSolution

/-- Build in parallel. -/
def stdRibbonFromKeysParallel (T : Target) (R : ℕ) (keys : List U64) (threads : ℕ)
    (schedules : U32 → List ℕ) : Option (Except BuildError (StdRibbon R)) :=
  (buildStd128Parallel T R keys defaultWindowShift threads schedules).map StdRibbon.ofSolution

/-! ### The size of the table -/

variable {T : Target} {w n : ℕ} {keys : List U64}

theorem numSlotsFor_eq (hT : 16 ≤ T.usizeBits) (hR : checkWidth R)
    (hkeys : keys.length * 8 ≤ T.isizeMax) :
  numSlotsFor T keys.length R = some (Pleat.numSlotsFor (rawSlots T) keys.length R)
  := by
  have hwidth := hR.2
  rw [numSlotsFor, Pleat.numSlotsFor, rawSlots_eq hwidth hkeys]
  apply roundUpNumSlots_roundedProduct hT (by decide) (by decide) (by decide) (by omega) hkeys

theorem numSlotsFor128_eq (hT : 16 ≤ T.usizeBits) (hR : checkWidth R)
    (hkeys : keys.length * 8 ≤ T.isizeMax) :
  numSlotsFor128 T keys.length R = some (Pleat.numSlotsFor128 (rawSlots128 T) keys.length R)
  := by
  have hwidth := hR.2
  rw [numSlotsFor128, Pleat.numSlotsFor128, rawSlots128_eq hwidth hkeys]
  apply roundUpNumSlots_roundedProduct hT (by decide) (by decide) (by decide) (by omega) hkeys

namespace Room

/-- What can be allocated has room for a vector of a few keys. -/
theorem le_isizeMax (h : Room T w n) (hw : 64 ≤ w) :
  32 ≤ T.isizeMax
  := by
  have hslots := h.slots
  have hbytes := h.bytes
  omega

/-- The offsets of the windows take up less memory than the slots. -/
theorem offsetsFit (h : Room T w n) (hw : 64 ≤ w) (shift : ℕ) :
  OffsetsFit T ⟨BitVec.ofNat 64 (n - w + 1), shift⟩
  := by
  have hslots := h.slots
  have hbytes := h.bytes
  have hbits := T.usizeBits_le
  have hsize : T.usizeBytes ≤ 8 := by
    rw [Target.usizeBytes, divCeil]
    omega
  have hwindows : ((BitVec.ofNat 64 (n - w + 1)) >>> shift).toNat ≤ n - w + 1 := by
    rw [BitVec.toNat_ushiftRight, BitVec.toNat_ofNat, Nat.shiftRight_eq_div_pow]
    apply le_trans (Nat.div_le_self ..) (Nat.mod_le ..)
  calc (((BitVec.ofNat 64 (n - w + 1)) >>> shift).toNat + 3) * T.usizeBytes
      ≤ n * 8 := Nat.mul_le_mul (by omega) hsize
    _ ≤ T.isizeMax := hbytes

/-- The pleating pass of the keys of a table is that of the numbers. -/
theorem pleatInto_eq (h : Room T w n) (hw : 64 ≤ w) {shift : ℕ} (hshift : shift < T.usizeBits)
    (hkeys : keys.length * 8 ≤ T.isizeMax) (hash : U64 → U64) {scratch : List U64}
    (hscratch : scratch.length = keys.length) :
  pleatInto T ⟨BitVec.ofNat 64 (n - w + 1), shift⟩ keys
      (fun k => Pleat.start (hash k) (BitVec.ofNat 64 (n - w + 1))) scratch
    = PleatPlan.pleatInto ⟨BitVec.ofNat 64 (n - w + 1), shift⟩ keys
        (fun k => Pleat.start (hash k) (BitVec.ofNat 64 (n - w + 1))) scratch
  := by
  have hfit := h.offsetsFit hw shift
  have hslots := h.slots
  have hlt := h.lt_two_pow
  have hhalf := isizeMax_le_usizeMax T
  have hpos : 0 < (BitVec.ofNat 64 (n - w + 1)).toNat := by
    rw [BitVec.toNat_ofNat, Nat.mod_eq_of_lt (by omega)]
    omega
  have hstart : ∀ k ∈ keys, Pleat.start (hash k) (BitVec.ofNat 64 (n - w + 1))
      < BitVec.ofNat 64 (n - w + 1) := fun k _ => BitVec.lt_def.mpr (start_lt hpos)
  rw [hfit.pleatInto_eq hshift (by omega) hscratch hstart,
    PleatPlan.pleatInto_eq _ hscratch (fun k hk => (hfit.windowOf_eq hshift (hstart k hk)).2)]

end Room

/-! ### Homogeneous filters -/

section Homogeneous

variable {seed : U64}

theorem addSpilled_eq {b : Banding R} {held : Set U64} (hb : b.Holds n seed held)
    (h : Room T W n) (spilled : List (List U64)) :
  addSpilled T b spilled = b.addSpilled spilled
  := by
  induction spilled generalizing b held with
  | nil => rfl
  | cons spill spilled ih =>
      obtain ⟨b₁, hadd, hb₁⟩ := hb.addAll spill
      rw [addSpilled, Banding.addSpilled, addAll_eq hb h, hadd, Option.bind_eq_bind,
        Option.bind_some]
      apply ih hb₁

/-- A matrix with room is made, filled and solved as in the arithmetic of the numbers. -/
theorem banded_eq (h : Room T W n) (hR : checkWidth R) (seed : U64) (keys : List U64) :
  (do
    let b ← newBanding T R n seed
    let b ← addAll T b keys
    let soln ← solve T b
    some (⟨soln⟩ : Ribbon R))
  = (do
    let b ← Banding.new R n seed
    let b ← b.addAll keys
    some ⟨b.solve⟩)
  := by
  obtain ⟨b, hnew, hb⟩ := Banding.exists_new R seed h.blocks h.slots
  obtain ⟨b', hadd, hb'⟩ := hb.addAll keys
  rw [newBanding_eq h, hnew]
  simp only [Option.bind_eq_bind, Option.bind_some, addAll_eq hb h, hadd, solve_eq hb'.slots h hR.2]

theorem ribbonFromKeysSeeded_eq_plain (hT : 16 ≤ T.usizeBits) (hR : checkWidth R)
    (hkeys : keys.length * 8 ≤ T.isizeMax)
    (h : Room T W (Pleat.numSlotsFor (rawSlots T) keys.length R)) (seed : U64) :
  ribbonFromKeysSeeded T R keys seed = Ribbon.fromKeysSeeded (rawSlots T) R keys seed
  := by
  rw [ribbonFromKeysSeeded, numSlotsFor_eq hT hR hkeys]
  apply banded_eq h hR

theorem ribbonFromKeysPleatedSeeded_eq_plain (hT : 16 ≤ T.usizeBits) (hR : checkWidth R)
    (hkeys : keys.length * 8 ≤ T.isizeMax)
    (h : Room T W (Pleat.numSlotsFor (rawSlots T) keys.length R)) (seed : U64) {windowShift : ℕ}
    (hshift : windowShift < T.usizeBits) :
  ribbonFromKeysPleatedSeeded T R keys seed windowShift
    = Ribbon.fromKeysPleatedSeeded T (rawSlots T) R keys seed windowShift
  := by
  have hbuffer : (List.replicate keys.length (0 : U64)).length = keys.length :=
    List.length_replicate
  rw [ribbonFromKeysPleatedSeeded, Ribbon.fromKeysPleatedSeeded, numSlotsFor_eq hT hR hkeys]
  simp only [Option.bind_eq_bind, Option.bind_some]
  rw [h.startsFor_eq (by decide), Option.bind_some, PleatPlan.new, if_pos hshift, Option.bind_some,
    pleat, vec_eq 0 hkeys, Option.bind_eq_bind, Option.bind_some,
    h.pleatInto_eq le_rfl hshift hkeys (fun k => ribbonHash k seed) hbuffer, Option.bind_some,
    PleatPlan.pleat]
  apply Option.bind_congr
  intro _ _
  apply Option.bind_congr
  rintro ⟨ordered, counts⟩ _
  apply banded_eq h hR

/-- The slices of the threads are no longer than the matrix. -/
theorem slice_length_le {slices : List (ℕ × List U64)} {bounds : List ℕ}
    (hbounds : IsBounds bounds n) {rows : List U64} (hsliced : Sliced bounds rows slices)
    {buckets : List (List U64)} {w : RangeWorker} (hw : w ∈ RangeWorker.spawnAll slices buckets) :
  w.slice.length ≤ n
  := by
  obtain ⟨t, ht⟩ := List.mem_iff_getElem?.mp hw
  obtain ⟨s, bucket, hs, -, rfl⟩ := RangeWorker.getElem?_spawnAll.mp ht
  apply le_trans (Nat.le_add_left ..) (hsliced.le_of_mem hbounds (List.mem_of_getElem? hs))

theorem parallelFromKeysSeeded_sameUnless (hT : 16 ≤ T.usizeBits) (hR : checkWidth R)
    (hkeys : keys.length * 8 ≤ T.isizeMax)
    (h : Room T W (Pleat.numSlotsFor (rawSlots T) keys.length R)) (seed : U64) {windowShift : ℕ}
    (hshift : windowShift < T.usizeBits) (threads : ℕ) (schedule : List ℕ) :
  SameUnless (T.isizeMax < keys.length * 16)
    (parallelFromKeysSeeded T R keys seed windowShift threads schedule)
    (Parallel.fromKeysParallelSeeded T (rawSlots T) R keys seed windowShift threads schedule)
  := by
  have hmax : Pleat.numSlotsFor (rawSlots T) keys.length R ≤ T.usizeMax :=
    le_trans (Nat.le_add_right ..) h.le_usizeMax
  have hpos : 0 < Pleat.numSlotsFor (rawSlots T) keys.length R :=
    lt_of_lt_of_le (by decide) h.slots
  obtain ⟨band, hnew, hband⟩ := Banding.exists_new R seed h.blocks h.slots
  have hempty : band.coeffRows
      = List.replicate (Pleat.numSlotsFor (rawSlots T) keys.length R) 0 := by
    rw [Banding.new_eq_some h.blocks h.slots, Option.some.injEq] at hnew
    rw [← hnew]
  rw [parallelFromKeysSeeded, Parallel.fromKeysParallelSeeded, numSlotsFor_eq hT hR hkeys]
  simp only [Option.bind_eq_bind, Option.bind_some]
  rw [newBanding_eq h, hnew]
  simp only [Option.bind_some, hband.slots, h.startsFor_eq (by decide : 0 < W),
    checkedDiv_eq (by decide : 0 < W)]
  split
  · obtain ⟨b, hadd, hb⟩ := hband.addAll keys
    simp only [addAll_eq hband h, hadd, Option.bind_some, solve_eq hb.slots h hR.2]
    apply SameUnless.refl
  · rename_i hmany
    have hthreads : 0 < min (max threads 1)
        (Pleat.numSlotsFor (rawSlots T) keys.length R / W) := by
      omega
    obtain ⟨buckets, deferred, slices, workers, done, hbucket, hsplit, hscope, hworkers, -⟩ :=
      Parallel.exists_workers hband (window_pos windowShift) hthreads keys schedule
    have hbounds := isBounds_rangeBounds (Pleat.numSlotsFor (rawSlots T) keys.length R)
      (window_pos windowShift) hthreads
    obtain ⟨slices', hsplit', hsliced⟩ := hbounds.exists_sliced hband.slots
    obtain rfl := (Prod.mk.inj (Option.some_injective _ (hsplit.symm.trans hsplit'))).1
    rw [hempty] at hsliced
    have hspawned := fun w hw => And.intro (slice_length_le hbounds hsliced hw)
      (RangeWorker.contained_spawnAll hbounds h.slots hbucket hsliced w hw)
    obtain ⟨b₁, hdeferred, hb₁⟩ := hworkers.addAll deferred
    obtain ⟨b₂, hspilled, hb₂⟩ := hb₁.addSpilled (workers.map RangeWorker.spilled)
    have hrows : 0 + band.coeffRows.length ≤ T.usizeMax := by
      change 0 + band.numSlots ≤ T.usizeMax
      rwa [hband.slots, Nat.zero_add]
    rw [windowSize, if_pos hshift]
    simp only [Option.bind_some]
    rw [rangeBounds_eq hmax (window_pos windowShift)]
    have hpushed := pushKeys_sameUnless (h.le_isizeMax le_rfl) hkeys
      (Pleat.rangeBounds (Pleat.numSlotsFor (rawSlots T) keys.length R) (1 <<< windowShift)
        (min (max threads 1) (Pleat.numSlotsFor (rawSlots T) keys.length R / W)))
      (fun k => Pleat.start (ribbonHash k seed)
        (BitVec.ofNat 64 (Pleat.numSlotsFor (rawSlots T) keys.length R - W + 1)))
    rw [bucketKeys_eq hbounds hpos hmax
      (fun k _ => start_lt_slots (by decide) h.slots _)] at hpushed
    apply hpushed.bind
    rintro ⟨buckets', deferred'⟩ hbucket'
    obtain ⟨rfl, rfl⟩ := Prod.mk.inj (Option.some_injective _ (hbucket.symm.trans hbucket'))
    left
    simp only [splitSlices_eq _ hrows, hsplit, Option.bind_some]
    rw [scope_eq h seed schedule hspawned, hscope]
    simp only [Option.bind_some, List.append_nil]
    rw [hband.numStarts_eq, hband.rawSeed, addAll_eq hworkers h, hdeferred]
    simp only [Option.bind_some]
    rw [addSpilled_eq hb₁ h, hspilled]
    simp only [Option.bind_some, solve_eq hb₂.slots h hR.2]

theorem ribbonFromKeysParallelSeeded_sameUnless (hT : 16 ≤ T.usizeBits) (hR : checkWidth R)
    (hkeys : keys.length * 8 ≤ T.isizeMax)
    (h : Room T W (Pleat.numSlotsFor (rawSlots T) keys.length R)) (seed : U64) {windowShift : ℕ}
    (hshift : windowShift < T.usizeBits) (threads : ℕ) (schedule : List ℕ) :
  SameUnless (T.isizeMax < keys.length * 16)
    (ribbonFromKeysParallelSeeded T R keys seed windowShift threads schedule)
    (Ribbon.fromKeysParallelSeeded T (rawSlots T) R keys seed windowShift threads schedule)
  := by
  rw [ribbonFromKeysParallelSeeded, Ribbon.fromKeysParallelSeeded]
  apply SameUnless.bind (.refl ..)
  intro _ _
  apply SameUnless.bind (parallelFromKeysSeeded_sameUnless hT hR hkeys h seed hshift threads
    schedule)
  intro _ _
  apply SameUnless.refl

/-- A window too large for the target is refused. -/
theorem ribbonFromKeys_eq_none_of_large {windowShift : ℕ} (hlarge : ¬ windowShift < T.usizeBits)
    (keys : List U64) (seed : U64) (threads : ℕ) (schedule : List ℕ) :
  ribbonFromKeysPleatedSeeded T R keys seed windowShift = none
    ∧ ribbonFromKeysParallelSeeded T R keys seed windowShift threads schedule = none
  := by
  rw [ribbonFromKeysPleatedSeeded, ribbonFromKeysParallelSeeded, windowSize, if_neg hlarge]
  exact ⟨rfl, rfl⟩

/-- Without room for the matrix no build returns. -/
theorem ribbonFromKeys_eq_none (hT : 16 ≤ T.usizeBits) (hR : checkWidth R)
    (hkeys : keys.length * 8 ≤ T.isizeMax)
    (h : T.isizeMax < Pleat.numSlotsFor (rawSlots T) keys.length R * 8) (seed : U64)
    (windowShift threads : ℕ) (schedule : List ℕ) :
  ribbonFromKeysSeeded T R keys seed = none
    ∧ ribbonFromKeysPleatedSeeded T R keys seed windowShift = none
    ∧ ribbonFromKeysParallelSeeded T R keys seed windowShift threads schedule = none
  := by
  refine ⟨?_, ?_, ?_⟩
  · rw [ribbonFromKeysSeeded, numSlotsFor_eq hT hR hkeys, Option.bind_eq_bind, Option.bind_some,
      newBanding_eq_none h]
    rfl
  · rw [ribbonFromKeysPleatedSeeded, numSlotsFor_eq hT hR hkeys]
    simp [newBanding_eq_none h]
  · rw [ribbonFromKeysParallelSeeded, parallelFromKeysSeeded, numSlotsFor_eq hT hR hkeys]
    simp [newBanding_eq_none h]

end Homogeneous

/-! ### Standard filters -/

section Standard

variable {b : Banding128 R} {ordinal : U32}

theorem addSpilled128_eq {held : Set U64} (hb : b.Holds n ordinal held) (h : Room T W128 n)
    (spilled : List (List U64)) :
  addSpilled128 T b spilled = b.addSpilled spilled
  := by
  induction spilled generalizing b held with
  | nil => rfl
  | cons spill spilled ih =>
      obtain ⟨b₁, ok, hadd, -, hheld, -⟩ := hb.addEach spill
      rw [addSpilled128, Banding128.addSpilled, addEach128_eq hb h, hadd, Option.bind_eq_bind,
        Option.bind_some]
      cases ok with
      | false => rfl
      | true => apply ih (hheld rfl)

/-- What an attempt finds is the matrix it leaves. -/
theorem shape_of_found {ok : Bool} (hb : b.Shape n) {x : Banding128 R}
    (hx : (if ok then some b else none) = some x) :
  x.Shape n
  := by
  cases ok with
  | false => cases hx
  | true =>
      obtain rfl := Option.some_injective _ hx
      apply hb

/-- An attempt returns what it returns in the arithmetic of the numbers, and leaves a matrix of
the same shape. -/
theorem exists_attempt (hb : b.Shape n) (h : Room T W128 n) (keys : List U64) (ordinal : U32) :
  ∃ b' r, attempt T keys b ordinal = some (b', r) ∧ Banding128.attempt keys b ordinal = some (b', r)
    ∧ b'.Shape n ∧ ∀ x, r = some x → x.Shape n
  := by
  obtain ⟨b₁, ok, hadd, hshape, -, -⟩ := hb.addEach_reset ordinal keys
  refine ⟨b₁, if ok then some b₁ else none, ?_, ?_, hshape, fun x => shape_of_found hshape⟩
  · rw [attempt, addEach128_eq (hb.reset ordinal) h, hadd]
    rfl
  · rw [Banding128.attempt, hadd]
    rfl

theorem exists_attemptPleated (hb : b.Shape n) (h : Room T W128 n)
    (hkeys : keys.length * 8 ≤ T.isizeMax) {windowShift : ℕ} (hshift : windowShift < T.usizeBits)
    {scratch : List U64} (hscratch : scratch.length = keys.length) (ordinal : U32) :
  ∃ s' r,
    attemptPleated T keys (BitVec.ofNat 64 (n - W128 + 1)) windowShift (b, scratch) ordinal
        = some (s', r)
      ∧ Banding128.attemptPleated T keys (BitVec.ofNat 64 (n - W128 + 1)) windowShift (b, scratch)
          ordinal = some (s', r)
      ∧ (s'.1.Shape n ∧ s'.2.length = keys.length) ∧ ∀ x, r = some x → x.Shape n
  := by
  obtain ⟨ordered, counts, hpleat, hperm⟩ := PleatPlan.exists_pleatInto
    ⟨BitVec.ofNat 64 (n - W128 + 1), windowShift⟩
    (toNat_numStarts_mod (by decide) hb.blocks hb.slots)
    (fun k => ribbonHash k ((b.reset ordinal).rawSeed.setWidth 64)) hscratch
  have hpleat' := h.pleatInto_eq (by decide) hshift hkeys
    (fun k => ribbonHash k ((b.reset ordinal).rawSeed.setWidth 64)) hscratch
  obtain ⟨b₁, ok, hadd, hshape, -, -⟩ := hb.addEach_reset ordinal ordered
  refine ⟨(b₁, ordered), if ok then some b₁ else none, ?_, ?_, ⟨hshape, hperm.length_eq⟩,
    fun x => shape_of_found hshape⟩
  · simp only [attemptPleated, PleatPlan.new, if_pos hshift, Option.bind_eq_bind,
      Option.bind_some, hpleat', hpleat, addEach128_eq (hb.reset ordinal) h, hadd]
  · simp only [Banding128.attemptPleated, PleatPlan.new, if_pos hshift, Option.bind_eq_bind,
      Option.bind_some, hpleat, hadd]

/-- The insertions after the threads have returned. -/
theorem exists_tail {held : Set U64} (hb : b.Holds n ordinal held) (h : Room T W128 n)
    (deferred : List U64) (spilled : List (List U64)) :
  ∃ b' r,
    (do
      let (b, tailOk) ← addEach128 T b deferred
      if tailOk then do
        let (b, tailOk) ← addSpilled128 T b spilled
        some (b, if tailOk then some b else none)
      else
        some (b, none)) = some (b', r)
      ∧ (do
        let (b, tailOk) ← b.addEach deferred
        if tailOk then do
          let (b, tailOk) ← b.addSpilled spilled
          some (b, if tailOk then some b else none)
        else
          some (b, none)) = some (b', r)
      ∧ b'.Shape n ∧ ∀ x, r = some x → x.Shape n
  := by
  obtain ⟨b₁, ok₁, hdeferred, hb₁, hheld₁, -⟩ := hb.addEach deferred
  rw [addEach128_eq hb h, hdeferred]
  simp only [Option.bind_eq_bind, Option.bind_some]
  cases ok₁ with
  | false => exact ⟨b₁, none, rfl, rfl, hb₁, fun x hx => by cases hx⟩
  | true =>
      obtain ⟨b₂, ok₂, hspilled, hb₂, -, -⟩ := (hheld₁ rfl).addSpilled spilled
      rw [if_pos rfl, if_pos rfl, addSpilled128_eq (hheld₁ rfl) h, hspilled]
      exact ⟨b₂, _, rfl, rfl, hb₂, fun x => shape_of_found hb₂⟩

/-- The slices of the threads are no longer than the matrix. -/
theorem coeff_length_le {bounds : List ℕ} (hbounds : IsBounds bounds n) {rows : List U128}
    {cslices : List (ℕ × List U128)} (hcsliced : Sliced bounds rows cslices)
    {rslices : List (ℕ × List U32)} {buckets : List (List U64)} {w : RangeWorker128}
    (hw : w ∈ RangeWorker128.spawnAll cslices rslices buckets) :
  w.coeff.length ≤ n
  := by
  obtain ⟨t, ht⟩ := List.mem_iff_getElem?.mp hw
  obtain ⟨c, r, bucket, hc, -, -, rfl⟩ := RangeWorker128.getElem?_spawnAll.mp ht
  apply le_trans (Nat.le_add_left ..) (hcsliced.le_of_mem hbounds (List.mem_of_getElem? hc))

theorem exists_attemptParallel (hb : b.Shape n) (h : Room T W128 n) {keys : List U64}
    (hkeys : keys.length * 8 ≤ T.isizeMax) {window threads : ℕ} (hwindow : 0 < window)
    (hthreads : 0 < threads) (schedules : U32 → List ℕ) (ordinal : U32) :
  ∃ b' r,
    SameUnless (T.isizeMax < keys.length * 16)
        (attemptParallel T keys n window threads (BitVec.ofNat 64 (n - W128 + 1)) schedules b
          ordinal)
        (some (b', r))
      ∧ Banding128.attemptParallel keys n window threads (BitVec.ofNat 64 (n - W128 + 1)) schedules
          b ordinal = some (b', r)
      ∧ b'.Shape n ∧ ∀ x, r = some x → x.Shape n
  := by
  have hmax : n ≤ T.usizeMax := le_trans (Nat.le_add_right ..) h.le_usizeMax
  have hpos : 0 < n := lt_of_lt_of_le (by decide) h.slots
  have hreset := hb.reset ordinal
  have hbounds := isBounds_rangeBounds n hwindow hthreads
  obtain ⟨buckets, deferred, cslices, rslices, workers, done, hbucket, hcsplit, hrsplit, hscope,
    hworkers, -, -⟩ := hreset.exists_workers hwindow hthreads keys (schedules ordinal)
  obtain ⟨cslices', hcsplit', hcsliced⟩ := hbounds.exists_sliced hreset.shape.coeffs
  obtain ⟨rslices', hrsplit', hrsliced⟩ := hbounds.exists_sliced hreset.shape.results
  obtain rfl := (Prod.mk.inj (Option.some_injective _ (hcsplit.symm.trans hcsplit'))).1
  obtain rfl := (Prod.mk.inj (Option.some_injective _ (hrsplit.symm.trans hrsplit'))).1
  change Pleat.bucketKeys _ (fun k => Pleat.start (ribbonHash k _) _) _ = _ at hbucket
  -- What each stage returns in the arithmetic that can fail.
  have hbounds_eq := rangeBounds_eq hmax hwindow threads
  have hpushed := pushKeys_sameUnless (h.le_isizeMax (by decide)) hkeys
    (Pleat.rangeBounds n window threads)
    (fun k => Pleat.start (ribbonHash k ((ordinalToRawSeed ordinal).setWidth 64))
      (BitVec.ofNat 64 (n - W128 + 1)))
  rw [bucketKeys_eq hbounds hpos hmax (fun k _ => start_lt_slots (by decide) h.slots _),
    hbucket] at hpushed
  have hcrows : 0 + (b.reset ordinal).coeffRows.length ≤ T.usizeMax := by
    rwa [hreset.shape.coeffs, Nat.zero_add]
  have hcsplit_eq := splitSlices_eq (Pleat.rangeBounds n window threads) hcrows
  rw [hcsplit] at hcsplit_eq
  have hrrows : 0 + (b.reset ordinal).resultRows.length ≤ T.usizeMax := by
    rwa [hreset.shape.results, Nat.zero_add]
  have hrsplit_eq := splitSlices_eq (Pleat.rangeBounds n window threads) hrrows
  rw [hrsplit] at hrsplit_eq
  rw [hb.reset_eq] at hcsliced hrsliced
  have hscope_eq := scope128_eq h ((ordinalToRawSeed ordinal).setWidth 64) (schedules ordinal)
    fun w hw => And.intro (coeff_length_le hbounds hcsliced hw)
      (RangeWorker128.contained_spawnAll hbounds h.slots hbucket hcsliced hrsliced w hw)
  rw [hscope] at hscope_eq
  obtain ⟨b₁, r, htail', htail, hshape, hfound⟩ :=
    exists_tail hworkers h deferred (workers.map RangeWorker128.spilled)
  rw [attemptParallel, Banding128.attemptParallel]
  simp only [hreset.rawSeed, hreset.ordinalSeed, hreset.shape.starts, hbounds_eq, hbucket,
    hcsplit_eq, hcsplit, hrsplit_eq, hrsplit, hscope, Option.bind_eq_bind,
    Option.bind_some, List.append_nil] at htail' htail ⊢
  rcases hpushed with hpushed | ⟨hmany, hpushed⟩
  · simp only [hpushed, hscope_eq, Option.bind_some]
    cases hany : workers.any RangeWorker128.failed with
    | true =>
        exact ⟨_, none, .inl (if_pos rfl), if_pos rfl, hworkers.shape, fun x hx => by cases hx⟩
    | false =>
        rw [if_neg Bool.false_ne_true, if_neg Bool.false_ne_true]
        exact ⟨b₁, r, .inl htail', htail, hshape, hfound⟩
  · simp only [hpushed, Option.bind_none]
    cases hany : workers.any RangeWorker128.failed with
    | true =>
        exact ⟨_, none, .inr ⟨hmany, rfl⟩, if_pos rfl, hworkers.shape, fun x hx => by cases hx⟩
    | false =>
        rw [if_neg Bool.false_ne_true]
        exact ⟨b₁, r, .inr ⟨hmany, rfl⟩, htail, hshape, hfound⟩

/-- A matrix that has been found is solved. -/
theorem solveFound_eq (h : Room T W128 n) (hR : checkWidth R) {r : Option (Banding128 R)}
    (hr : ∀ x, r = some x → x.Shape n) :
  solveFound T r = some (r.map Banding128.intoSolution)
  := by
  cases r with
  | none => rfl
  | some x =>
      rw [solveFound, intoSolution_eq (hr x rfl) h hR.2]
      rfl

/-- The rows of a standard matrix that can be allocated. -/
theorem room128 (halloc : Pleat.numSlotsFor128 (rawSlots128 T) keys.length R * 16 ≤ T.isizeMax) :
  Room T W128 (Pleat.numSlotsFor128 (rawSlots128 T) keys.length R)
  where
  blocks := roundUpNumSlots_mod ..
  slots := le_roundUpNumSlots ..
  bytes := by omega

theorem buildStd128_eq_plain (hT : 16 ≤ T.usizeBits) (hR : checkWidth R)
    (hkeys : keys.length * 8 ≤ T.isizeMax)
    (halloc : Pleat.numSlotsFor128 (rawSlots128 T) keys.length R * 16 ≤ T.isizeMax) :
  buildStd128 T R keys = Pleat.buildStd128 (rawSlots128 T) R keys
  := by
  have h := room128 halloc
  obtain ⟨b, hnew, hb⟩ := Banding128.exists_new R h.blocks h.slots
  obtain ⟨r, hfind', hfind, hfound⟩ := exists_firstSuccess_both (Banding128.Shape · _)
    (fun b ordinal hb => exists_attempt hb h keys ordinal) ordinals hb
  simp only [buildStd128, Pleat.buildStd128, findSeed, Banding128.findSeed,
    numSlotsFor128_eq hT hR hkeys, newBanding128_eq h halloc, hnew, hfind', hfind,
    solveFound_eq h hR hfound, Option.bind_eq_bind, Option.bind_some]

theorem buildStd128Pleated_eq_plain (hT : 16 ≤ T.usizeBits) (hR : checkWidth R)
    (hkeys : keys.length * 8 ≤ T.isizeMax)
    (halloc : Pleat.numSlotsFor128 (rawSlots128 T) keys.length R * 16 ≤ T.isizeMax)
    {windowShift : ℕ} (hshift : windowShift < T.usizeBits) :
  buildStd128Pleated T R keys windowShift
    = Pleat.buildStd128Pleated T (rawSlots128 T) R keys windowShift
  := by
  have h := room128 halloc
  have hbuffer : (List.replicate keys.length (0 : U64)).length = keys.length :=
    List.length_replicate
  obtain ⟨b, hnew, hb⟩ := Banding128.exists_new R h.blocks h.slots
  obtain ⟨r, hfind', hfind, hfound⟩ := exists_firstSuccess_both
    (fun s : Banding128 R × List U64 => s.1.Shape _ ∧ s.2.length = keys.length)
    (fun s ordinal hs => exists_attemptPleated hs.1 h hkeys hshift hs.2 ordinal) ordinals
    (s := (b, List.replicate keys.length 0)) ⟨hb, hbuffer⟩
  rw [← hb.starts] at hfind' hfind
  simp only [buildStd128Pleated, Pleat.buildStd128Pleated, findSeedPleated,
    Banding128.findSeedPleated, windowSize, if_pos hshift, numSlotsFor128_eq hT hR hkeys,
    newBanding128_eq h halloc, hnew, vec_eq (0 : U64) hkeys, hfind', hfind,
    solveFound_eq h hR hfound, Option.bind_eq_bind, Option.bind_some]

theorem buildStd128Parallel_sameUnless (hT : 16 ≤ T.usizeBits) (hR : checkWidth R)
    (hkeys : keys.length * 8 ≤ T.isizeMax)
    (halloc : Pleat.numSlotsFor128 (rawSlots128 T) keys.length R * 16 ≤ T.isizeMax)
    {windowShift : ℕ} (hshift : windowShift < T.usizeBits) (threads : ℕ)
    (schedules : U32 → List ℕ) :
  SameUnless (T.isizeMax < keys.length * 16)
    (buildStd128Parallel T R keys windowShift threads schedules)
    (Pleat.buildStd128Parallel T (rawSlots128 T) R keys windowShift threads schedules)
  := by
  have h := room128 halloc
  have hwindow := window_pos windowShift
  have hpos : 0 < Pleat.numSlotsFor128 (rawSlots128 T) keys.length R :=
    lt_of_lt_of_le (by decide) h.slots
  rw [buildStd128Parallel, Pleat.buildStd128Parallel, numSlotsFor128_eq hT hR hkeys,
    Option.bind_eq_bind, Option.bind_some, checkedDiv_eq (by decide), Option.bind_some]
  dsimp only
  split
  · left
    apply buildStd128Pleated_eq_plain hT hR hkeys halloc hshift
  · rename_i hmany
    have hwindows := divCeil_pos hpos hwindow
    have hthreads : 0 < min threads
        (divCeil (Pleat.numSlotsFor128 (rawSlots128 T) keys.length R) (1 <<< windowShift)) := by
      omega
    obtain ⟨b, hnew, hb⟩ := Banding128.exists_new R h.blocks h.slots
    obtain ⟨r, hfind', hfind, hfound⟩ := exists_firstSuccess_sameUnless (Banding128.Shape · _)
      (fun b ordinal hb => exists_attemptParallel hb h hkeys hwindow hthreads schedules ordinal)
      ordinals hb
    rw [← hb.starts] at hfind' hfind
    simp only [newBanding128_eq h halloc, hnew, windowSize, if_pos hshift, hfind,
      Option.bind_eq_bind, Option.bind_some]
    rw [← solveFound_eq h hR hfound]
    apply hfind'.bind
    intro _ _
    apply SameUnless.refl

/-- Without room for the coefficient rows no build returns. -/
theorem buildStd128_eq_none (hT : 16 ≤ T.usizeBits) (hR : checkWidth R)
    (hkeys : keys.length * 8 ≤ T.isizeMax)
    (h : T.isizeMax < Pleat.numSlotsFor128 (rawSlots128 T) keys.length R * 16)
    (windowShift threads : ℕ) (schedules : U32 → List ℕ) :
  buildStd128 T R keys = none ∧ buildStd128Pleated T R keys windowShift = none
    ∧ buildStd128Parallel T R keys windowShift threads schedules = none
  := by
  have hpleated : buildStd128Pleated T R keys windowShift = none := by
    rw [buildStd128Pleated, numSlotsFor128_eq hT hR hkeys]
    simp [findSeedPleated, newBanding128_eq_none h]
  refine ⟨?_, hpleated, ?_⟩
  · rw [buildStd128, numSlotsFor128_eq hT hR hkeys]
    simp [findSeed, newBanding128_eq_none h]
  · rw [buildStd128Parallel, numSlotsFor128_eq hT hR hkeys]
    simp [hpleated, newBanding128_eq_none h]

/-- A window too large for the target is refused. -/
theorem buildStd128_eq_none_of_large {windowShift : ℕ} (hlarge : ¬ windowShift < T.usizeBits)
    (keys : List U64) (threads : ℕ) (schedules : U32 → List ℕ) :
  buildStd128Pleated T R keys windowShift = none
    ∧ buildStd128Parallel T R keys windowShift threads schedules = none
  := by
  have hpleated : buildStd128Pleated T R keys windowShift = none := by
    rw [buildStd128Pleated, windowSize, if_neg hlarge]
    rfl
  use hpleated
  rw [buildStd128Parallel, hpleated]
  simp [windowSize, hlarge]

end Standard

/-! ### All builders -/

/-- The homogeneous builders return the filter of the arrival build of the numbers, the
parallel one unless its buckets cannot grow. -/
theorem exists_ribbonFromKeys {T : Target} (hT : 16 ≤ T.usizeBits) {R : ℕ}
    (hR : checkWidth R) {keys : List U64} (hkeys : keys.length * 8 ≤ T.isizeMax)
    (halloc : Pleat.numSlotsFor (rawSlots T) keys.length R * 8 ≤ T.isizeMax) (seed : U64) :
  ∃ f, Ribbon.fromKeysSeeded (rawSlots T) R keys seed = some f
    ∧ ribbonFromKeysSeeded T R keys seed = some f
    ∧ ∀ windowShift < T.usizeBits,
      ribbonFromKeysPleatedSeeded T R keys seed windowShift = some f
      ∧ ∀ threads schedule, SameUnless (T.isizeMax < keys.length * 16)
          (ribbonFromKeysParallelSeeded T R keys seed windowShift threads schedule) (some f)
  := by
  have h : Room T W (Pleat.numSlotsFor (rawSlots T) keys.length R) :=
    ⟨roundUpNumSlots_mod .., le_roundUpNumSlots .., halloc⟩
  obtain ⟨b, harrival, hb⟩ := Ribbon.fromKeysSeeded_eq_some (rawSlots T) R keys seed
  refine ⟨_, harrival, (ribbonFromKeysSeeded_eq_plain hT hR hkeys h seed).trans harrival, ?_⟩
  intro windowShift hshift
  constructor
  · obtain ⟨b', hpleated, hb'⟩ :=
      Ribbon.fromKeysPleatedSeeded_eq_some (rawSlots T) R keys seed hshift
    rw [ribbonFromKeysPleatedSeeded_eq_plain hT hR hkeys h seed hshift, hpleated,
      hb'.solve_unique hb]
  · intro threads schedule
    obtain ⟨b', hparallel, hb'⟩ := Parallel.exists_fromKeysParallelSeeded T (rawSlots T) R keys seed
      hshift threads schedule
    have hsame := ribbonFromKeysParallelSeeded_sameUnless hT hR hkeys h seed hshift threads schedule
    rw [Ribbon.fromKeysParallelSeeded, windowSize, if_pos hshift, hparallel] at hsame
    rw [hb'.solve_unique hb]
    apply hsame

/-- The standard builders return what the arrival build of the numbers returns, the parallel
one unless its buckets cannot grow. -/
theorem exists_stdRibbonFromKeys {T : Target} (hT : 16 ≤ T.usizeBits) {R : ℕ}
    (hR : checkWidth R) {keys : List U64} (hkeys : keys.length * 8 ≤ T.isizeMax)
    (halloc : Pleat.numSlotsFor128 (rawSlots128 T) keys.length R * 16 ≤ T.isizeMax) :
  ∃ result, StdRibbon.fromKeys (rawSlots128 T) R keys = some result
    ∧ stdRibbonFromKeys T R keys = some result
    ∧ (defaultWindowShift < T.usizeBits →
      stdRibbonFromKeysPleated T R keys = some result
      ∧ ∀ threads schedules, SameUnless (T.isizeMax < keys.length * 16)
          (stdRibbonFromKeysParallel T R keys threads schedules) (some result))
  := by
  refine ⟨_, StdRibbon.fromKeys_eq .., ?_, ?_⟩
  · rw [stdRibbonFromKeys, buildStd128_eq_plain hT hR hkeys halloc, Pleat.buildStd128_eq]
    rfl
  · intro hshift
    constructor
    · rw [stdRibbonFromKeysPleated, buildStd128Pleated_eq_plain hT hR hkeys halloc hshift,
        buildStd128Pleated_eq_firstOutcome T (rawSlots128 T) R keys hshift]
      rfl
    · intro threads schedules
      have hsame := buildStd128Parallel_sameUnless hT hR hkeys halloc hshift threads schedules
      rw [buildStd128Parallel_eq_firstOutcome (rawSlots128 T) R keys hshift] at hsame
      apply hsame.map

/-- The homogeneous builders return the filter of the arrival build of the numbers, or panic. -/
theorem ribbonFromKeys_eq_ite {T : Target} (hT : 16 ≤ T.usizeBits) {R : ℕ} (hR : checkWidth R)
    {keys : List U64} (hkeys : keys.length * 8 ≤ T.isizeMax) (seed : U64) :
  ∃ f, Ribbon.fromKeysSeeded (rawSlots T) R keys seed = some f
    ∧ ribbonFromKeysSeeded T R keys seed
        = (if Pleat.numSlotsFor (rawSlots T) keys.length R * 8 ≤ T.isizeMax then some f else none)
    ∧ ∀ windowShift,
      ribbonFromKeysPleatedSeeded T R keys seed windowShift
          = (if Pleat.numSlotsFor (rawSlots T) keys.length R * 8 ≤ T.isizeMax
              ∧ windowShift < T.usizeBits then some f else none)
      ∧ ∀ threads schedule, SameUnless (T.isizeMax < keys.length * 16)
          (ribbonFromKeysParallelSeeded T R keys seed windowShift threads schedule)
          (if Pleat.numSlotsFor (rawSlots T) keys.length R * 8 ≤ T.isizeMax
            ∧ windowShift < T.usizeBits then some f else none)
  := by
  by_cases halloc : Pleat.numSlotsFor (rawSlots T) keys.length R * 8 ≤ T.isizeMax
  · obtain ⟨f, harrival, hchecked, hothers⟩ := exists_ribbonFromKeys hT hR hkeys halloc seed
    refine ⟨f, harrival, by rw [hchecked, if_pos halloc], ?_⟩
    intro windowShift
    by_cases hshift : windowShift < T.usizeBits
    · rw [if_pos ⟨halloc, hshift⟩]
      apply hothers windowShift hshift
    · have hnone := ribbonFromKeys_eq_none_of_large (R := R) hshift keys seed
      rw [if_neg (fun hboth => hshift hboth.2)]
      exact ⟨(hnone 0 []).1, fun threads schedule => .inl (hnone threads schedule).2⟩
  · obtain ⟨b, harrival, -⟩ := Ribbon.fromKeysSeeded_eq_some (rawSlots T) R keys seed
    have hnone := ribbonFromKeys_eq_none hT hR hkeys (Nat.lt_of_not_le halloc) seed
    refine ⟨_, harrival, by rw [(hnone 0 0 []).1, if_neg halloc], ?_⟩
    intro windowShift
    rw [if_neg (fun hboth => halloc hboth.1)]
    exact ⟨(hnone windowShift 0 []).2.1,
      fun threads schedule => .inl (hnone windowShift threads schedule).2.2⟩

/-- The standard builders return what the arrival build of the numbers returns, or panic. -/
theorem stdRibbonFromKeys_eq_ite {T : Target} (hT : 16 ≤ T.usizeBits) {R : ℕ} (hR : checkWidth R)
    {keys : List U64} (hkeys : keys.length * 8 ≤ T.isizeMax) :
  ∃ result, StdRibbon.fromKeys (rawSlots128 T) R keys = some result
    ∧ stdRibbonFromKeys T R keys
        = (if Pleat.numSlotsFor128 (rawSlots128 T) keys.length R * 16 ≤ T.isizeMax
            then some result else none)
    ∧ stdRibbonFromKeysPleated T R keys
        = (if Pleat.numSlotsFor128 (rawSlots128 T) keys.length R * 16 ≤ T.isizeMax
            ∧ defaultWindowShift < T.usizeBits then some result else none)
    ∧ ∀ threads schedules, SameUnless (T.isizeMax < keys.length * 16)
        (stdRibbonFromKeysParallel T R keys threads schedules)
        (if Pleat.numSlotsFor128 (rawSlots128 T) keys.length R * 16 ≤ T.isizeMax
          ∧ defaultWindowShift < T.usizeBits then some result else none)
  := by
  by_cases halloc : Pleat.numSlotsFor128 (rawSlots128 T) keys.length R * 16 ≤ T.isizeMax
  · obtain ⟨result, harrival, hchecked, hothers⟩ := exists_stdRibbonFromKeys hT hR hkeys halloc
    refine ⟨result, harrival, by rw [hchecked, if_pos halloc], ?_⟩
    by_cases hshift : defaultWindowShift < T.usizeBits
    · rw [if_pos ⟨halloc, hshift⟩]
      apply hothers hshift
    · have hnone := buildStd128_eq_none_of_large (R := R) hshift keys
      rw [if_neg (fun hboth => hshift hboth.2)]
      constructor
      · rw [stdRibbonFromKeysPleated, (hnone 0 (fun _ => [])).1]
        rfl
      · intro threads schedules
        rw [stdRibbonFromKeysParallel, (hnone threads schedules).2]
        apply SameUnless.refl
  · have hnone := buildStd128_eq_none hT hR hkeys (Nat.lt_of_not_le halloc) defaultWindowShift
    refine ⟨_, StdRibbon.fromKeys_eq .., ?_, ?_, ?_⟩
    · rw [if_neg halloc, stdRibbonFromKeys, (hnone 0 (fun _ => [])).1]
      rfl
    · rw [if_neg (fun hboth => halloc hboth.1), stdRibbonFromKeysPleated,
        (hnone 0 (fun _ => [])).2.1]
      rfl
    · intro threads schedules
      rw [if_neg (fun hboth => halloc hboth.1), stdRibbonFromKeysParallel,
        (hnone threads schedules).2.2]
      apply SameUnless.refl

end Checked

open Capacity Format

/-- The builders for a list of keys in memory.  Each returns the filter that the arrival build
returns in the arithmetic of the numbers, unless the coefficient rows of its matrix cannot be
allocated or its window is not smaller than the width of a pointer; then it panics.  The
parallel builds may panic as well where the keys take up more than half of what can be
allocated, in a bucket that cannot be doubled; they return no other filter there either.

It is assumed that every thread is created, and that memory is found for whatever is no larger
than `isize::MAX` and for the vectors with an entry for each thread. -/
theorem building_safe {T : Target} (hT : 16 ≤ T.usizeBits) {R : ℕ} (hR : checkWidth R)
    {keys : List U64} (hkeys : keys.length * 8 ≤ T.isizeMax) :
  (∀ seed, ∃ f, Ribbon.fromKeysSeeded (rawSlots T) R keys seed = some f
    ∧ Checked.ribbonFromKeysSeeded T R keys seed
        = (if numSlotsFor (rawSlots T) keys.length R * 8 ≤ T.isizeMax then some f else none)
    ∧ ∀ windowShift,
      Checked.ribbonFromKeysPleatedSeeded T R keys seed windowShift
          = (if numSlotsFor (rawSlots T) keys.length R * 8 ≤ T.isizeMax
              ∧ windowShift < T.usizeBits then some f else none)
      ∧ ∀ threads schedule, SameUnless (T.isizeMax < keys.length * 16)
          (Checked.ribbonFromKeysParallelSeeded T R keys seed windowShift threads schedule)
          (if numSlotsFor (rawSlots T) keys.length R * 8 ≤ T.isizeMax
            ∧ windowShift < T.usizeBits then some f else none))
  ∧ ∃ result, StdRibbon.fromKeys (rawSlots128 T) R keys = some result
    ∧ Checked.stdRibbonFromKeys T R keys
        = (if numSlotsFor128 (rawSlots128 T) keys.length R * 16 ≤ T.isizeMax
            then some result else none)
    ∧ Checked.stdRibbonFromKeysPleated T R keys
        = (if numSlotsFor128 (rawSlots128 T) keys.length R * 16 ≤ T.isizeMax
            ∧ defaultWindowShift < T.usizeBits then some result else none)
    ∧ ∀ threads schedules, SameUnless (T.isizeMax < keys.length * 16)
        (Checked.stdRibbonFromKeysParallel T R keys threads schedules)
        (if numSlotsFor128 (rawSlots128 T) keys.length R * 16 ≤ T.isizeMax
          ∧ defaultWindowShift < T.usizeBits then some result else none)
  := ⟨Checked.ribbonFromKeys_eq_ite hT hR hkeys, Checked.stdRibbonFromKeys_eq_ite hT hR hkeys⟩

/-- Two keys on a target of 32 bits, in parallel. -/
theorem building_safe_two :
  let T : Target := ⟨32, by decide⟩
  ∃ f, Ribbon.fromKeysSeeded (rawSlots T) 7 [5, 3] 0 = some f
    ∧ Checked.ribbonFromKeysParallelSeeded T 7 [5, 3] 0 6 2 [0, 1, 0] = some f
  := by
  intro T
  have hkeys : ([5, 3] : List U64).length * 8 ≤ T.isizeMax := by decide
  have hroom : ¬ T.isizeMax < ([5, 3] : List U64).length * 16 := by decide
  obtain ⟨f, harrival, -, hothers⟩ :=
    (@building_safe T (by decide) 7 ⟨by decide, by decide⟩ [5, 3] hkeys).1 0
  have hslots : numSlotsFor (rawSlots T) 2 7 ≤ rawSlots T 2 7 + 2 * 64 :=
    roundUpNumSlots_le (by decide) _
  have hraw : rawSlots T 2 7 ≤ 2 * 2 := by
    rw [rawSlots_eq (by decide) (by decide : 2 * 8 ≤ T.isizeMax)]
    apply roundedProduct_le_two_mul (by decide) (by decide)
  have halloc : numSlotsFor (rawSlots T) 2 7 * 8 ≤ T.isizeMax := by
    change numSlotsFor (rawSlots T) 2 7 * 8 ≤ 2 ^ 31 - 1
    omega
  refine ⟨f, harrival, ?_⟩
  rw [((hothers 6).2 2 [0, 1, 0]).eq hroom]
  apply if_pos ⟨halloc, by decide⟩

end Pleat
