import Pleat.Checked.Ranges
import Pleat.Homogeneous.Parallel
import Pleat.Standard.Parallel

/-!
# The split of the parallel builds

Both parallel builds divide an empty matrix into ranges, each key into the bucket of its range
or the deferred keys, and let a worker band each bucket.  Nothing in this fails, and each key
ends in one place: it is deferred, or it is in the bucket of the range it starts in, where the
worker of the range bands it or lists it as spilled.  The last worker never spills, since no
row reaches past the end of the matrix.
-/

namespace Pleat

open Bits Linear Interleaving

/-- The last of the boundaries is the number of slots. -/
theorem IsBounds.eq_of_last {bounds : List ℕ} {n t hi : ℕ} (h : IsBounds bounds n)
    (hhi : bounds[t + 1]? = some hi) (hlast : t + 2 = bounds.length) :
  hi = n
  := by
  have hn := h.last
  rw [List.getLast?_eq_getElem?, show bounds.length - 1 = t + 1 by omega, hhi] at hn
  apply Option.some_injective _ hn

/-- The boundaries of a slice of the rows of a matrix. -/
theorem Sliced.le_of_mem {α : Type*} {bounds : List ℕ} {n : ℕ} (h : IsBounds bounds n)
    {rows : List α} {slices : List (ℕ × List α)} (hs : Sliced bounds rows slices)
    {s : ℕ × List α} (hmem : s ∈ slices) :
  s.1 + s.2.length ≤ n
  := by
  obtain ⟨t, ht⟩ := List.mem_iff_getElem?.mp hmem
  apply h.le_of_mem
  apply List.mem_of_getElem? (hs.boundaries t s ht).2

/-- Empty rows before, in and after a range are the rows of an empty matrix. -/
theorem replicate_around {α : Type*} (x : α) {lo m n : ℕ} (h : lo + m ≤ n) :
  List.replicate lo x ++ List.replicate m x ++ List.replicate (n - (lo + m)) x
    = List.replicate n x
  := by
  rw [List.replicate_append_replicate, List.replicate_append_replicate, Nat.add_sub_cancel' h]

/-! ### The split of the keys -/

/-- The keys are put into the buckets of the ranges of `threads` threads, or deferred, without a
failure: the boundaries increase from zero to the number of slots, each key is in one bucket
or deferred as often as it is given, and the keys of a bucket start in its range. -/
structure SplitKeys (T : Target) (n window threads : ℕ) (startOf : U64 → U64) (keys : List U64)
    (bounds : List ℕ) (buckets : List (List U64)) (deferred : List U64) : Prop where
  bounds_eq : Checked.rangeBounds T n window threads = bounds
  isBounds : IsBounds bounds n
  buckets_eq : Checked.bucketKeys T bounds startOf keys = some (buckets, deferred)
  bucketed : Bucketed bounds startOf keys buckets deferred

theorem exists_splitKeys {T : Target} {n window threads : ℕ} (hmax : n ≤ T.usizeMax) (hn : 0 < n)
    (hwindow : 0 < window) (hthreads : 0 < threads) {startOf : U64 → U64} {keys : List U64}
    (hkeys : ∀ k ∈ keys, (startOf k).toNat < n) :
  ∃ bounds buckets deferred, SplitKeys T n window threads startOf keys bounds buckets deferred
  := by
  have hbounds := isBounds_rangeBounds n hwindow hthreads
  obtain ⟨buckets, deferred, hbuckets, hbucketed⟩ := bucketKeys_eq_some hbounds hn hkeys
  refine ⟨_, buckets, deferred, Checked.rangeBounds_eq hmax hwindow threads, hbounds, ?_,
    hbucketed⟩
  rw [Checked.bucketKeys_eq hbounds hn hmax hkeys, hbuckets]

/-- The buckets and the deferred keys are determined. -/
theorem SplitKeys.eq_of_bucketKeys {T : Target} {n window threads : ℕ} {startOf : U64 → U64}
    {keys deferred deferred' : List U64} {bounds : List ℕ} {buckets buckets' : List (List U64)}
    (h : SplitKeys T n window threads startOf keys bounds buckets deferred)
    (heq : Checked.bucketKeys T (Checked.rangeBounds T n window threads) startOf keys
      = some (buckets', deferred')) :
  buckets = buckets' ∧ deferred = deferred'
  := by
  rw [h.bounds_eq, h.buckets_eq, Option.some.injEq] at heq
  exact Prod.mk.inj heq

/-- The last range ends with the matrix. -/
theorem SplitKeys.eq_of_last {T : Target} {n window threads : ℕ} {startOf : U64 → U64}
    {keys deferred : List U64} {bounds : List ℕ} {buckets : List (List U64)}
    (h : SplitKeys T n window threads startOf keys bounds buckets deferred) {t hi : ℕ}
    (hhi : bounds[t + 1]? = some hi) (hlast : t + 1 = buckets.length) :
  hi = n
  := by
  apply h.isBounds.eq_of_last hhi
  rw [← h.bucketed.length, ← hlast]

/-! ### Workers of the homogeneous build -/

namespace RangeWorker

variable {R n : ℕ} {seed : U64}

/-- The worker of the slots from `lo` to `hi` of an empty matrix has returned: each key of its
bucket is spilled or it is banded, so that the rows in the range span the equations of the
keys banded and of no others. -/
structure Returned (R n : ℕ) (seed : U64) (lo hi : ℕ) (bucket : List U64) (w : RangeWorker) :
    Prop where
  length : lo + w.slice.length = hi
  banded : ∃ done : List U64, (done ++ w.spilled).Perm bucket
    ∧ (matrix R (BitVec.ofNat 64 (n - W + 1)) seed
        (List.replicate lo 0 ++ w.slice ++ List.replicate (n - hi) 0)).Holds n seed {k | k ∈ done}
  last : hi = n → w.spilled = []

/-- A worker bands its bucket into the range of an empty matrix. -/
theorem exists_join_returned
    (hempty : (matrix R (BitVec.ofNat 64 (n - W + 1)) seed (List.replicate n 0)).Holds n seed ∅)
    {lo m : ℕ} (hm : lo + m ≤ n) {bucket : List U64}
    (hbucket : ∀ k ∈ bucket,
      lo ≤ (start (ribbonHash k seed) (BitVec.ofNat 64 (n - W + 1))).toNat) :
  ∃ w, join (step (BitVec.ofNat 64 (n - W + 1)) seed) halted fuel
      (some (spawn (List.replicate m 0) lo bucket)) = some w
    ∧ Returned R n seed lo (lo + m) bucket w
  := by
  rw [← replicate_around 0 hm] at hempty
  have hspawn := Invariant.spawn (List.length_replicate).symm hempty hbucket
  obtain ⟨w, hjoin, ⟨⟨done, hw⟩, hlast⟩, hhalt⟩ :=
    (terminates R n _ seed _ _ ∅ bucket).exists_join measure_le_fuel ⟨⟨[], hspawn⟩, fun _ => rfl⟩
  have hlen : lo + w.slice.length = lo + m := by
    have h := hw.holds.slots
    rw [Banding.numSlots, List.length_append, List.length_append, List.length_replicate,
      List.length_replicate] at h
    omega
  refine ⟨w, hjoin, hlen, ⟨done, hw.perm_of_halted hhalt, ?_⟩, ?_⟩
  · rw [← Set.empty_union {k | k ∈ done}]
    apply hw.holds
  · intro hend
    apply hlast
    rw [hend, Nat.sub_self]
    rfl

theorem getElem?_spawnAll {slices : List (ℕ × List U64)} {buckets : List (List U64)} {t : ℕ}
    {p : RangeWorker} :
  (spawnAll slices buckets)[t]? = some p
    ↔ ∃ s bucket, slices[t]? = some s ∧ buckets[t]? = some bucket ∧ spawn s.2 s.1 bucket = p
  := List.getElem?_zipWith_eq_some

/-- Joined alone, each worker of an empty matrix returns. -/
theorem exists_join_spawned
    (hempty : (matrix R (BitVec.ofNat 64 (n - W + 1)) seed (List.replicate n 0)).Holds n seed ∅)
    {bounds : List ℕ} (hbounds : IsBounds bounds n) {keys deferred : List U64}
    {buckets : List (List U64)}
    (hbucketed : Bucketed bounds (fun k => start (ribbonHash k seed) (BitVec.ofNat 64 (n - W + 1)))
      keys buckets deferred)
    {slices : List (ℕ × List U64)} (hsliced : Sliced bounds (List.replicate n 0) slices) :
  ∀ p ∈ spawnAll slices buckets,
    ∃ w, join (step (BitVec.ofNat 64 (n - W + 1)) seed) halted fuel (some p) = some w
      ∧ Returned R n seed p.base (p.base + p.slice.length) p.pending w
  := by
  intro p hp
  obtain ⟨t, ht⟩ := List.mem_iff_getElem?.mp hp
  obtain ⟨s, bucket, hs, hbucket, rfl⟩ := getElem?_spawnAll.mp ht
  have hmem := List.mem_of_getElem? hs
  obtain ⟨hlo, hhi⟩ := hsliced.boundaries t s hs
  have hstart := hbucketed.start t _ _ bucket hlo hhi hbucket
  have hreturned := exists_join_returned hempty (hsliced.le_of_mem hbounds hmem)
    (fun k hk => (hstart k hk).1)
  rw [← hsliced.eq_replicate hmem] at hreturned
  apply hreturned

/-- The workers of the ranges of an empty matrix all return. -/
theorem exists_scope_returned
    (hempty : (matrix R (BitVec.ofNat 64 (n - W + 1)) seed (List.replicate n 0)).Holds n seed ∅)
    {bounds : List ℕ} (hbounds : IsBounds bounds n) {keys deferred : List U64}
    {buckets : List (List U64)}
    (hbucketed : Bucketed bounds (fun k => start (ribbonHash k seed) (BitVec.ofNat 64 (n - W + 1)))
      keys buckets deferred)
    {slices : List (ℕ × List U64)} (hsliced : Sliced bounds (List.replicate n 0) slices)
    (schedule : List ℕ) :
  ∃ workers,
    scope (BitVec.ofNat 64 (n - W + 1)) seed schedule (spawnAll slices buckets) = some workers
      ∧ workers.length = buckets.length
      ∧ ∀ (t : ℕ) lo hi bucket w, bounds[t]? = some lo → bounds[t + 1]? = some hi →
          buckets[t]? = some bucket → workers[t]? = some w → Returned R n seed lo hi bucket w
  := by
  have hslices := hsliced.length
  have hbuckets := hbucketed.length
  have hforall := (hbucketed.forall₂ hsliced).imp fun _ _ hb k hk => (hb k hk).1
  have hholds := hempty
  rw [← hsliced.flatten] at hholds
  have hsound := sound_spawnAll hforall [] hsliced.contiguous hholds
  obtain ⟨workers, hscope, hlen, hall⟩ :=
    (terminates_sound R n _ seed ∅).exists_scope measure_le_fuel schedule hsound
      (exists_join_spawned hempty hbounds hbucketed hsliced)
  refine ⟨workers, hscope, ?_, ?_⟩
  · rw [hlen, spawnAll, List.length_zipWith]
    omega
  · intro t lo hi bucket w hlo hhi hbucket hw
    have ht : t < slices.length := by
      have := (List.getElem?_eq_some_iff.mp hhi).1
      omega
    have hs : slices[t]? = some slices[t] := List.getElem?_eq_getElem ht
    obtain ⟨hlo', hhi'⟩ := hsliced.boundaries t _ hs
    rw [hlo, Option.some.injEq] at hlo'
    rw [hhi, Option.some.injEq] at hhi'
    rw [hlo', hhi']
    apply hall t _ w (getElem?_spawnAll.mpr ⟨_, _, hs, hbucket, rfl⟩) hw

end RangeWorker

/-! ### Workers of the standard build -/

namespace RangeWorker128

open Banding128

variable {R n : ℕ} {ordinal : U32}

/-- The worker of the slots from `lo` to `hi` of an empty matrix has returned: if no key was
inconsistent, each key of its bucket is spilled or it is banded, so that the rows in the range
span the equations of the keys banded and of no others. -/
structure Returned (R n : ℕ) (ordinal : U32) (lo hi : ℕ) (bucket : List U64)
    (w : RangeWorker128) : Prop where
  length : lo + w.coeff.length = hi ∧ lo + w.result.length = hi
  banded : w.failed = false → ∃ done : List U64, (done ++ w.spilled).Perm bucket
    ∧ (matrix R n ordinal (List.replicate lo 0 ++ w.coeff ++ List.replicate (n - hi) 0)
        (List.replicate lo 0 ++ w.result ++ List.replicate (n - hi) 0)).Holds n ordinal
        {k | k ∈ done}
  last : hi = n → w.spilled = []

/-- A worker bands its bucket into the range of an empty matrix. -/
theorem exists_join_returned
    (hempty : (matrix R n ordinal (List.replicate n 0) (List.replicate n 0)).Holds n ordinal ∅)
    {lo m : ℕ} (hm : lo + m ≤ n) {bucket : List U64}
    (hbucket : ∀ k ∈ bucket, lo ≤ (startSlot n ordinal k).toNat) :
  ∃ w, join (step (BitVec.ofNat 64 (n - W128 + 1)) ((ordinalToRawSeed ordinal).setWidth 64))
      halted fuel (some (spawn (List.replicate m 0) (List.replicate m 0) lo bucket)) = some w
    ∧ Returned R n ordinal lo (lo + m) bucket w
  := by
  rw [← replicate_around (0 : U128) hm, ← replicate_around (0 : U32) hm] at hempty
  have hspawn := Invariant.spawn (List.length_replicate).symm
    (List.length_replicate.trans List.length_replicate.symm)
    (List.length_replicate.trans List.length_replicate.symm) hempty hbucket
  obtain ⟨w, hjoin, ⟨⟨done, hw⟩, hlast⟩, hhalt⟩ :=
    (terminates R n ordinal _ _ _ _ ∅ bucket).exists_join measure_le_fuel
      ⟨⟨[], hspawn⟩, fun _ => rfl⟩
  have hlen : lo + w.coeff.length = lo + m := by
    have h := hw.holds.shape.coeffs
    rw [List.length_append, List.length_append, List.length_replicate,
      List.length_replicate] at h
    omega
  refine ⟨w, hjoin, ⟨hlen, by rw [hw.within, hlen]⟩, ?_, ?_⟩
  · intro hfailed
    use done, hw.perm_of_halted hhalt hfailed
    rw [← Set.empty_union {k | k ∈ done}]
    apply hw.holds
  · intro hend
    apply hlast
    rw [hend, Nat.sub_self]
    rfl

theorem getElem?_spawnAll {cslices : List (ℕ × List U128)} {rslices : List (ℕ × List U32)}
    {buckets : List (List U64)} {t : ℕ} {p : RangeWorker128} :
  (spawnAll cslices rslices buckets)[t]? = some p
    ↔ ∃ c r bucket, cslices[t]? = some c ∧ rslices[t]? = some r ∧ buckets[t]? = some bucket
        ∧ spawn c.2 r.2 c.1 bucket = p
  := by
  induction cslices generalizing rslices buckets t with
  | nil => simp [spawnAll]
  | cons c cslices ih =>
      cases rslices with
      | nil => simp [spawnAll]
      | cons r rslices =>
          cases buckets with
          | nil => simp [spawnAll]
          | cons bucket buckets =>
              cases t with
              | zero => simp [spawnAll]
              | succ t => apply ih

theorem length_spawnAll {cslices : List (ℕ × List U128)} {rslices : List (ℕ × List U32)}
    {buckets : List (List U64)} (hr : rslices.length = cslices.length)
    (hb : buckets.length = cslices.length) :
  (spawnAll cslices rslices buckets).length = buckets.length
  := by
  induction cslices generalizing rslices buckets with
  | nil =>
      rw [List.length_eq_zero_iff.mp hr, List.length_eq_zero_iff.mp hb]
      rfl
  | cons c cslices ih =>
      obtain ⟨r, rslices, rfl⟩ := List.exists_cons_of_length_eq_add_one hr
      obtain ⟨bucket, buckets, rfl⟩ := List.exists_cons_of_length_eq_add_one hb
      apply congrArg Nat.succ (ih (Nat.succ_injective hr) (Nat.succ_injective hb))

/-- Joined alone, each worker of an empty matrix returns. -/
theorem exists_join_spawned
    (hempty : (matrix R n ordinal (List.replicate n 0) (List.replicate n 0)).Holds n ordinal ∅)
    {bounds : List ℕ} (hbounds : IsBounds bounds n) {keys deferred : List U64}
    {buckets : List (List U64)}
    (hbucketed : Bucketed bounds (startSlot n ordinal) keys buckets deferred)
    {cslices : List (ℕ × List U128)} {rslices : List (ℕ × List U32)}
    (hcsliced : Sliced bounds (List.replicate n 0) cslices)
    (hrsliced : Sliced bounds (List.replicate n 0) rslices) :
  ∀ p ∈ spawnAll cslices rslices buckets,
    ∃ w, join (step (BitVec.ofNat 64 (n - W128 + 1)) ((ordinalToRawSeed ordinal).setWidth 64))
        halted fuel (some p) = some w
      ∧ Returned R n ordinal p.base (p.base + p.coeff.length) p.pending w
  := by
  intro p hp
  obtain ⟨t, ht⟩ := List.mem_iff_getElem?.mp hp
  obtain ⟨c, r, bucket, hc, hr, hbucket, rfl⟩ := getElem?_spawnAll.mp ht
  have hcmem := List.mem_of_getElem? hc
  obtain ⟨hlo, hhi⟩ := hcsliced.boundaries t c hc
  obtain ⟨hlo', hhi'⟩ := hrsliced.boundaries t r hr
  have hlen : r.2.length = c.2.length := by
    rw [hlo, Option.some.injEq] at hlo'
    rw [hhi, Option.some.injEq] at hhi'
    omega
  have hstart := hbucketed.start t _ _ bucket hlo hhi hbucket
  have hreturned := exists_join_returned hempty (hcsliced.le_of_mem hbounds hcmem)
    (fun k hk => (hstart k hk).1)
  have hrzero := hrsliced.eq_replicate (List.mem_of_getElem? hr)
  rw [hlen] at hrzero
  rw [← hcsliced.eq_replicate hcmem, ← hrzero] at hreturned
  apply hreturned

/-- The workers of the ranges of an empty matrix all return. -/
theorem exists_scope_returned
    (hempty : (matrix R n ordinal (List.replicate n 0) (List.replicate n 0)).Holds n ordinal ∅)
    {bounds : List ℕ} (hbounds : IsBounds bounds n) {keys deferred : List U64}
    {buckets : List (List U64)}
    (hbucketed : Bucketed bounds (startSlot n ordinal) keys buckets deferred)
    {cslices : List (ℕ × List U128)} {rslices : List (ℕ × List U32)}
    (hcsliced : Sliced bounds (List.replicate n 0) cslices)
    (hrsliced : Sliced bounds (List.replicate n 0) rslices) (schedule : List ℕ) :
  ∃ workers,
    scope (BitVec.ofNat 64 (n - W128 + 1)) ((ordinalToRawSeed ordinal).setWidth 64) schedule
        (spawnAll cslices rslices buckets) = some workers
      ∧ workers.length = buckets.length
      ∧ ∀ (t : ℕ) lo hi bucket w, bounds[t]? = some lo → bounds[t + 1]? = some hi →
          buckets[t]? = some bucket → workers[t]? = some w → Returned R n ordinal lo hi bucket w
  := by
  have hcslices := hcsliced.length
  have hrslices := hrsliced.length
  have hbuckets := hbucketed.length
  have hforall := (hbucketed.forall₂ hcsliced).imp fun _ _ hb k hk => (hb k hk).1
  have hholds := hempty
  rw [← hcsliced.flatten, ← hrsliced.flatten] at hholds
  have hsound := sound_spawnAll [] [] hforall (hcsliced.forall₂_length hrsliced)
    hcsliced.contiguous rfl hholds
  obtain ⟨workers, hscope, hlen, hall⟩ :=
    (terminates_sound R n ordinal ∅).exists_scope measure_le_fuel schedule hsound
      (exists_join_spawned hempty hbounds hbucketed hcsliced hrsliced)
  refine ⟨workers, hscope, ?_, ?_⟩
  · rw [hlen]
    apply length_spawnAll
    · omega
    · omega
  · intro t lo hi bucket w hlo hhi hbucket hw
    have ht := (List.getElem?_eq_some_iff.mp hhi).1
    have hc : cslices[t]? = some cslices[t] := List.getElem?_eq_getElem (by omega)
    have hr : rslices[t]? = some rslices[t] := List.getElem?_eq_getElem (by omega)
    obtain ⟨hlo', hhi'⟩ := hcsliced.boundaries t _ hc
    rw [hlo, Option.some.injEq] at hlo'
    rw [hhi, Option.some.injEq] at hhi'
    rw [hlo', hhi']
    apply hall t _ w (getElem?_spawnAll.mpr ⟨_, _, _, hc, hr, hbucket, rfl⟩) hw

end RangeWorker128

/-! ### Both builds -/

theorem RangeWorker.matrix_empty_holds (R : ℕ) {n : ℕ} (seed : U64) (hblocks : n % W = 0)
    (hslots : W ≤ n) :
  (matrix R (BitVec.ofNat 64 (n - W + 1)) seed (List.replicate n 0)).Holds n seed ∅
  := by
  obtain ⟨band, hnew, hband⟩ := Banding.exists_new R seed hblocks hslots
  rw [Banding.new_eq_some hblocks hslots, Option.some.injEq] at hnew
  rw [← hnew] at hband
  apply hband

theorem Banding128.Shape.reset_eq {R n : ℕ} {b : Banding128 R} (h : b.Shape n) (ordinal : U32) :
  b.reset ordinal
    = RangeWorker128.matrix R n ordinal (List.replicate n 0) (List.replicate n 0)
  := by
  rw [Banding128.reset, List.map_const', List.map_const', h.coeffs, h.results, h.starts]

/-- Whatever the number of slots, the size of a window, the number of threads that takes the
parallel path, the seed, the keys and the order of the steps, the split does not fail and no
worker panics.  The keys of each bucket start in its range and are banded by its worker or
spilled, if no key was inconsistent, and the last worker spills none. -/
theorem parallel_split (T : Target) (R : ℕ) {n windowShift : ℕ} (hmax : n ≤ T.usizeMax)
    (hshift : windowShift < T.usizeBits) (keys : List U64) (schedule : List ℕ) :
  (∀ (seed : U64) (threads : ℕ), n % W = 0 → 1 < min (max threads 1) (n / W) →
    ∃ band window bounds buckets deferred slices workers,
      Banding.new R n seed = some band ∧ windowSize T windowShift = some window
      ∧ SplitKeys T n window (min (max threads 1) (n / W))
          (fun k => start (ribbonHash k seed) band.numStarts) keys bounds buckets deferred
      ∧ splitSlices bounds 0 band.coeffRows = some (slices, [])
      ∧ RangeWorker.scope band.numStarts seed schedule (RangeWorker.spawnAll slices buckets)
          = some workers
      ∧ workers.length = buckets.length
      ∧ ∀ (t : ℕ) lo hi bucket w, bounds[t]? = some lo → bounds[t + 1]? = some hi →
          buckets[t]? = some bucket → workers[t]? = some w →
          RangeWorker.Returned R n seed lo hi bucket w
            ∧ (t + 1 = workers.length → w.spilled = []))
  ∧ (∀ (b : Banding128 R) (ordinal : U32) (threads : ℕ), b.Shape n → 1 < threads →
      2 ≤ n / W128 →
    let raw : U64 := (b.reset ordinal).rawSeed.setWidth 64
    ∃ window bounds buckets deferred cslices rslices workers,
      windowSize T windowShift = some window
      ∧ SplitKeys T n window (min threads (divCeil n window))
          (fun k => start (ribbonHash k raw) b.numStarts) keys bounds buckets deferred
      ∧ splitSlices bounds 0 (b.reset ordinal).coeffRows = some (cslices, [])
      ∧ splitSlices bounds 0 (b.reset ordinal).resultRows = some (rslices, [])
      ∧ RangeWorker128.scope b.numStarts raw schedule
          (RangeWorker128.spawnAll cslices rslices buckets) = some workers
      ∧ workers.length = buckets.length
      ∧ ∀ (t : ℕ) lo hi bucket w, bounds[t]? = some lo → bounds[t + 1]? = some hi →
          buckets[t]? = some bucket → workers[t]? = some w →
          RangeWorker128.Returned R n ordinal lo hi bucket w
            ∧ (t + 1 = workers.length → w.spilled = []))
  := by
  have hwindow := window_pos windowShift
  constructor
  · intro seed threads hblocks hpar
    have hslots : W ≤ n := by
      by_contra hfew
      rw [Nat.div_eq_of_lt (Nat.lt_of_not_le hfew)] at hpar
      omega
    have hpos : 0 < n := lt_of_lt_of_le (by decide) hslots
    have hempty := RangeWorker.matrix_empty_holds R seed hblocks hslots
    have hthreads : 0 < min (max threads 1) (n / W) := by omega
    obtain ⟨bounds, buckets, deferred, hsplit⟩ := exists_splitKeys hmax hpos hwindow hthreads
      (fun k (_ : k ∈ keys) => start_lt_slots (by decide) hslots (ribbonHash k seed))
    have hlen : (List.replicate n (0 : U64)).length = n := List.length_replicate
    obtain ⟨slices, hslices, hsliced⟩ := hsplit.isBounds.exists_sliced hlen
    obtain ⟨workers, hscope, hworkers, hreturned⟩ := RangeWorker.exists_scope_returned hempty
      hsplit.isBounds hsplit.bucketed hsliced schedule
    refine ⟨_, _, bounds, buckets, deferred, slices, workers,
      Banding.new_eq_some hblocks hslots, if_pos hshift, hsplit, hslices, hscope, hworkers, ?_⟩
    intro t lo hi bucket w hlo hhi hbucket hw
    have hret := hreturned t lo hi bucket w hlo hhi hbucket hw
    use hret
    intro hlast
    apply hret.last
    apply hsplit.eq_of_last hhi (hlast.trans hworkers)
  · intro b ordinal threads hshape hpar hblocks
    have hpos : 0 < n := lt_of_lt_of_le (by decide) hshape.slots
    have hempty := hshape.reset ordinal
    rw [hshape.reset_eq] at hempty ⊢
    rw [hshape.starts]
    have hwindows := divCeil_pos hpos hwindow
    have hthreads : 0 < min threads (divCeil n (1 <<< windowShift)) := by omega
    obtain ⟨bounds, buckets, deferred, hsplit⟩ := exists_splitKeys hmax hpos hwindow hthreads
      (fun k (_ : k ∈ keys) => start_lt_slots (by decide) hshape.slots
        (ribbonHash k ((ordinalToRawSeed ordinal).setWidth 64)))
    have hclen : (List.replicate n (0 : U128)).length = n := List.length_replicate
    have hrlen : (List.replicate n (0 : U32)).length = n := List.length_replicate
    obtain ⟨cslices, hcslices, hcsliced⟩ := hsplit.isBounds.exists_sliced hclen
    obtain ⟨rslices, hrslices, hrsliced⟩ := hsplit.isBounds.exists_sliced hrlen
    obtain ⟨workers, hscope, hworkers, hreturned⟩ := RangeWorker128.exists_scope_returned hempty
      hsplit.isBounds hsplit.bucketed hcsliced hrsliced schedule
    refine ⟨_, bounds, buckets, deferred, cslices, rslices, workers, if_pos hshift, hsplit,
      hcslices, hrslices, hscope, hworkers, ?_⟩
    intro t lo hi bucket w hlo hhi hbucket hw
    have hret := hreturned t lo hi bucket w hlo hhi hbucket hw
    use hret
    intro hlast
    apply hret.last
    apply hsplit.eq_of_last hhi (hlast.trans hworkers)

/-- Of five keys each half of `2 ^ 16` slots gets two, and one, near the end of the first half, is
deferred. -/
theorem bucketKeys_halves :
  Checked.bucketKeys ⟨64, le_rfl⟩ (Checked.rangeBounds ⟨64, le_rfl⟩ (2 ^ 16) (2 ^ 15) 2)
      (fun k => start (ribbonHash k 0) (BitVec.ofNat 64 (2 ^ 16 - W + 1))) [5, 7, 2, 1, 3]
    = some ([[2, 3], [5, 1]], [7])
  := by
  decide +kernel

/-- So it is with the starts of the standard family, under the first seed. -/
theorem bucketKeys_halves128 :
  Checked.bucketKeys ⟨64, le_rfl⟩ (Checked.rangeBounds ⟨64, le_rfl⟩ (2 ^ 16) (2 ^ 15) 2)
      (fun k => start (ribbonHash k ((ordinalToRawSeed 0).setWidth 64))
        (BitVec.ofNat 64 (2 ^ 16 - W128 + 1))) [5, 7, 2, 1, 3]
    = some ([[2, 3], [5, 1]], [7])
  := by
  decide +kernel

/-- These keys in matrices of `2 ^ 16` slots, in two threads that take turns. -/
theorem parallel_split_two :
  let T : Target := ⟨64, le_refl 64⟩
  let n := 2 ^ 16
  let keys : List U64 := [5, 7, 2, 1, 3]
  (∃ band bounds slices workers, Banding.new 7 n 0 = some band
    ∧ SplitKeys T n (2 ^ 15) 2 (fun k => start (ribbonHash k 0) band.numStarts) keys bounds
        [[2, 3], [5, 1]] [7]
    ∧ splitSlices bounds 0 band.coeffRows = some (slices, [])
    ∧ RangeWorker.scope band.numStarts 0 [0, 1, 0, 1, 0]
        (RangeWorker.spawnAll slices [[2, 3], [5, 1]]) = some workers
    ∧ workers.length = 2
    ∧ ∀ (t : ℕ) lo hi bucket w, bounds[t]? = some lo → bounds[t + 1]? = some hi →
        [[2, 3], [5, 1]][t]? = some bucket → workers[t]? = some w →
        RangeWorker.Returned 7 n 0 lo hi bucket w ∧ (t + 1 = workers.length → w.spilled = []))
  ∧ ∃ (b : Banding128 7) (bounds : List ℕ) (cslices : List (ℕ × List U128))
      (rslices : List (ℕ × List U32)) (workers : List RangeWorker128), b.Shape n
    ∧ SplitKeys T n (2 ^ 15) 2
        (fun k => start (ribbonHash k ((b.reset 0).rawSeed.setWidth 64)) b.numStarts) keys bounds
        [[2, 3], [5, 1]] [7]
    ∧ splitSlices bounds 0 (b.reset 0).coeffRows = some (cslices, [])
    ∧ splitSlices bounds 0 (b.reset 0).resultRows = some (rslices, [])
    ∧ RangeWorker128.scope b.numStarts ((b.reset 0).rawSeed.setWidth 64) [0, 1, 0, 1, 0]
        (RangeWorker128.spawnAll cslices rslices [[2, 3], [5, 1]]) = some workers
    ∧ workers.length = 2
    ∧ ∀ (t : ℕ) lo hi bucket w, bounds[t]? = some lo → bounds[t + 1]? = some hi →
        [[2, 3], [5, 1]][t]? = some bucket → workers[t]? = some w →
        RangeWorker128.Returned 7 n 0 lo hi bucket w ∧ (t + 1 = workers.length → w.spilled = [])
  := by
  intro T n keys
  have hmax : n ≤ T.usizeMax := by
    change 2 ^ 16 ≤ 2 ^ 64 - 1
    norm_num
  have hshift : 15 < T.usizeBits := by decide
  have hsize : windowSize T 15 = some (2 ^ 15) := by decide
  obtain ⟨hhomog, hstd⟩ := parallel_split T 7 hmax hshift keys [0, 1, 0, 1, 0]
  constructor
  · obtain ⟨band, window, bounds, buckets, deferred, slices, workers, hnew, hwindow, hsplit,
      hslices, hscope, hworkers, hreturned⟩ := hhomog 0 2 (by decide) (by decide)
    obtain rfl := Option.some_injective _ (hsize.symm.trans hwindow)
    rw [show min (max 2 1) (n / W) = 2 by decide] at hsplit
    have hstarts : band.numStarts = BitVec.ofNat 64 (n - W + 1) := by
      rw [Banding.new_eq_some (by decide) (by decide), Option.some.injEq] at hnew
      rw [← hnew]
    obtain ⟨rfl, rfl⟩ := hsplit.eq_of_bucketKeys (by rw [hstarts]; apply bucketKeys_halves)
    exact ⟨band, bounds, slices, workers, hnew, hsplit, hslices, hscope, hworkers, hreturned⟩
  · obtain ⟨b, -, hshape⟩ :=
      Banding128.exists_new 7 (show n % W128 = 0 by decide) (show W128 ≤ n by decide)
    obtain ⟨window, bounds, buckets, deferred, cslices, rslices, workers, hwindow, hsplit,
      hcslices, hrslices, hscope, hworkers, hreturned⟩ := hstd b 0 2 hshape (by decide) (by decide)
    obtain rfl := Option.some_injective _ (hsize.symm.trans hwindow)
    rw [show min 2 (divCeil n (2 ^ 15)) = 2 by decide] at hsplit
    obtain ⟨rfl, rfl⟩ := hsplit.eq_of_bucketKeys (by
      rw [hshape.starts]
      apply bucketKeys_halves128)
    exact ⟨b, bounds, cslices, rslices, workers, hshape, hsplit, hcslices, hrslices, hscope,
      hworkers, hreturned⟩

end Pleat
