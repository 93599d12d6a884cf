import Pleat.Checked.Encode
import Pleat.Homogeneous.Parallel
import Pleat.Standard.Filter
import Pleat.Standard.Seed

/-!
# Serialized filters

The bytes of a filter of each family, and the filter of a byte string (`filter.rs`).  A
standard filter is written with its ordinal seed only, and the raw seed is computed again
when it is read.

The encoding of a filter is written unless it is longer than the vector can grow.  A filter
that a builder returns is always written, since its matrix, which was allocated, takes twice
the memory of its segments at least; and it is read back from its bytes.
-/

namespace Pleat

open Bits Format LittleEndian

theorem checkWidth.toNat_ofNat {R : ℕ} (hR : checkWidth R) :
  (BitVec.ofNat 8 R).toNat = R
  := by
  rw [BitVec.toNat_ofNat]
  apply Nat.mod_eq_of_lt
  apply lt_of_le_of_lt hR.2 (by decide)

/-! ### Homogeneous filters -/

namespace Ribbon

variable {R : ℕ}

/-- The bytes that stand for a filter; keys are not stored. -/
def encoding (f : Ribbon R) : List U8 :=
  let (numStarts, rawSeed, segs) := f.soln.parts
  let buf := writeHeader familyHomog (BitVec.ofNat 8 R) rawSeed numStarts
    (BitVec.ofNat 64 segs.length)
  let buf := buf ++ segs.flatMap toLeBytes
  finish buf

theorem length_encoding (f : Ribbon R) :
  f.encoding.length = headerLen + f.soln.segments.length * 8 + checksumLen
  := by
  rw [encoding, Solution.parts]
  dsimp only
  rw [length_finish, List.length_append, length_writeHeader,
    length_flatMap_of_length_eq length_toLeBytes]

/-- Write a filter. -/
def toBytes (T : Target) (f : Ribbon R) : Option (List U8) :=
  let (numStarts, rawSeed, segs) := f.soln.parts
  Checked.toBytes T familyHomog (BitVec.ofNat 8 R) rawSeed numStarts segs

/-- A filter is written unless its bytes are more than the largest power of two that can be
allocated. -/
theorem toBytes_eq (T : Target) (f : Ribbon R) :
  f.toBytes T = if f.encoding.length ≤ 2 ^ (T.usizeBits - 2) then some f.encoding else none
  := Checked.toBytes_eq T _ _ _ _ _ (by decide)

/-- The filter of a byte string. -/
def fromBytes (T : Target) (R : ℕ) (bytes : List U8) :
    Option (Except DecodeError (Ribbon R)) := do
  match ← decode T bytes familyHomog (BitVec.ofNat 8 R) 8 W with
  | .error e => some (.error e)
  | .ok (hdr, payload) =>
      let segs := (chunksExact 8 payload).map (fromLeBytes 64)
      some (.ok ⟨Solution.fromParts hdr.numStarts hdr.seed segs⟩)

/-- The filters that the builders return for a list of keys.  The rows of the matrix, of 8
bytes each, are allocated by `vec!`, which panics past `isize::MAX` bytes; so a builder
returns only if they fit. -/
inductive Built (T : Target) (sizing : ℕ → ℕ → ℕ) {R : ℕ} (keys : List U64) : Ribbon R → Prop
  | fromKeysSeeded {seed f} (alloc : numSlotsFor sizing keys.length R * 8 ≤ T.isizeMax)
      (build : fromKeysSeeded sizing R keys seed = some f) : Built T sizing keys f
  | fromKeysPleatedSeeded {seed windowShift f}
      (alloc : numSlotsFor sizing keys.length R * 8 ≤ T.isizeMax)
      (build : fromKeysPleatedSeeded T sizing R keys seed windowShift = some f) :
      Built T sizing keys f
  | fromKeysParallelSeeded {seed windowShift threads schedule f}
      (alloc : numSlotsFor sizing keys.length R * 8 ≤ T.isizeMax)
      (build : fromKeysParallelSeeded T sizing R keys seed windowShift threads schedule = some f) :
      Built T sizing keys f

/-- A filter of a valid geometry is read back from its bytes. -/
theorem fromBytes_of_geometry {T : Target} {f : Ribbon R} {n : ℕ} (hR : checkWidth R)
    (hgeometry : Geometry T n R 8 W f.soln.numStarts (BitVec.ofNat 64 f.soln.segments.length))
    (hsegments : f.soln.segments.length = n / W * R) :
  fromBytes T R f.encoding = some (.ok f)
  := by
  have hpayload : (f.soln.segments.flatMap toLeBytes).length = n / W * R * 8 := by
    rw [length_flatMap_of_length_eq length_toLeBytes, hsegments]
  have hsegs : (chunksExact 8 (f.soln.segments.flatMap toLeBytes)).map (fromLeBytes 64)
      = f.soln.segments :=
    map_fromLeBytes_chunksExact rfl (by decide) _
  rw [fromBytes, encoding, Solution.parts]
  dsimp only
  rw [decode_finish hgeometry hR.toNat_ofNat hpayload, Option.bind_eq_bind, Option.bind_some]
  dsimp only
  rw [hsegs]
  rfl

/-- A filter whose segments cover an allocated table of at least two blocks is read back
from its bytes. -/
theorem fromBytes_of_wellFormed {T : Target} {f : Ribbon R} {n : ℕ} (hf : f.soln.WellFormed n)
    (hR : checkWidth R) (hslots : 2 * W ≤ n) (halloc : n * 8 ≤ T.isizeMax) :
  fromBytes T R f.encoding = some (.ok f)
  := by
  apply fromBytes_of_geometry hR _ hf.segments
  rw [hf.starts, hf.segments]
  apply geometry_of_alloc hf.blocks hslots rfl le_rfl hR.2 halloc

theorem exists_holds_of_fromKeysSeeded {sizing : ℕ → ℕ → ℕ} {keys : List U64} {seed : U64}
    {f : Ribbon R} (build : fromKeysSeeded sizing R keys seed = some f) :
  ∃ (b : Banding R) (seed : U64), f = ⟨b.solve⟩
    ∧ b.Holds (numSlotsFor sizing keys.length R) seed {k | k ∈ keys}
  := by
  obtain ⟨b, hbuild, hb⟩ := fromKeysSeeded_eq_some sizing R keys seed
  exact ⟨b, seed, Option.some_injective _ (build.symm.trans hbuild), hb⟩

theorem exists_holds_of_fromKeysPleatedSeeded {T : Target} {sizing : ℕ → ℕ → ℕ} {keys : List U64}
    {seed : U64} {windowShift : ℕ} {f : Ribbon R}
    (build : fromKeysPleatedSeeded T sizing R keys seed windowShift = some f) :
  ∃ (b : Banding R) (seed : U64), f = ⟨b.solve⟩
    ∧ b.Holds (numSlotsFor sizing keys.length R) seed {k | k ∈ keys}
  := by
  have hshift : windowShift < T.usizeBits := by
    by_contra hlarge
    apply Option.some_ne_none f (build.symm.trans (fromKeysPleatedSeeded_eq_none hlarge))
  obtain ⟨b, hbuild, hb⟩ := fromKeysPleatedSeeded_eq_some sizing R keys seed hshift
  exact ⟨b, seed, Option.some_injective _ (build.symm.trans hbuild), hb⟩

theorem exists_holds_of_fromKeysParallelSeeded {T : Target} {sizing : ℕ → ℕ → ℕ} {keys : List U64}
    {seed : U64} {windowShift threads : ℕ} {schedule : List ℕ} {f : Ribbon R}
    (build : fromKeysParallelSeeded T sizing R keys seed windowShift threads schedule = some f) :
  ∃ (b : Banding R) (seed : U64), f = ⟨b.solve⟩
    ∧ b.Holds (numSlotsFor sizing keys.length R) seed {k | k ∈ keys}
  := by
  have hshift : windowShift < T.usizeBits := by
    by_contra hlarge
    apply Option.some_ne_none f (build.symm.trans (fromKeysParallelSeeded_eq_none hlarge))
  obtain ⟨b, hbuild, hb⟩ := Parallel.exists_fromKeysParallelSeeded T sizing R keys seed hshift
    threads schedule
  rw [fromKeysParallelSeeded, windowSize, if_pos hshift, hbuild] at build
  exact ⟨b, seed, (Option.some_injective _ build).symm, hb⟩

/-- Every builder returns the solution of a matrix that holds the keys. -/
theorem Built.exists_holds {T : Target} {sizing : ℕ → ℕ → ℕ} {keys : List U64} {f : Ribbon R}
    (h : Built T sizing keys f) :
  ∃ (b : Banding R) (seed : U64), f = ⟨b.solve⟩
    ∧ b.Holds (numSlotsFor sizing keys.length R) seed {k | k ∈ keys}
  := by
  cases h with
  | fromKeysSeeded _ build => apply exists_holds_of_fromKeysSeeded build
  | fromKeysPleatedSeeded _ build => apply exists_holds_of_fromKeysPleatedSeeded build
  | fromKeysParallelSeeded _ build => apply exists_holds_of_fromKeysParallelSeeded build

theorem Built.alloc {T : Target} {sizing : ℕ → ℕ → ℕ} {keys : List U64} {f : Ribbon R}
    (h : Built T sizing keys f) :
  numSlotsFor sizing keys.length R * 8 ≤ T.isizeMax
  := by
  cases h <;> assumption

/-- The segments of a filter that a builder returns cover its table. -/
theorem Built.wellFormed {T : Target} {sizing : ℕ → ℕ → ℕ} {keys : List U64} {f : Ribbon R}
    (hf : f.Built T sizing keys) :
  f.soln.WellFormed (numSlotsFor sizing keys.length R)
  := by
  obtain ⟨b, seed, rfl, hb⟩ := hf.exists_holds
  rw [← hb.slots]
  apply Banding.solve_wellFormed hb.wellFormed

/-- A filter that a builder returns is written. -/
theorem Built.toBytes_eq_some {T : Target} {sizing : ℕ → ℕ → ℕ} {keys : List U64} {f : Ribbon R}
    (hR : checkWidth R) (hf : f.Built T sizing keys) :
  f.toBytes T = some f.encoding
  := by
  rw [toBytes_eq, if_pos]
  rw [length_encoding, hf.wellFormed.segments]
  apply encoding_le_of_alloc hf.wellFormed.blocks (two_mul_le_roundUpNumSlots ..) rfl le_rfl
    (by decide) hR.2 hf.alloc

/-- A filter that a builder returns is read back from its encoding. -/
theorem Built.fromBytes_eq_ok {T : Target} {sizing : ℕ → ℕ → ℕ} {keys : List U64} {f : Ribbon R}
    (hR : checkWidth R) (hf : f.Built T sizing keys) :
  fromBytes T R f.encoding = some (.ok f)
  := by
  apply fromBytes_of_wellFormed hf.wellFormed hR (two_mul_le_roundUpNumSlots ..) hf.alloc

end Ribbon

/-! ### Standard filters -/

namespace StdRibbon

variable {R : ℕ}

/-- The bytes that stand for a filter; keys are not stored. -/
def encoding (f : StdRibbon R) : List U8 :=
  let (numStarts, ordinalSeed, segs) := f.soln.parts
  let buf := writeHeader familyStd (BitVec.ofNat 8 R) (ordinalSeed.setWidth 64) numStarts
    (BitVec.ofNat 64 segs.length)
  let buf := buf ++ segs.flatMap toLeBytes
  finish buf

theorem length_encoding (f : StdRibbon R) :
  f.encoding.length = headerLen + f.soln.segments.length * 16 + checksumLen
  := by
  rw [encoding, Solution128.parts]
  dsimp only
  rw [length_finish, List.length_append, length_writeHeader,
    length_flatMap_of_length_eq length_toLeBytes]

/-- Write a filter. -/
def toBytes (T : Target) (f : StdRibbon R) : Option (List U8) :=
  let (numStarts, ordinalSeed, segs) := f.soln.parts
  Checked.toBytes T familyStd (BitVec.ofNat 8 R) (ordinalSeed.setWidth 64) numStarts segs

/-- A filter is written unless its bytes are more than the largest power of two that can be
allocated. -/
theorem toBytes_eq (T : Target) (f : StdRibbon R) :
  f.toBytes T = if f.encoding.length ≤ 2 ^ (T.usizeBits - 2) then some f.encoding else none
  := Checked.toBytes_eq T _ _ _ _ _ (by decide)

/-- The filter of a byte string. -/
def fromBytes (T : Target) (R : ℕ) (bytes : List U8) :
    Option (Except DecodeError (StdRibbon R)) := do
  match ← decode T bytes familyStd (BitVec.ofNat 8 R) 16 W128 with
  | .error e => some (.error e)
  | .ok (hdr, payload) =>
      if seedCount ≤ hdr.seed.toNat then
        some (.error .badSeed)
      else
        let segs := (chunksExact 16 payload).map (fromLeBytes 128)
        some (.ok ⟨Solution128.fromParts hdr.numStarts (hdr.seed.setWidth 32) segs⟩)

/-- The filters that the builders return for a list of keys.  The coefficient rows of the
matrix, of 16 bytes each, are allocated by `vec!`, which panics past `isize::MAX` bytes; so
a builder returns only if they fit. -/
inductive Built (T : Target) (sizing : ℕ → ℕ → ℕ) {R : ℕ} (keys : List U64) : StdRibbon R → Prop
  | fromKeys {f} (alloc : numSlotsFor128 sizing keys.length R * 16 ≤ T.isizeMax)
      (build : fromKeys sizing R keys = some (.ok f)) : Built T sizing keys f
  | fromKeysPleated {f} (alloc : numSlotsFor128 sizing keys.length R * 16 ≤ T.isizeMax)
      (build : fromKeysPleated T sizing R keys = some (.ok f)) : Built T sizing keys f
  | fromKeysParallel {threads schedules f}
      (alloc : numSlotsFor128 sizing keys.length R * 16 ≤ T.isizeMax)
      (build : fromKeysParallel T sizing R keys threads schedules = some (.ok f)) :
      Built T sizing keys f

/-- A filter of a valid geometry, whose raw seed is that of a valid ordinal seed, is read
back from its bytes. -/
theorem fromBytes_of_geometry {T : Target} {f : StdRibbon R} {n : ℕ} (hR : checkWidth R)
    (hgeometry : Geometry T n R 16 W128 f.soln.numStarts
      (BitVec.ofNat 64 f.soln.segments.length))
    (hsegments : f.soln.segments.length = n / W128 * R)
    (hraw : f.soln.rawSeed = ordinalToRawSeed f.soln.ordinalSeed)
    (hseed : f.soln.ordinalSeed.toNat < seedCount) :
  fromBytes T R f.encoding = some (.ok f)
  := by
  have hpayload : (f.soln.segments.flatMap toLeBytes).length = n / W128 * R * 16 := by
    rw [length_flatMap_of_length_eq length_toLeBytes, hsegments]
  have hsegs : (chunksExact 16 (f.soln.segments.flatMap toLeBytes)).map (fromLeBytes 128)
      = f.soln.segments :=
    map_fromLeBytes_chunksExact rfl (by decide) _
  have hwide : (f.soln.ordinalSeed.setWidth 64).toNat = f.soln.ordinalSeed.toNat := by
    rw [BitVec.toNat_setWidth]
    apply Nat.mod_eq_of_lt
    apply lt_of_lt_of_le f.soln.ordinalSeed.isLt (by decide)
  have hnarrow : (f.soln.ordinalSeed.setWidth 64).setWidth 32 = f.soln.ordinalSeed := by
    apply BitVec.eq_of_toNat_eq
    rw [BitVec.toNat_setWidth, hwide]
    apply Nat.mod_eq_of_lt f.soln.ordinalSeed.isLt
  rw [fromBytes, encoding, Solution128.parts]
  dsimp only
  rw [decode_finish hgeometry hR.toNat_ofNat hpayload, Option.bind_eq_bind, Option.bind_some]
  dsimp only
  rw [hwide, if_neg (not_le.mpr hseed), hnarrow, hsegs, Solution128.fromParts, ← hraw]

/-- A filter whose segments cover an allocated table of at least two blocks, and whose raw
seed is that of a valid ordinal seed, is read back from its bytes. -/
theorem fromBytes_of_wellFormed {T : Target} {f : StdRibbon R} {n : ℕ} (hf : f.soln.WellFormed n)
    (hraw : f.soln.rawSeed = ordinalToRawSeed f.soln.ordinalSeed)
    (hseed : f.soln.ordinalSeed.toNat < seedCount) (hR : checkWidth R) (hslots : 2 * W128 ≤ n)
    (halloc : n * 16 ≤ T.isizeMax) :
  fromBytes T R f.encoding = some (.ok f)
  := by
  apply fromBytes_of_geometry hR _ hf.segments hraw hseed
  rw [hf.starts, hf.segments]
  apply geometry_of_alloc hf.blocks hslots rfl (by decide) hR.2 halloc

theorem ofSolution_eq_ok {soln : Option (Solution128 R)} {f : StdRibbon R}
    (h : ofSolution soln = .ok f) :
  soln = some f.soln
  := by
  cases soln with
  | none => nomatch h
  | some s =>
      rw [ofSolution, Except.ok.injEq] at h
      rw [← h]

theorem ofSolution_eq_error_iff {soln : Option (Solution128 R)} :
  ofSolution soln = .error .noSolvingSeed ↔ soln = none
  := by
  cases soln with
  | none => exact iff_of_true rfl rfl
  | some s => exact iff_of_false (fun h => (nomatch h)) (fun h => (nomatch h))

theorem firstOutcome_of_fromKeys {sizing : ℕ → ℕ → ℕ} {keys : List U64} {f : StdRibbon R}
    (build : fromKeys sizing R keys = some (.ok f)) :
  firstOutcome sizing R keys = some f.soln
  := by
  rw [fromKeys, buildStd128_eq] at build
  apply ofSolution_eq_ok (Option.some_injective _ build)

theorem firstOutcome_of_fromKeysPleated {T : Target} {sizing : ℕ → ℕ → ℕ} {keys : List U64}
    {f : StdRibbon R} (build : fromKeysPleated T sizing R keys = some (.ok f)) :
  firstOutcome sizing R keys = some f.soln
  := by
  have hshift : defaultWindowShift < T.usizeBits := by
    by_contra hlarge
    rw [fromKeysPleated, buildStd128Pleated_eq_none hlarge] at build
    apply Option.some_ne_none _ build.symm
  rw [fromKeysPleated, buildStd128Pleated_eq_firstOutcome _ _ _ _ hshift] at build
  apply ofSolution_eq_ok (Option.some_injective _ build)

theorem firstOutcome_of_fromKeysParallel {T : Target} {sizing : ℕ → ℕ → ℕ} {keys : List U64}
    {threads : ℕ} {schedules : U32 → List ℕ} {f : StdRibbon R}
    (build : fromKeysParallel T sizing R keys threads schedules = some (.ok f)) :
  firstOutcome sizing R keys = some f.soln
  := by
  have hshift : defaultWindowShift < T.usizeBits := by
    by_contra hlarge
    rw [fromKeysParallel, buildStd128Parallel_eq_none hlarge] at build
    apply Option.some_ne_none _ build.symm
  rw [fromKeysParallel, buildStd128Parallel_eq_firstOutcome _ _ _ hshift] at build
  apply ofSolution_eq_ok (Option.some_injective _ build)

/-- Every builder returns what the first seed yields that yields something. -/
theorem Built.firstOutcome_eq {T : Target} {sizing : ℕ → ℕ → ℕ} {keys : List U64}
    {f : StdRibbon R} (h : Built T sizing keys f) :
  firstOutcome sizing R keys = some f.soln
  := by
  cases h with
  | fromKeys _ build => apply firstOutcome_of_fromKeys build
  | fromKeysPleated _ build => apply firstOutcome_of_fromKeysPleated build
  | fromKeysParallel _ build => apply firstOutcome_of_fromKeysParallel build

theorem Built.alloc {T : Target} {sizing : ℕ → ℕ → ℕ} {keys : List U64} {f : StdRibbon R}
    (h : Built T sizing keys f) :
  numSlotsFor128 sizing keys.length R * 16 ≤ T.isizeMax
  := by
  cases h <;> assumption

/-- A filter that a builder returns is the solution of a matrix that holds the keys for one of
the ordinal seeds. -/
theorem Built.exists_holds {T : Target} {sizing : ℕ → ℕ → ℕ} {keys : List U64}
    {f : StdRibbon R} (hf : f.Built T sizing keys) :
  ∃ (b : Banding128 R) (o : U32), o.toNat < seedCount ∧ f.soln = b.intoSolution
    ∧ b.Holds (numSlotsFor128 sizing keys.length R) o {k | k ∈ keys}
  := by
  obtain ⟨o, ho, hout⟩ := List.exists_of_findSome?_eq_some hf.firstOutcome_eq
  obtain ⟨b, hb, hsoln⟩ := Banding128.exists_holds_of_outcome hout
  exact ⟨b, o, (mem_ordinals_iff o).mp ho, hsoln, hb⟩

/-- The segments of a filter that a builder returns cover its table. -/
theorem Built.wellFormed {T : Target} {sizing : ℕ → ℕ → ℕ} {keys : List U64}
    {f : StdRibbon R} (hf : f.Built T sizing keys) :
  f.soln.WellFormed (numSlotsFor128 sizing keys.length R)
  := by
  obtain ⟨b, o, -, hsoln, hb⟩ := hf.exists_holds
  rw [hsoln]
  apply hb.intoSolution_wellFormed

/-- The raw seed of a filter that a builder returns is that of its ordinal seed. -/
theorem Built.rawSeed_eq {T : Target} {sizing : ℕ → ℕ → ℕ} {keys : List U64}
    {f : StdRibbon R} (hf : f.Built T sizing keys) :
  f.soln.rawSeed = ordinalToRawSeed f.soln.ordinalSeed
  := by
  obtain ⟨b, o, -, hsoln, hb⟩ := hf.exists_holds
  rw [hsoln]
  change b.rawSeed = ordinalToRawSeed b.ordinalSeed
  rw [hb.rawSeed, hb.ordinalSeed]

/-- A filter that a builder returns is written. -/
theorem Built.toBytes_eq_some {T : Target} {sizing : ℕ → ℕ → ℕ} {keys : List U64}
    {f : StdRibbon R} (hR : checkWidth R) (hf : f.Built T sizing keys) :
  f.toBytes T = some f.encoding
  := by
  rw [toBytes_eq, if_pos]
  rw [length_encoding, hf.wellFormed.segments]
  apply encoding_le_of_alloc hf.wellFormed.blocks (two_mul_le_roundUpNumSlots ..) rfl (by decide)
    (by decide) hR.2 hf.alloc

/-- A filter that a builder returns is read back from its encoding. -/
theorem Built.fromBytes_eq_ok {T : Target} {sizing : ℕ → ℕ → ℕ} {keys : List U64}
    {f : StdRibbon R} (hR : checkWidth R) (hf : f.Built T sizing keys) :
  fromBytes T R f.encoding = some (.ok f)
  := by
  obtain ⟨b, o, ho, hsoln, hb⟩ := hf.exists_holds
  have hseed : f.soln.ordinalSeed.toNat < seedCount := by
    rw [hsoln]
    change b.ordinalSeed.toNat < seedCount
    rw [hb.ordinalSeed]
    apply ho
  apply fromBytes_of_wellFormed hf.wellFormed hf.rawSeed_eq hseed hR
    (two_mul_le_roundUpNumSlots ..) hf.alloc

end StdRibbon

/-! ### The round trip -/

/-- Every filter that a builder returns is written and read back from its bytes, in both
families: the number of starts, the seeds and the segments are the same, and so is every
answer. -/
theorem fromBytes_toBytes (T : Target) (sizing : ℕ → ℕ → ℕ) {R : ℕ} (hR : checkWidth R)
    (keys : List U64) :
  (∀ f : Ribbon R, f.Built T sizing keys →
    ∃ bytes, f.toBytes T = some bytes ∧ Ribbon.fromBytes T R bytes = some (.ok f))
  ∧ (∀ f : StdRibbon R, f.Built T sizing keys →
    ∃ bytes, f.toBytes T = some bytes ∧ StdRibbon.fromBytes T R bytes = some (.ok f))
  := by
  constructor
  · exact fun f hf => ⟨f.encoding, hf.toBytes_eq_some hR, hf.fromBytes_eq_ok hR⟩
  · exact fun f hf => ⟨f.encoding, hf.toBytes_eq_some hR, hf.fromBytes_eq_ok hR⟩

set_option maxRecDepth 8000 in
/-- Filters of both families of one key on a target of 64 bits. -/
theorem fromBytes_toBytes_five :
  let T : Target := ⟨64, le_rfl⟩
  (∃ f : Ribbon 7, Ribbon.fromKeysSeeded (fun _ _ => 0) 7 [5] 0 = some f
    ∧ ∃ bytes, f.toBytes T = some bytes ∧ Ribbon.fromBytes T 7 bytes = some (.ok f))
  ∧ ∃ f : StdRibbon 7, StdRibbon.fromKeys (fun _ _ => 0) 7 [5] = some (.ok f)
    ∧ ∃ bytes, f.toBytes T = some bytes ∧ StdRibbon.fromBytes T 7 bytes = some (.ok f)
  := by
  intro T
  have hR : checkWidth 7 := ⟨by decide, by decide⟩
  obtain ⟨hhomog, hstd⟩ := fromBytes_toBytes T (fun _ _ => 0) hR [5]
  constructor
  · obtain ⟨b, hbuild, -⟩ := Ribbon.fromKeysSeeded_eq_some (fun _ _ => 0) 7 [5] 0
    exact ⟨_, hbuild, hhomog _ (.fromKeysSeeded (by decide) hbuild)⟩
  · obtain ⟨f, hbuild, -⟩ := @StdRibbon.exists_ok_of_any 7
      (StdRibbon.fromKeys (fun _ _ => 0) 7 [5]) (fun _ => true) rfl
    exact ⟨f, hbuild, hstd f (.fromKeys (by decide) hbuild)⟩

end Pleat
