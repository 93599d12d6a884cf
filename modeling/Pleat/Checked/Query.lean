import Pleat.Checked.Arithmetic
import Pleat.Interleaved
import Pleat.Sizing

/-!
# Queries with arithmetic that can fail

The queries of both families with every operation of the machine written out.  For a valid
solution whose slots and segments the target can count no operation fails and no index is
out of bounds, for any key and whatever the segments hold: the start slot fits a `usize`,
the second block exists whenever the start bit is not zero, and no shift is by the width
of its word or more.
-/

namespace Pleat.Checked

open Bits Format

variable {R : ℕ}

/-- The start slot of a hash, through a product of 128 bits. -/
def start (h numStarts : U64) : Option U64 := do
  let product ← wordMul (h.setWidth 128) (numStarts.setWidth 128)
  let high ← wordShr product 64
  some (high.setWidth 64)

/-- The segments that are prefetched for a start slot, of `len` segments in all. -/
def prefetchAt (T : Target) (R w perLine len startSlot : ℕ) : Option (List ℕ) := do
  let block ← checkedDiv startSlot w
  let seg ← T.mul block R
  let span ← T.mul 2 R
  let past ← T.add seg span
  let last ← checkedSub past 1
  some ((stepBy seg last perLine ++ [last]).filter (· < len))

/-! ### Homogeneous filters -/

/-- The segments that are prefetched for a key. -/
def prefetch (T : Target) (s : Solution R) (key : U64) : Option (List ℕ) := do
  let startSlot ← start (ribbonHash key s.rawSeed) s.numStarts
  prefetchAt T R W 8 s.segments.length (T.cast startSlot)

/-- The loop of `contains` over the columns that are left. -/
def containsLoop (T : Target) (segments : List U64) (segmentNum maybe : ℕ)
    (crLeft crRight : U64) : List ℕ → Option Bool
  | [] => some true
  | i :: columns => do
      let loAt ← T.add segmentNum i
      let lo ← segments[loAt]?
      let upper ← T.add segmentNum maybe
      let hiAt ← T.add upper i
      let hi ← segments[hiAt]?
      let soln := lo &&& crLeft ||| hi &&& crRight
      if soln.cpop.toNat % 2 ≠ 0 then
        some false
      else
        containsLoop T segments segmentNum maybe crLeft crRight columns

/-- Is the key possibly in the set? -/
def contains (T : Target) (s : Solution R) (key : U64) : Option Bool := do
  let h := ribbonHash key s.rawSeed
  let startSlot := T.cast (← start h s.numStarts)
  let startBlock ← checkedDiv startSlot W
  let segmentNum ← T.mul startBlock R
  let startBit ← checkedRem startSlot W
  let cr := coeffRow h
  let crLeft ← wordShl cr startBit
  let back ← checkedSub W startBit
  let shift ← checkedRem back W
  let crRight ← wordShr cr shift
  let maybe := if startBit ≠ 0 then R else 0
  containsLoop T s.segments segmentNum maybe crLeft crRight (List.range R)

/-- Write to `out` for each key whether it is possibly in the set. -/
def containsBatch (T : Target) (s : Solution R) (keys : List U64) (out : List Bool) :
    Option (List Bool) :=
  batch (prefetch T s) (contains T s) keys out

/-! ### Standard filters -/

/-- The segments that are prefetched for a key. -/
def prefetch128 (T : Target) (s : Solution128 R) (key : U64) : Option (List ℕ) := do
  let startSlot ← start (ribbonHash key (s.rawSeed.setWidth 64)) s.numStarts
  prefetchAt T R W128 4 s.segments.length (T.cast startSlot)

/-- The loop of `contains` over the columns that are left. -/
def containsLoop128 (lo hi : List U128) (crLeft crRight : U128) (expected : U32) :
    List ℕ → Option Bool
  | [] => some true
  | i :: columns => do
      let loI ← lo[i]?
      let hiI ← hi[i]?
      let soln := loI &&& crLeft ||| hiI &&& crRight
      let high ← wordShr soln 64
      let folded : U64 := soln.setWidth 64 ^^^ high.setWidth 64
      let parity := folded.cpop.toNat % 2
      let expectedBit ← wordShr expected i
      if parity ≠ (expectedBit &&& 1).toNat then
        some false
      else
        containsLoop128 lo hi crLeft crRight expected columns

/-- Is the key possibly in the set? -/
def contains128 (T : Target) (s : Solution128 R) (key : U64) : Option Bool := do
  let h := ribbonHash key (s.rawSeed.setWidth 64)
  let startSlot := T.cast (← start h s.numStarts)
  let block ← checkedDiv startSlot W128
  let seg ← T.mul block R
  let startBit ← checkedRem startSlot W128
  let cr := coeffRow128 h
  let expected := resultRow h
  let crLeft ← wordShl cr startBit
  let back ← checkedSub W128 startBit
  let shift ← checkedRem back W128
  let crRight ← wordShr cr shift
  let maybe := if startBit ≠ 0 then R else 0
  let loEnd ← T.add seg R
  let lo ← slice s.segments seg loEnd
  let upper ← T.add seg maybe
  let hiEnd ← T.add upper R
  let hi ← slice s.segments upper hiEnd
  containsLoop128 lo hi crLeft crRight expected (List.range R)

/-- Write to `out` for each key whether it is possibly in the set. -/
def containsBatch128 (T : Target) (s : Solution128 R) (keys : List U64) (out : List Bool) :
    Option (List Bool) :=
  batch (prefetch128 T s) (contains128 T s) keys out

/-! ### No operation fails -/

variable {T : Target}

/-- The product of two words of 64 bits fits 128 bits. -/
theorem start_eq (h numStarts : U64) :
  start h numStarts = some (Pleat.start h numStarts)
  := by
  have hwide : ∀ x : U64, (x.setWidth 128).toNat = x.toNat := by
    intro x
    rw [BitVec.toNat_setWidth]
    apply Nat.mod_eq_of_lt
    apply lt_of_lt_of_le x.isLt (by decide)
  have hproduct : (h.setWidth 128).toNat * (numStarts.setWidth 128).toNat < 2 ^ 128 := by
    rw [hwide, hwide]
    calc h.toNat * numStarts.toNat < 2 ^ 64 * 2 ^ 64 := Nat.mul_lt_mul'' h.isLt numStarts.isLt
      _ = 2 ^ 128 := by decide
  rw [start, wordMul_eq hproduct, Option.bind_eq_bind, Option.bind_some, wordShr_eq (by decide),
    Option.bind_some, Pleat.start]

/-- What a query needs of a table of `n` slots with `len` segments for a row of `w` bits at a
slot: the slot and the ends of the two blocks are counted by a `usize`. -/
structure Addressable (T : Target) (R w n len : ℕ) : Prop where
  blocks : n % w = 0
  positive : 0 < w
  segments : len = n / w * R
  slots_le : n ≤ T.usizeMax
  segments_le : len + R ≤ T.usizeMax

variable {w n len i : ℕ}

theorem Addressable.slot_le (h : Addressable T R w n len) (hi : i + w ≤ n) :
  i ≤ T.usizeMax
  := by
  have hn := h.slots_le
  omega

/-- The two blocks of a row are within the segments. -/
theorem Addressable.blocks_le (h : Addressable T R w n len) (hi : i + w ≤ n) :
  i / w * R + R ≤ len ∧ i / w * R + (if i % w ≠ 0 then R else 0) + R ≤ len
  := by
  have hlen : (List.replicate len (0 : BitVec w)).length = n / w * R := by
    rw [List.length_replicate, h.segments]
  have hle := slices_le h.blocks hlen h.positive hi
  rwa [List.length_replicate] at hle

theorem prefetchAt_eq (h : Addressable T R w n len) (hR : checkWidth R) (hi : i + w ≤ n)
    (perLine : ℕ) :
  prefetchAt T R w perLine len i
    = some ((prefetchIndices R perLine (i / w * R)).filter (· < len))
  := by
  obtain ⟨hlo, -⟩ := h.blocks_le hi
  have hlen := h.segments_le
  have hpos := hR.1
  rw [prefetchAt, checkedDiv_eq h.positive, Option.bind_eq_bind, Option.bind_some,
    Target.mul_eq (by omega), Option.bind_some, Target.mul_eq (by omega), Option.bind_some,
    Target.add_eq (by omega), Option.bind_some, checkedSub_eq (by omega), Option.bind_some,
    prefetchIndices]

/-- The shift back is less than the width of the word, also from the first slot of a block. -/
theorem shift_lt (hw : 0 < w) (i : ℕ) :
  (w - i % w) % w < w
  := Nat.mod_lt _ hw

/-! ### Homogeneous queries -/

theorem containsLoop_eq {segments : List U64} {segmentNum maybe : ℕ} {crLeft crRight : U64}
    {columns : List ℕ} (h : ∀ i ∈ columns, segmentNum + maybe + i ≤ T.usizeMax) :
  containsLoop T segments segmentNum maybe crLeft crRight columns
    = Solution.containsLoop segments segmentNum maybe crLeft crRight columns
  := by
  induction columns with
  | nil => rfl
  | cons i columns ih =>
      have hi := h i (List.mem_cons_self ..)
      rw [containsLoop, Solution.containsLoop, Target.add_eq (by omega), Option.bind_eq_bind,
        Option.bind_some, Target.add_eq (by omega), Option.bind_eq_bind]
      simp only [Option.bind_some]
      rw [Target.add_eq hi, ih (fun j hj => h j (List.mem_cons_of_mem i hj))]
      rfl

theorem contains_eq {s : Solution R} (hs : s.Valid)
    (h : Addressable T R W s.numSlots s.segments.length) (key : U64) :
  contains T s key = s.contains key
  := by
  have hW : 0 < W := by decide
  have hle := start_add_le hs.wellFormed.slots (ribbonHash key s.rawSeed)
  rw [← hs.wellFormed.starts] at hle
  have hslot := h.slot_le hle
  obtain ⟨hlo, hhi⟩ := h.blocks_le hle
  have hlen := h.segments_le
  rw [contains, start_eq, Option.bind_eq_bind, Option.bind_some, Target.cast_eq hslot]
  dsimp only
  rw [checkedDiv_eq hW, Option.bind_eq_bind, Option.bind_some, Target.mul_eq (by omega),
    Option.bind_some, checkedRem_eq hW, Option.bind_some, wordShl_eq (Nat.mod_lt _ hW),
    Option.bind_some, checkedSub_eq (Nat.mod_lt _ hW).le, Option.bind_some, checkedRem_eq hW,
    Option.bind_some, wordShr_eq (shift_lt hW _), Option.bind_some, containsLoop_eq]
  · rfl
  · intro i hi
    have hiR := List.mem_range.mp hi
    omega

theorem prefetch_eq {s : Solution R} (hs : s.Valid)
    (h : Addressable T R W s.numSlots s.segments.length) (hR : checkWidth R) (key : U64) :
  prefetch T s key = some (s.prefetch key)
  := by
  have hle := start_add_le hs.wellFormed.slots (ribbonHash key s.rawSeed)
  rw [← hs.wellFormed.starts] at hle
  rw [prefetch, start_eq, Option.bind_eq_bind, Option.bind_some, Target.cast_eq (h.slot_le hle),
    prefetchAt_eq h hR hle, Solution.prefetch]

/-! ### Standard queries -/

/-- The expected row has a bit for each column, as there are at most 32 columns. -/
theorem containsLoop128_eq {lo hi : List U128} {crLeft crRight : U128} {expected : U32}
    {columns : List ℕ} (h : ∀ i ∈ columns, i < 32) :
  containsLoop128 lo hi crLeft crRight expected columns
    = Solution128.containsLoop lo hi crLeft crRight expected columns
  := by
  induction columns with
  | nil => rfl
  | cons i columns ih =>
      have hi := h i (List.mem_cons_self ..)
      rw [containsLoop128, Solution128.containsLoop, wordShr_eq hi,
        ih (fun j hj => h j (List.mem_cons_of_mem i hj))]
      apply Option.bind_congr
      intro loI _
      apply Option.bind_congr
      intro hiI _
      dsimp only
      rw [wordShr_eq (show 64 < 128 by decide)]
      rfl

theorem contains128_eq {s : Solution128 R} (hs : s.Valid)
    (h : Addressable T R W128 s.numSlots s.segments.length) (hR : checkWidth R) (key : U64) :
  contains128 T s key = s.contains key
  := by
  have hW : 0 < W128 := by decide
  have hle := start_add_le hs.wellFormed.slots (ribbonHash key (s.rawSeed.setWidth 64))
  rw [← hs.wellFormed.starts] at hle
  have hslot := h.slot_le hle
  obtain ⟨hlo, hhi⟩ := h.blocks_le hle
  have hlen := h.segments_le
  rw [contains128, start_eq, Option.bind_eq_bind, Option.bind_some, Target.cast_eq hslot]
  dsimp only
  rw [checkedDiv_eq hW, Option.bind_eq_bind, Option.bind_some, Target.mul_eq (by omega),
    Option.bind_some, checkedRem_eq hW, Option.bind_some, wordShl_eq (Nat.mod_lt _ hW),
    Option.bind_eq_bind, Option.bind_some, checkedSub_eq (Nat.mod_lt _ hW).le, Option.bind_some,
    checkedRem_eq hW, Option.bind_some, wordShr_eq (shift_lt hW _), Option.bind_some,
    Target.add_eq (by omega), Option.bind_some, Solution128.contains]
  apply Option.bind_congr
  intro lo _
  rw [Target.add_eq (by omega), Option.bind_some, Target.add_eq (by omega), Option.bind_some]
  apply Option.bind_congr
  intro hi _
  apply containsLoop128_eq
  intro i hi
  apply lt_of_lt_of_le (List.mem_range.mp hi) hR.2

theorem prefetch128_eq {s : Solution128 R} (hs : s.Valid)
    (h : Addressable T R W128 s.numSlots s.segments.length) (hR : checkWidth R) (key : U64) :
  prefetch128 T s key = some (s.prefetch key)
  := by
  have hle := start_add_le hs.wellFormed.slots (ribbonHash key (s.rawSeed.setWidth 64))
  rw [← hs.wellFormed.starts] at hle
  rw [prefetch128, start_eq, Option.bind_eq_bind, Option.bind_some,
    Target.cast_eq (h.slot_le hle), prefetchAt_eq h hR hle, Solution128.prefetch]

end Pleat.Checked
