import Pleat.Batch
import Pleat.Homogeneous.Banding
import Pleat.Solving

/-!
# The homogeneous solution

The queryable solution of a homogeneous band matrix (`banding.rs`).  The segments of a
well-formed matrix satisfy the equation of every stored row, and are determined by the
number of slots and the span of the stored rows: the span fixes which slots are empty, the
fill of the empty slots is fixed, and no other assignment satisfies the equations with
that fill.  A query is true exactly when the segments satisfy the equation of the key.
-/

namespace Pleat

open Bits Linear

/-- The solved segments, with what a query needs to place a key. -/
structure Solution (R : ℕ) where
  segments : List U64
  numStarts : U64
  rawSeed : U64
  deriving DecidableEq

/-- Back-substitute and keep what queries need. -/
def Banding.solve {R : ℕ} (b : Banding R) : Solution R where
  segments := b.backSubstitute
  numStarts := b.numStarts
  rawSeed := b.rawSeed

namespace Solution

variable {R : ℕ}

/-- What is serialized: the number of starts, the seed and the segments. -/
def parts (s : Solution R) : U64 × U64 × List U64 :=
  (s.numStarts, s.rawSeed, s.segments)

/-- The solution of deserialized parts. -/
def fromParts (numStarts rawSeed : U64) (segments : List U64) : Solution R where
  segments := segments
  numStarts := numStarts
  rawSeed := rawSeed

/-- The loop of `contains` over the columns that are left. -/
def containsLoop (segments : List U64) (segmentNum maybe : ℕ) (crLeft crRight : U64) :
    List ℕ → Option Bool
  | [] => some true
  | i :: columns => do
      let lo ← segments[segmentNum + i]?
      let hi ← segments[segmentNum + maybe + i]?
      let soln := lo &&& crLeft ||| hi &&& crRight
      if soln.cpop.toNat % 2 ≠ 0 then
        some false
      else
        containsLoop segments segmentNum maybe crLeft crRight columns

/-- Is the key possibly in the set?  A segment out of bounds is `none`. -/
def contains (s : Solution R) (key : U64) : Option Bool :=
  let h := ribbonHash key s.rawSeed
  let startSlot := (start h s.numStarts).toNat
  let startBlock := startSlot / W
  let segmentNum := startBlock * R
  let startBit := startSlot % W
  let cr := coeffRow h
  let crLeft := cr <<< startBit
  let crRight := cr >>> ((W - startBit) % W)
  let maybe := if startBit ≠ 0 then R else 0
  containsLoop s.segments segmentNum maybe crLeft crRight (List.range R)

/-- The segments that are prefetched for a key; an index out of bounds is passed over. -/
def prefetch (s : Solution R) (key : U64) : List ℕ :=
  let startSlot := (start (ribbonHash key s.rawSeed) s.numStarts).toNat
  let seg := startSlot / W * R
  (prefetchIndices R 8 seg).filter (· < s.segments.length)

/-- Write to `out` for each key whether it is possibly in the set. -/
def containsBatch (s : Solution R) (keys : List U64) (out : List Bool) : Option (List Bool) :=
  batch (fun key => some (s.prefetch key)) s.contains keys out

/-- Keep the segments that `relocate` returns; there must be as many. -/
def relocateStorage (relocate : List U64 → List U64) (s : Solution R) : Option (Solution R) :=
  let segments := relocate s.segments
  if segments.length = s.segments.length then some { s with segments } else none

/-! ### Queries -/

/-- The segments cover a table of `n` slots. -/
structure WellFormed (s : Solution R) (n : ℕ) : Prop where
  blocks : n % W = 0
  slots : W ≤ n
  starts : s.numStarts = BitVec.ofNat 64 (n - W + 1)
  segments : s.segments.length = n / W * R

/-- The number of slots of the table a solution is for: `num_starts + W - 1`. -/
def numSlots (s : Solution R) : ℕ :=
  s.numStarts.toNat + W - 1

/-- The geometry of a solution is consistent, whatever its segments hold: its slots are whole
blocks, at least two, and there is a segment for each block and column. -/
structure Valid (s : Solution R) : Prop where
  blocks : s.numSlots % W = 0
  slots : 2 * W ≤ s.numSlots
  segments : s.segments.length = s.numSlots / W * R

theorem Valid.wellFormed {s : Solution R} (h : s.Valid) :
  s.WellFormed s.numSlots
  := by
  have hslots := h.slots
  have hW : 0 < W := by decide
  have hstarts : s.numSlots - W + 1 = s.numStarts.toNat := by
    rw [numSlots] at hslots ⊢
    omega
  refine ⟨h.blocks, by omega, ?_, h.segments⟩
  rw [hstarts, BitVec.ofNat_toNat, BitVec.setWidth_eq]

/-- The sum of the bits of column `j` that the row of a key selects. -/
def columnSum (s : Solution R) (key : U64) (j : ℕ) : Gf2 :=
  let h := ribbonHash key s.rawSeed
  ∑ k ∈ Finset.range W,
    bit (coeffRow h) k * cell R s.segments ((start h s.numStarts).toNat + k) j

theorem containsLoop_eq {segments : List U64} {segmentNum maybe : ℕ} {crLeft crRight : U64}
    (sum : ℕ → Gf2) (columns : List ℕ)
    (hread : ∀ i ∈ columns, ∃ lo hi, segments[segmentNum + i]? = some lo
      ∧ segments[segmentNum + maybe + i]? = some hi
      ∧ ∑ p ∈ Finset.range W, bit (lo &&& crLeft ||| hi &&& crRight) p = sum i) :
  containsLoop segments segmentNum maybe crLeft crRight columns
    = some (decide (∀ i ∈ columns, sum i = 0))
  := by
  induction columns with
  | nil => simp [containsLoop]
  | cons i columns ih =>
      obtain ⟨lo, hi, hlo, hhi, hsum⟩ := hread i (List.mem_cons_self ..)
      rw [containsLoop, hlo, hhi]
      simp only [Option.bind_eq_bind, Option.bind_some]
      by_cases heven : (lo &&& crLeft ||| hi &&& crRight).cpop.toNat % 2 = 0
      · have hzero : sum i = 0 := by
          rw [← hsum]
          apply (cpop_mod_two_eq_zero_iff _).mp heven
        rw [if_neg (not_not.mpr heven), ih (fun k hk => hread k (List.mem_cons_of_mem _ hk))]
        simp [hzero]
      · have hne : sum i ≠ 0 := by
          rw [← hsum]
          exact fun h => heven ((cpop_mod_two_eq_zero_iff _).mpr h)
        rw [if_pos heven]
        simp [hne]

/-- A query never reads out of bounds, and is true exactly when every column of the
segments satisfies the equation of the key. -/
theorem contains_eq {s : Solution R} {n : ℕ} (hs : s.WellFormed n) (key : U64) :
  s.contains key = some (decide (∀ j < R, s.columnSum key j = 0))
  := by
  have hle := start_add_le hs.slots (ribbonHash key s.rawSeed)
  rw [← hs.starts] at hle
  rw [contains, containsLoop_eq (s.columnSum key)]
  · simp
  · intro j hj
    apply exists_words hs.blocks hs.segments (by decide) hle _ (List.mem_range.mp hj)

end Solution

/-! ### The solution of a matrix -/

namespace Banding

variable {R : ℕ}

theorem solve_wellFormed {b : Banding R} (hb : b.WellFormed) :
  b.solve.WellFormed b.numSlots
  where
  blocks := hb.blocks
  slots := hb.slots
  starts := hb.starts
  segments := length_backSubstitute R b.solveRows hb.blocks

/-- Back-substitution reads the rows of the matrix, with the fill at the empty slots. -/
theorem reads_solveRows (b : Banding R) :
  Reads b.solveRows b.table (fillRow 0)
  where
  coeff i := by rw [table_apply, solveRows]
  result i hi := by
    rw [table_apply] at hi ⊢
    rw [solveRows, fillRow, if_neg hi, bit_zero, bit_zero]
  fill i hi := by
    rw [table_apply] at hi
    apply congrArg (fun cr => fillRow cr i) hi

/-- Matrices that hold the same keys have the same solution. -/
theorem Holds.solve_unique {b b' : Banding R} {n : ℕ} {seed : U64} {keys : Set U64}
    (h : b.Holds n seed keys) (h' : b'.Holds n seed keys) :
  b'.solve = b.solve
  := by
  have hstarts : b'.numStarts = b.numStarts := by
    rw [h.numStarts_eq, h'.numStarts_eq]
  have hspan : b'.table.span = b.table.span := by
    rw [h.span, h'.span, hstarts]
  have ht := h.wellFormed.table
  have ht' := h'.wellFormed.table
  have hblocks := h.wellFormed.blocks
  rw [h.slots] at ht hblocks
  rw [h'.slots] at ht'
  have hsegments : b'.backSubstitute = b.backSubstitute := by
    rw [backSubstitute, backSubstitute, h.slots, h'.slots]
    apply b.reads_solveRows.backSubstitute_eq b'.reads_solveRows (by decide) ht ht' hspan hblocks R
  rw [solve, solve, hstarts, h.rawSeed, h'.rawSeed, hsegments]

/-- A key whose equation is in the span of the stored rows is found. -/
theorem contains_of_mem_span {b : Banding R} (hb : b.WellFormed) {key : U64}
    (hkey : keyEquation b.numStarts b.rawSeed key ∈ b.table.span) :
  b.solve.contains key = some true
  := by
  rw [Solution.contains_eq (solve_wellFormed hb)]
  congr 1
  rw [decide_eq_true_iff]
  intro j hj
  have hle := start_add_le hb.slots (ribbonHash key b.rawSeed)
  rw [← hb.starts] at hle
  have hsum := b.reads_solveRows.sum_cell_eq hb.table hb.blocks hkey hle hj
  rw [bit_zero] at hsum
  apply hsum

/-- The solution of a matrix answers yes for every key it holds. -/
theorem Holds.contains {b : Banding R} {n : ℕ} {seed : U64} {keys : Set U64}
    (h : b.Holds n seed keys) {key : U64} (hkey : key ∈ keys) :
  b.solve.contains key = some true
  := contains_of_mem_span h.wellFormed (h.keyEquation_mem hkey)

end Banding

end Pleat
