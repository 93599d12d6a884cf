import Pleat.Batch
import Pleat.Standard.Banding

/-!
# The standard solution

The queryable solution of a standard band matrix (`banding128.rs`).  A query is true
exactly when every column of the segments satisfies the equation of the key.  The solution
of a matrix answers yes for the keys it holds, and is determined by the number of slots,
the ordinal seed and the set of those keys.
-/

namespace Pleat

open Bits Linear

/-- The solved segments, with what a query needs to place a key. -/
structure Solution128 (R : ℕ) where
  segments : List U128
  numStarts : U64
  rawSeed : U32
  ordinalSeed : U32
  deriving DecidableEq

namespace Banding128

variable {R : ℕ}

/-- Back-substitute with the stored result rows. -/
def backSubstitute (b : Banding128 R) : List U128 :=
  Pleat.backSubstitute R b.numSlots (fun i => (b.coeffRows.getD i 0, b.resultRows.getD i 0))

/-- Back-substitute and keep what queries need. -/
def intoSolution (b : Banding128 R) : Solution128 R where
  segments := b.backSubstitute
  numStarts := b.numStarts
  rawSeed := b.rawSeed
  ordinalSeed := b.ordinalSeed

end Banding128

namespace Solution128

variable {R : ℕ}

/-- What is serialized: the number of starts, the ordinal seed and the segments. -/
def parts (s : Solution128 R) : U64 × U32 × List U128 :=
  (s.numStarts, s.ordinalSeed, s.segments)

/-- The solution of deserialized parts; the raw seed is computed from the ordinal one. -/
def fromParts (numStarts : U64) (ordinalSeed : U32) (segments : List U128) : Solution128 R where
  segments := segments
  numStarts := numStarts
  rawSeed := ordinalToRawSeed ordinalSeed
  ordinalSeed := ordinalSeed

/-- The loop of `contains` over the columns that are left: the parity of a column, folded
to one word, must be its bit of the expected result row. -/
def containsLoop (lo hi : List U128) (crLeft crRight : U128) (expected : U32) :
    List ℕ → Option Bool
  | [] => some true
  | i :: columns => do
      let loI ← lo[i]?
      let hiI ← hi[i]?
      let soln := loI &&& crLeft ||| hiI &&& crRight
      let folded : U64 := soln.setWidth 64 ^^^ (soln >>> 64).setWidth 64
      let parity := folded.cpop.toNat % 2
      if parity ≠ (expected >>> i &&& 1).toNat then
        some false
      else
        containsLoop lo hi crLeft crRight expected columns

/-- Is the key possibly in the set?  A slice out of bounds is `none`. -/
def contains (s : Solution128 R) (key : U64) : Option Bool := do
  let h := ribbonHash key (s.rawSeed.setWidth 64)
  let startSlot := (start h s.numStarts).toNat
  let seg := startSlot / W128 * R
  let startBit := startSlot % W128
  let cr := coeffRow128 h
  let expected := resultRow h
  let crLeft := cr <<< startBit
  let crRight := cr >>> ((W128 - startBit) % W128)
  let maybe := if startBit ≠ 0 then R else 0
  let lo ← slice s.segments seg (seg + R)
  let hi ← slice s.segments (seg + maybe) (seg + maybe + R)
  containsLoop lo hi crLeft crRight expected (List.range R)

/-- The segments that are prefetched for a key; an index out of bounds is passed over. -/
def prefetch (s : Solution128 R) (key : U64) : List ℕ :=
  let startSlot := (start (ribbonHash key (s.rawSeed.setWidth 64)) s.numStarts).toNat
  let seg := startSlot / W128 * R
  (prefetchIndices R 4 seg).filter (· < s.segments.length)

/-- Write to `out` for each key whether it is possibly in the set. -/
def containsBatch (s : Solution128 R) (keys : List U64) (out : List Bool) : Option (List Bool) :=
  batch (fun key => some (s.prefetch key)) s.contains keys out

/-- Keep the segments that `relocate` returns; there must be as many. -/
def relocateStorage (relocate : List U128 → List U128) (s : Solution128 R) : Option (Solution128 R) :=
  let segments := relocate s.segments
  if segments.length = s.segments.length then some { s with segments } else none

/-! ### Queries -/

/-- The segments cover a table of `n` slots. -/
structure WellFormed (s : Solution128 R) (n : ℕ) : Prop where
  blocks : n % W128 = 0
  slots : W128 ≤ n
  starts : s.numStarts = BitVec.ofNat 64 (n - W128 + 1)
  segments : s.segments.length = n / W128 * R

/-- The number of slots of the table a solution is for: `num_starts + W128 - 1`. -/
def numSlots (s : Solution128 R) : ℕ :=
  s.numStarts.toNat + W128 - 1

/-- The geometry of a solution is consistent, whatever its segments hold: its slots are whole
blocks, at least two, and there is a segment for each block and column. -/
structure Valid (s : Solution128 R) : Prop where
  blocks : s.numSlots % W128 = 0
  slots : 2 * W128 ≤ s.numSlots
  segments : s.segments.length = s.numSlots / W128 * R

theorem Valid.wellFormed {s : Solution128 R} (h : s.Valid) :
  s.WellFormed s.numSlots
  := by
  have hslots := h.slots
  have hW : 0 < W128 := by decide
  have hstarts : s.numSlots - W128 + 1 = s.numStarts.toNat := by
    rw [numSlots] at hslots ⊢
    omega
  refine ⟨h.blocks, by omega, ?_, h.segments⟩
  rw [hstarts, BitVec.ofNat_toNat, BitVec.setWidth_eq]

/-- The sum of the bits of column `j` that the row of a key selects. -/
def columnSum (s : Solution128 R) (key : U64) (j : ℕ) : Gf2 :=
  let h := ribbonHash key (s.rawSeed.setWidth 64)
  ∑ k ∈ Finset.range W128,
    bit (coeffRow128 h) k * cell R s.segments ((start h s.numStarts).toNat + k) j

theorem containsLoop_eq {lo hi : List U128} {crLeft crRight : U128} {expected : U32}
    (sum : ℕ → Gf2) (columns : List ℕ)
    (hread : ∀ i ∈ columns, ∃ loI hiI, lo[i]? = some loI ∧ hi[i]? = some hiI
      ∧ ∑ p ∈ Finset.range W128, bit (loI &&& crLeft ||| hiI &&& crRight) p = sum i) :
  containsLoop lo hi crLeft crRight expected columns
    = some (decide (∀ i ∈ columns, sum i = bit expected i))
  := by
  induction columns with
  | nil => simp [containsLoop]
  | cons i columns ih =>
      obtain ⟨loI, hiI, hlo, hhi, hsum⟩ := hread i (List.mem_cons_self ..)
      have hparity := cpop_mod_two_eq_iff
        (BitVec.setWidth 64 (loI &&& crLeft ||| hiI &&& crRight)
          ^^^ BitVec.setWidth 64 ((loI &&& crLeft ||| hiI &&& crRight) >>> 64)) expected i
      rw [sum_bit_fold (m := 64), hsum] at hparity
      rw [containsLoop, hlo, hhi]
      simp only [Option.bind_eq_bind, Option.bind_some]
      by_cases hagree : sum i = bit expected i
      · rw [if_neg (not_not.mpr (hparity.mpr hagree)),
          ih (fun k hk => hread k (List.mem_cons_of_mem _ hk))]
        simp [hagree]
      · rw [if_pos (fun h => hagree (hparity.mp h))]
        simp [hagree]

/-- A query never reads out of bounds, and is true exactly when every column of the
segments satisfies the equation of the key. -/
theorem contains_eq {s : Solution128 R} {n : ℕ} (hs : s.WellFormed n) (key : U64) :
  s.contains key
    = some (decide (∀ j < R, s.columnSum key j
        = bit (resultRow (ribbonHash key (s.rawSeed.setWidth 64))) j))
  := by
  have hle := start_add_le hs.slots (ribbonHash key (s.rawSeed.setWidth 64))
  rw [← hs.starts] at hle
  obtain ⟨hlo, hhi⟩ := slices_le hs.blocks hs.segments (by decide) hle
  rw [contains]
  simp only [slice_eq_some (Nat.le_add_right _ R) hlo, slice_eq_some (Nat.le_add_right _ R) hhi,
    Option.bind_eq_bind, Option.bind_some, Nat.add_sub_cancel_left]
  rw [containsLoop_eq (s.columnSum key)]
  · simp
  · intro j hj
    have hjR := List.mem_range.mp hj
    obtain ⟨lo, hi, hread, hread', hsum⟩ := exists_words hs.blocks hs.segments (by decide) hle
      (coeffRow128 (ribbonHash key (s.rawSeed.setWidth 64))) hjR
    refine ⟨lo, hi, ?_, ?_, hsum⟩
    · rw [List.getElem?_take_of_lt hjR, List.getElem?_drop, hread]
    · rw [List.getElem?_take_of_lt hjR, List.getElem?_drop, hread']

end Solution128

/-! ### The solution of a matrix -/

namespace Banding128

variable {R : ℕ}

theorem backSubstitute_eq_table (b : Banding128 R) :
  b.backSubstitute = Pleat.backSubstitute R b.numSlots b.table
  := by
  have hrows : b.table = fun i => (b.coeffRows.getD i 0, b.resultRows.getD i 0) := by
    funext i
    rw [table_apply]
  rw [backSubstitute, hrows]

/-- Back-substitution reads the rows of the matrix, with result zero at the empty slots. -/
theorem Holds.reads {b : Banding128 R} {n : ℕ} {ordinal : U32} {keys : Set U64}
    (h : b.Holds n ordinal keys) :
  Reads b.table b.table 0
  where
  coeff _ := rfl
  result _ _ := rfl
  fill i hi := h.table.empty i hi

theorem Holds.intoSolution_wellFormed {b : Banding128 R} {n : ℕ} {ordinal : U32} {keys : Set U64}
    (h : b.Holds n ordinal keys) :
  b.intoSolution.WellFormed n
  where
  blocks := h.shape.blocks
  slots := h.shape.slots
  starts := h.shape.starts
  segments := by
    rw [intoSolution, backSubstitute, numSlots, h.shape.coeffs,
      length_backSubstitute R _ h.shape.blocks]

/-- Matrices that hold the same keys have the same solution. -/
theorem Holds.intoSolution_unique {b b' : Banding128 R} {n : ℕ} {ordinal : U32} {keys : Set U64}
    (h : b.Holds n ordinal keys) (h' : b'.Holds n ordinal keys) :
  b'.intoSolution = b.intoSolution
  := by
  have hspan : b'.table.span = b.table.span := by
    rw [h.span, h'.span]
  have hsegments : b'.backSubstitute = b.backSubstitute := by
    rw [backSubstitute_eq_table, backSubstitute_eq_table, numSlots, numSlots, h.shape.coeffs,
      h'.shape.coeffs]
    apply h.reads.backSubstitute_eq h'.reads (by decide) h.table h'.table hspan h.shape.blocks R
  rw [intoSolution, intoSolution, hsegments, h.shape.starts, h'.shape.starts, h.rawSeed,
    h'.rawSeed, h.ordinalSeed, h'.ordinalSeed]

/-- The solution of a matrix answers yes for every key it holds. -/
theorem Holds.contains {b : Banding128 R} {n : ℕ} {ordinal : U32} {keys : Set U64}
    (h : b.Holds n ordinal keys) {key : U64} (hkey : key ∈ keys) :
  b.intoSolution.contains key = some true
  := by
  rw [Solution128.contains_eq h.intoSolution_wellFormed]
  congr 1
  rw [decide_eq_true_iff]
  intro j hj
  have hmem : keyEquation b.numStarts b.rawSeed key ∈ b.table.span := by
    rw [h.span]
    apply Submodule.subset_span (h.keyEquation_mem_system hkey)
  have hle := start_add_le h.shape.slots (ribbonHash key (b.rawSeed.setWidth 64))
  rw [← h.shape.starts] at hle
  have hsum := h.reads.sum_cell_eq h.table h.shape.blocks hmem hle hj
  rw [← h.shape.coeffs, ← numSlots, ← backSubstitute_eq_table] at hsum
  apply hsum

end Banding128

end Pleat
