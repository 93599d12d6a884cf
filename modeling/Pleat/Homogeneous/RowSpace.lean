import Pleat.Homogeneous.Banding

/-!
# The row space of homogeneous insertions

The row stored at a slot is a vector over the field with two elements, its word placed at
the slot.  In every matrix that insertions reach from an empty one, the stored rows are
linearly independent and span the rows of the keys inserted; the next key is always
accepted, and either it fills one empty slot or its row was already in the span and the
matrix is left as it is.  So the occupied slots are the leading columns of the span.
-/

namespace Pleat

open Bits Linear

namespace Banding

variable {R n : ℕ} {seed : U64} {keys : List U64} {b : Banding R}

/-- The matrices reached from an empty one of `n` slots by inserting the keys of a list. -/
inductive Reachable (R n : ℕ) (seed : U64) : List U64 → Banding R → Prop
  | new {b : Banding R} (h : Banding.new R n seed = some b) : Reachable R n seed [] b
  | add {keys : List U64} {b b' : Banding R} {key : U64} {ok : Bool} (h : Reachable R n seed keys b)
      (hadd : b.add key = some (b', ok)) : Reachable R n seed (keys ++ [key]) b'

/-- The row stored at a slot. -/
noncomputable def row (b : Banding R) (i : ℕ) : ℕ →₀ Gf2 :=
  place i (b.coeffRows.getD i 0)

/-- The occupied slots. -/
def occupied (b : Banding R) : Set ℕ :=
  {i | b.coeffRows.getD i 0 ≠ 0}

/-- The row of a key: its coefficient row placed at its start slot. -/
noncomputable def keyRow (b : Banding R) (key : U64) : ℕ →₀ Gf2 :=
  let h := ribbonHash key b.rawSeed
  place (start h b.numStarts).toNat (coeffRow h)

/-- The span of the rows of the keys of a list. -/
noncomputable def keySpan (b : Banding R) (keys : List U64) : Submodule Gf2 (ℕ →₀ Gf2) :=
  Submodule.span Gf2 (b.keyRow '' {key | key ∈ keys})

/-! ### Rows and equations -/

/-- The equation with a row for its coefficients and no result. -/
noncomputable abbrev homogeneous : (ℕ →₀ Gf2) →ₗ[Gf2] RowEquation :=
  LinearMap.inl Gf2 (ℕ →₀ Gf2) (ℕ → Gf2)

theorem equationAt_eq_homogeneous (i : ℕ) (c : U64) :
  equationAt i c (0 : BitVec 0) = homogeneous (place i c)
  := by
  rw [equationAt, bit_zero]
  rfl

theorem span_eq_map (b : Banding R) :
  b.table.span = (Submodule.span Gf2 (Set.range b.row)).map homogeneous
  := by
  rw [Table.span, Submodule.map_span, ← Set.range_comp]
  congr 2
  funext i
  rw [Table.equation, table_apply]
  apply equationAt_eq_homogeneous

/-- An empty slot adds nothing to the span. -/
theorem span_row (b : Banding R) :
  Submodule.span Gf2 (Set.range b.row) = Submodule.span Gf2 (b.row '' b.occupied)
  := by
  apply le_antisymm
  · apply Submodule.span_le.mpr
    rintro _ ⟨i, rfl⟩
    by_cases hi : b.coeffRows.getD i 0 = 0
    · rw [row, hi, place_zero]
      apply Submodule.zero_mem
    · exact Submodule.subset_span ⟨i, hi, rfl⟩
  · apply Submodule.span_mono (Set.image_subset_range _ _)

theorem homogeneous_injective :
  Function.Injective homogeneous
  := LinearMap.inl_injective

theorem keyEquation_eq (b : Banding R) (key : U64) :
  keyEquation b.numStarts b.rawSeed key = homogeneous (b.keyRow key)
  := equationAt_eq_homogeneous ..

/-- The row of a key is in the span of the rows exactly when its equation is in the span of the
equations. -/
theorem keyEquation_mem_iff (b : Banding R) (key : U64) :
  keyEquation b.numStarts b.rawSeed key ∈ b.table.span
    ↔ b.keyRow key ∈ Submodule.span Gf2 (Set.range b.row)
  := by
  rw [keyEquation_eq, span_eq_map]
  exact homogeneous_injective.mem_set_image

/-- The rows of a matrix that holds keys span the rows of the keys. -/
theorem Holds.span_row {b : Banding R} (h : b.Holds n seed {key | key ∈ keys}) :
  Submodule.span Gf2 (Set.range b.row) = b.keySpan keys
  := by
  apply Submodule.map_injective_of_injective homogeneous_injective
  rw [← span_eq_map, h.span, keySpan, Submodule.map_span, Set.image_image, keyEquations,
    ← h.rawSeed]
  simp only [keyEquation_eq]

/-! ### Reachable matrices -/

/-- Every reachable matrix holds the keys inserted. -/
theorem Reachable.holds (h : Reachable R n seed keys b) :
  b.Holds n seed {key | key ∈ keys}
  := by
  induction h with
  | @new b hnew =>
      have hslots : n % W = 0 ∧ W ≤ n := by
        rw [Banding.new] at hnew
        split at hnew
        · assumption
        · nomatch hnew
      obtain ⟨b', hnew', hb'⟩ := exists_new R seed hslots.1 hslots.2
      rw [hnew, Option.some.injEq] at hnew'
      rw [hnew']
      simpa using hb'
  | @add keys b b' key ok _ hadd ih =>
      obtain ⟨b'', hadd', hb'⟩ := ih.add key
      rw [hadd, Option.some.injEq, Prod.mk.injEq] at hadd'
      rw [hadd'.1]
      have hset : {k | k ∈ keys ++ [key]} = insert key {k | k ∈ keys} := by
        ext k
        simp [or_comm]
      rwa [hset]

/-- The stored rows are linearly independent. -/
theorem WellFormed.linearIndepOn (hb : b.WellFormed) :
  LinearIndepOn Gf2 b.row b.occupied
  := by
  have hindep := (b.table.echelon hb.table).linearIndepOn
  have hset : ((b.table.echelon hb.table).pivots : Set ℕ) = b.occupied := by
    ext i
    rw [Finset.mem_coe, Table.mem_pivots_echelon, table_apply]
    exact Iff.rfl
  rw [hset] at hindep
  convert hindep using 1
  funext i
  change b.row i = (b.table.equation i).1
  rw [Table.equation, table_apply]
  rfl

/-- The occupied slots are the leading columns of the span. -/
theorem WellFormed.mem_occupied_iff (hb : b.WellFormed) (i : ℕ) :
  i ∈ b.occupied ↔ ∃ v ∈ Submodule.span Gf2 (Set.range b.row), Leads i v
  := by
  have hleads := hb.table.occupied_iff i
  rw [table_apply, span_eq_map] at hleads
  apply hleads.trans
  constructor
  · rintro ⟨_, ⟨v, hv, rfl⟩, hlead⟩
    exact ⟨v, hv, hlead⟩
  · rintro ⟨v, hv, hlead⟩
    exact ⟨_, ⟨v, hv, rfl⟩, hlead⟩

/-- The next key is accepted.  Its row was in the span and the matrix is left as it is, or it
was not and one empty slot is filled. -/
theorem WellFormed.add_cases (hb : b.WellFormed) (key : U64) :
  ∃ b', b.add key = some (b', true)
    ∧ ((b' = b ∧ b.keyRow key ∈ Submodule.span Gf2 (Set.range b.row))
      ∨ ∃ i c, b.coeffRows[i]? = some 0 ∧ c ≠ 0 ∧ b' = { b with coeffRows := b.coeffRows.set i c }
        ∧ b.keyRow key ∉ Submodule.span Gf2 (Set.range b.row))
  := by
  obtain ⟨rows, hadd, hlen, hins⟩ := add_insertion hb key
  refine ⟨_, hadd, ?_⟩
  rcases hins.accepted hb.table with ⟨hsame, hmem⟩ | ⟨i, c, r, hi, hc, hset, hmem⟩
  · left
    rw [eq_of_rowsTable_eq hlen hsame]
    exact ⟨rfl, (b.keyEquation_mem_iff key).mp hmem⟩
  · right
    have hslot : i < b.coeffRows.length := hc.slot_lt
    have hrows : rows = b.coeffRows.set i c := by
      apply eq_of_rowsTable_eq (by rw [hlen, List.length_set]; rfl)
      rw [hset, rowsTable_set hslot, BitVec.eq_nil r]
    refine ⟨i, c, ?_, hc.ne_zero, by rw [hrows], fun h => hmem ((b.keyEquation_mem_iff key).mpr h)⟩
    rw [table_apply, List.getD_eq_getElem?_getD, List.getElem?_eq_getElem hslot] at hi
    rw [List.getElem?_eq_getElem hslot]
    apply congrArg some hi

/-- The rows of the matrix and of the keys are rows over its columns. -/
theorem WellFormed.support_subset (hb : b.WellFormed) :
  (∀ i, (b.row i).support ⊆ Finset.range b.numSlots)
    ∧ ∀ key, (b.keyRow key).support ⊆ Finset.range b.numSlots
  := by
  constructor
  · intro i
    rw [row]
    by_cases hi : b.coeffRows.getD i 0 = 0
    · rw [hi, place_zero]
      apply Finset.empty_subset
    · have hwithin := hb.table.within i
      rw [table_apply] at hwithin
      apply (hwithin hi).support_subset
  · intro key
    apply (hb.within_start key).support_subset

/-- In every reachable matrix the stored rows are linearly independent rows over its columns
and span the rows of the keys inserted, whose leading columns are the occupied slots.  The
next key is accepted; it changes at most one slot, an empty one, and none exactly when its
row is a combination of the rows of the earlier keys. -/
theorem Reachable.row_space (h : Reachable R n seed keys b) (key : U64) :
  (∀ i, (b.row i).support ⊆ Finset.range n)
  ∧ (∀ k, (b.keyRow k).support ⊆ Finset.range n)
  ∧ LinearIndepOn Gf2 b.row b.occupied
  ∧ Submodule.span Gf2 (b.row '' b.occupied) = b.keySpan keys
  ∧ (∀ i, i ∈ b.occupied ↔ ∃ v ∈ b.keySpan keys, Leads i v)
  ∧ ∃ b', b.add key = some (b', true)
    ∧ (b' = b ∨ ∃ i c, b.coeffRows[i]? = some 0
        ∧ b' = { b with coeffRows := b.coeffRows.set i c })
    ∧ (b' = b ↔ b.keyRow key ∈ b.keySpan keys)
  := by
  have hb := h.holds.wellFormed
  have hspan := h.holds.span_row
  obtain ⟨hrows, hkeyRows⟩ := hb.support_subset
  rw [h.holds.slots] at hrows hkeyRows
  refine ⟨hrows, hkeyRows, hb.linearIndepOn, ?_, ?_, ?_⟩
  · rw [← span_row, hspan]
  · rw [← hspan]
    apply hb.mem_occupied_iff
  · rw [← hspan]
    obtain ⟨b', hadd, ⟨rfl, hmem⟩ | ⟨i, c, hi, hc, rfl, hmem⟩⟩ := hb.add_cases key
    · exact ⟨b', hadd, .inl rfl, iff_of_true rfl hmem⟩
    · refine ⟨_, hadd, .inr ⟨i, c, hi, rfl⟩, iff_of_false ?_ hmem⟩
      intro heq
      have hset : b.coeffRows.set i c = b.coeffRows := congrArg Banding.coeffRows heq
      obtain ⟨hlt, -⟩ := List.getElem?_eq_some_iff.mp hi
      rw [← hset, List.getElem?_set_self hlt] at hi
      apply hc (Option.some_injective _ hi)

/-- A matrix of two blocks in which one key is inserted, and the next key. -/
theorem Reachable.row_space_five :
  ∃ b : Banding 3, Reachable 3 128 0 [5] b ∧ LinearIndepOn Gf2 b.row b.occupied
    ∧ ∃ b', b.add 7 = some (b', true)
  := by
  have hblocks : 128 % W = 0 := by decide
  have hslots : W ≤ 128 := by decide
  obtain ⟨b, hnew, hb⟩ := exists_new 3 0 hblocks hslots
  obtain ⟨b₁, hadd, -⟩ := hb.add 5
  have hreach : Reachable 3 128 0 [5] b₁ := .add (.new hnew) hadd
  obtain ⟨-, -, hindep, -, -, b', hadd', -⟩ := Reachable.row_space hreach 7
  exact ⟨b₁, hreach, hindep, b', hadd'⟩

end Banding

end Pleat
