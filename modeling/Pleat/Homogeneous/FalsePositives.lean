import Pleat.Homogeneous.RowSpace
import Pleat.Homogeneous.Solution
import Pleat.Linear.Freedom
import Pleat.Sizing

/-!
# Keys that are found whatever the fill

Back-substitution takes pseudorandom data at the empty slots, and what a query for a key
that was not inserted returns depends on it.  A key whose row is a combination of the rows
of the keys inserted is found whatever the data.  Of any other keys, with rows that are
independent modulo those, the share of the fills that find them all is exactly one in
`2 ^ R` for each key.  The source takes one of these fills, a multiple of the number of the
slot.
-/

namespace Pleat

open Bits Linear

namespace Banding

variable {R n : ℕ} {seed : U64} {keys : List U64} {b : Banding R}

/-! ### Solving with a given fill -/

/-- The rows that back-substitution reads when it takes `fill` at the empty slots. -/
def rowsWith (b : Banding R) (fill : ℕ → U32) : Table 64 32 :=
  fun i => (b.coeffRows.getD i 0, if b.coeffRows.getD i 0 = 0 then fill i else 0)

/-- Back-substitution with `fill` at the empty slots. -/
def solveWith (b : Banding R) (fill : ℕ → U32) : Solution R where
  segments := Pleat.backSubstitute R b.numSlots (b.rowsWith fill)
  numStarts := b.numStarts
  rawSeed := b.rawSeed

/-- What the source takes at a slot: the low half of a multiple of its number. -/
def slotFill (i : ℕ) : U32 :=
  (BitVec.ofNat 64 i * 0x9E3779B185EBCA87 : U64).setWidth 32

/-- What is shown of every fill holds of the one that the source takes. -/
theorem solve_eq_solveWith (b : Banding R) :
  b.solve = b.solveWith slotFill
  := rfl

theorem solveWith_wellFormed (hb : b.WellFormed) (fill : ℕ → U32) :
  (b.solveWith fill).WellFormed b.numSlots
  where
  blocks := hb.blocks
  slots := hb.slots
  starts := hb.starts
  segments := length_backSubstitute R (b.rowsWith fill) hb.blocks

theorem reads_rowsWith (b : Banding R) (fill : ℕ → U32) :
  Reads (b.rowsWith fill) b.table fill
  where
  coeff i := by rw [table_apply, rowsWith]
  result i hi := by
    rw [table_apply] at hi ⊢
    rw [rowsWith, if_neg hi, bit_zero, bit_zero]
  fill i hi := by
    rw [table_apply] at hi
    apply if_pos hi

/-- The bits of a column at the slots of the table, zero beyond them. -/
def fillColumn (n : ℕ) (fill : ℕ → U32) (j : ℕ) (i : ℕ) : Gf2 :=
  if i < n then bit (fill i) j else 0

/-- A column of the solution extends the fill of the empty slots. -/
theorem solutionBit_eq_extend (hb : b.WellFormed) (fill : ℕ → U32) (j : ℕ) :
  solutionBit b.numSlots (b.rowsWith fill) j
    = (b.table.echelon hb.table).extend (fillColumn b.numSlots fill j)
  := by
  apply Echelon.eq_extend
  · have hsolves := (b.reads_rowsWith fill).solves hb.table j
    rw [Table.solves_echelon_iff] at hsolves ⊢
    intro i hi
    rw [hsolves i hi, BitVec.eq_nil (b.table i).2, bit_eq_zero_iff.mpr rfl, map_zero, map_zero]
  · intro i hi
    rw [Table.mem_pivots_echelon, not_not] at hi
    rw [fillColumn]
    split_ifs with hlt
    · apply (b.reads_rowsWith fill).solutionBit_of_empty (by decide) hlt hi
    · apply solutionBit_of_ge (by omega)

/-- What a query sums in a column is the row of its key applied to that column. -/
theorem columnSum_eq (hb : b.WellFormed) (fill : ℕ → U32) (key : U64) {j : ℕ} (hj : j < R) :
  (b.solveWith fill).columnSum key j
    = Finsupp.linearCombination Gf2
        ((b.table.echelon hb.table).extend (fillColumn b.numSlots fill j)) (b.keyRow key)
  := by
  have hle := start_add_le hb.slots (ribbonHash key b.rawSeed)
  rw [← hb.starts] at hle
  rw [← solutionBit_eq_extend hb, keyRow, linearCombination_place]
  apply Finset.sum_congr rfl
  intro k hk
  have hlt := Finset.mem_range.mp hk
  rw [smul_eq_mul]
  congr 1
  apply cell_backSubstitute (b.rowsWith fill) hb.blocks _ hj
  change (start (ribbonHash key b.rawSeed) b.numStarts).toNat + k < b.numSlots
  omega

/-- A query returns yes exactly when the row of its key, applied to every column, is zero. -/
theorem contains_solveWith_iff (hb : b.WellFormed) (fill : ℕ → U32) (key : U64) :
  (b.solveWith fill).contains key = some true
    ↔ ∀ j < R, Finsupp.linearCombination Gf2
        ((b.table.echelon hb.table).extend (fillColumn b.numSlots fill j)) (b.keyRow key) = 0
  := by
  rw [Solution.contains_eq (solveWith_wellFormed hb fill), Option.some.injEq, decide_eq_true_iff]
  apply forall₂_congr
  intro j hj
  rw [columnSum_eq hb fill key hj]

/-! ### Counting the fills -/

/-- The fill of a table of `n` slots. -/
def fillOf (words : Fin n → U32) (i : ℕ) : U32 :=
  if h : i < n then words ⟨i, h⟩ else 0

theorem fillColumn_fillOf (words : Fin n → U32) {j : ℕ} (hj : j < 32) :
  fillColumn n (fillOf words) j
    = Function.extend Fin.val (fun i => bits (words i) ⟨j, hj⟩) 0
  := by
  funext i
  rw [fillColumn]
  split_ifs with hi
  · have happly := Fin.val_injective.extend_apply (fun i => bits (words i) ⟨j, hj⟩) 0 ⟨i, hi⟩
    rw [happly, fillOf, dif_pos hi]
    rfl
  · rw [Function.extend_apply']
    · rfl
    · rintro ⟨k, rfl⟩
      apply hi k.isLt

/-- The bits of the words of a fill, as a family. -/
noncomputable def bitsOfFill (n : ℕ) : (Fin n → U32) ≃ (Fin n → Fin 32 → Gf2) :=
  Equiv.piCongrRight fun _ => Equiv.ofBijective bits bits_bijective

/-- What the queries for the keys of a family sum in every column, as a function of the bits of
the fill. -/
noncomputable def querySums (hb : b.WellFormed) (hR : R ≤ 32) {m : ℕ} (queries : Fin m → U64) :
    (Fin b.numSlots → Fin 32 → Gf2) →+ (Fin m → Fin R → Gf2) :=
  (b.table.echelon hb.table).combinations Fin.val (Fin.castLE hR) (fun a => b.keyRow (queries a))

/-- The keys are all found exactly when all these sums are zero. -/
theorem contains_all_iff (hb : b.WellFormed) (hR : R ≤ 32) {m : ℕ} (queries : Fin m → U64)
    (words : Fin b.numSlots → U32) :
  (∀ a, (b.solveWith (fillOf words)).contains (queries a) = some true)
    ↔ querySums hb hR queries (bitsOfFill b.numSlots words) = 0
  := by
  constructor
  · intro h
    funext a j
    have hzero := (contains_solveWith_iff hb _ (queries a)).mp (h a) j j.isLt
    rw [fillColumn_fillOf words (lt_of_lt_of_le j.isLt hR)] at hzero
    apply hzero
  · intro h a
    rw [contains_solveWith_iff hb]
    intro j hj
    rw [fillColumn_fillOf words (lt_of_lt_of_le hj hR)]
    apply congrFun (congrFun h a) ⟨j, hj⟩

/-- A row over the columns of the table has its support among the slots. -/
theorem support_subset_range {v : ℕ →₀ Gf2} (hv : v.support ⊆ Finset.range n) :
  (v.support : Set ℕ) ⊆ Set.range (Fin.val : Fin n → ℕ)
  := by
  intro i hi
  exact ⟨⟨i, Finset.mem_range.mp (hv hi)⟩, rfl⟩

theorem WellFormed.equation_fst (hb : b.WellFormed) (i : ℕ) :
  ((b.table.echelon hb.table).equation i).1 = b.row i
  := by
  change (b.table.equation i).1 = b.row i
  rw [Table.equation, table_apply]
  rfl

/-- Rows that are independent modulo the stored ones take all sums. -/
theorem querySums_surjective (hb : b.WellFormed) (hR : R ≤ 32) {m : ℕ} {queries : Fin m → U64}
    (hindep : LinearIndependent Gf2
      (fun a => (Submodule.span Gf2 (Set.range b.row)).mkQ (b.keyRow (queries a)))) :
  Function.Surjective (querySums hb hR queries)
  := by
  obtain ⟨hrows, hkeyRows⟩ := hb.support_subset
  apply Echelon.combinations_surjective Fin.val_injective (Fin.castLE_injective hR) _ _ _ hindep
  · intro i _
    rw [hb.equation_fst]
    exact Submodule.subset_span ⟨i, rfl⟩
  · intro i _
    rw [hb.equation_fst]
    apply support_subset_range (hrows i)
  · intro a
    apply support_subset_range (hkeyRows _)

/-- Of any keys whose rows are independent modulo the rows of the keys inserted, exactly one
fill in `2 ^ R` for each key finds them all.  This is the share among all fills; the source
takes the fill `slotFill` alone. -/
theorem Reachable.card_accepting_fills (h : Reachable R n seed keys b) (hR : R ≤ 32) {m : ℕ}
    {queries : Fin m → U64}
    (hindep : LinearIndependent Gf2 (fun a => (b.keySpan keys).mkQ (b.keyRow (queries a)))) :
  Nat.card {words : Fin n → U32 //
      ∀ a, (b.solveWith (fillOf words)).contains (queries a) = some true} * 2 ^ (m * R)
    = Nat.card (Fin n → U32)
  := by
  obtain rfl := h.holds.slots
  have hb := h.holds.wellFormed
  rw [← h.holds.span_row] at hindep
  have hcount := Echelon.card_combinations_eq_zero (querySums_surjective hb hR hindep)
  have htargets : Nat.card (Fin m → Fin R → Gf2) = 2 ^ (m * R) := by
    simp [mul_comm m R, pow_mul]
  rw [htargets, ← Nat.card_congr (bitsOfFill b.numSlots)] at hcount
  rw [← hcount]
  congr 1
  apply Nat.card_congr
  apply (bitsOfFill b.numSlots).subtypeEquiv
  intro words
  apply contains_all_iff hb hR

/-- A key whose row is not a combination of those of the keys inserted. -/
theorem linearIndependent_single {key : U64} (hkey : b.keyRow key ∉ b.keySpan keys) :
  LinearIndependent Gf2 (fun _ : Fin 1 => (b.keySpan keys).mkQ (b.keyRow key))
  := by
  rw [linearIndependent_unique_iff, Submodule.mkQ_apply, ne_eq, Submodule.Quotient.mk_eq_zero]
  apply hkey

/-- A key whose row is a combination of the stored ones is found whatever the fill. -/
theorem WellFormed.contains_solveWith (hb : b.WellFormed) {key : U64}
    (hkey : b.keyRow key ∈ Submodule.span Gf2 (Set.range b.row)) (fill : ℕ → U32) :
  (b.solveWith fill).contains key = some true
  := by
  rw [Solution.contains_eq (solveWith_wellFormed hb fill), Option.some.injEq, decide_eq_true_iff]
  intro j hj
  have hle := start_add_le hb.slots (ribbonHash key b.rawSeed)
  rw [← hb.starts] at hle
  have hsum := (b.reads_rowsWith fill).sum_cell_eq hb.table hb.blocks
    ((b.keyEquation_mem_iff key).mpr hkey) hle hj
  rw [bit_zero] at hsum
  apply hsum

/-- A key is found whatever the fill exactly when its row is a combination of the rows of the
keys inserted. -/
theorem Reachable.contains_every_fill_iff (h : Reachable R n seed keys b) (hR : checkWidth R)
    (key : U64) :
  (∀ fill, (b.solveWith fill).contains key = some true) ↔ b.keyRow key ∈ b.keySpan keys
  := by
  constructor
  · intro hall
    by_contra hkey
    obtain rfl := h.holds.slots
    have hb := h.holds.wellFormed
    have hindep := linearIndependent_single hkey
    rw [← h.holds.span_row] at hindep
    -- Some fill makes all sums of the query one.
    obtain ⟨fill, hfill⟩ := querySums_surjective hb hR.2 hindep 1
    have hzero := (contains_all_iff hb hR.2 (fun _ : Fin 1 => key)
      ((bitsOfFill b.numSlots).symm fill)).mp fun _ => hall _
    rw [Equiv.apply_symm_apply, hfill] at hzero
    apply one_ne_zero (congrFun (congrFun hzero 0) ⟨0, hR.1⟩)
  · intro hkey fill
    rw [← h.holds.span_row] at hkey
    apply h.holds.wellFormed.contains_solveWith hkey

/-- The row of the key 7 leads before the row of the key 5. -/
theorem keyRow_seven_not_mem (hstarts : b.numStarts = 65) (hseed : b.rawSeed = 0) :
  b.keyRow 7 ∉ b.keySpan [5]
  := by
  have hfive : (start (ribbonHash 5 0) 65).toNat = 54 := rfl
  have hseven : (start (ribbonHash 7 0) 65).toNat = 29 := rfl
  have hset : b.keyRow '' {key | key ∈ ([5] : List U64)} = {b.keyRow 5} := by
    simp
  rw [keySpan, hset, Submodule.mem_span_singleton]
  rintro ⟨a, ha⟩
  have hcoeff := DFunLike.congr_fun ha 29
  rw [Finsupp.smul_apply, keyRow, keyRow, hstarts, hseed, hfive, hseven, place_apply, place_apply,
    if_neg (by decide), if_pos le_rfl, bit_of_true (coeffRow_odd _), smul_zero] at hcoeff
  apply zero_ne_one hcoeff

/-- A matrix of two blocks that holds the key 5, and the key 7. -/
theorem Reachable.card_accepting_fills_five :
  ∃ b : Banding 7, Reachable 7 128 0 [5] b
    ∧ Nat.card {words : Fin 128 → U32 //
        ∀ _ : Fin 1, (b.solveWith (fillOf words)).contains 7 = some true} * 2 ^ (1 * 7)
      = Nat.card (Fin 128 → U32)
  := by
  obtain ⟨b, hnew, hb⟩ := exists_new 7 (n := 128) 0 (by decide) (by decide)
  obtain ⟨b₁, hadd, hb₁⟩ := hb.add 5
  have hreach : Reachable 7 128 0 [5] b₁ := .add (.new hnew) hadd
  have hkey : b₁.keyRow 7 ∉ b₁.keySpan [5] :=
    keyRow_seven_not_mem hb₁.numStarts_eq hb₁.rawSeed
  exact ⟨b₁, hreach, hreach.card_accepting_fills (by decide) (linearIndependent_single hkey)⟩

/-- In that matrix the key 5 is found whatever the fill, and the key 7 is not. -/
theorem Reachable.contains_every_fill_iff_five :
  ∃ b : Banding 7, Reachable 7 128 0 [5] b
    ∧ ((∀ fill, (b.solveWith fill).contains 5 = some true) ↔ b.keyRow 5 ∈ b.keySpan [5])
    ∧ ((∀ fill, (b.solveWith fill).contains 7 = some true) ↔ b.keyRow 7 ∈ b.keySpan [5])
  := by
  obtain ⟨b, hnew, hb⟩ := exists_new 7 (n := 128) 0 (by decide) (by decide)
  obtain ⟨b₁, hadd, hb₁⟩ := hb.add 5
  have hreach : Reachable 7 128 0 [5] b₁ := .add (.new hnew) hadd
  have hR : checkWidth 7 := ⟨by decide, by decide⟩
  exact ⟨b₁, hreach, hreach.contains_every_fill_iff hR 5, hreach.contains_every_fill_iff hR 7⟩

end Banding

end Pleat
