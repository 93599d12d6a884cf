import Pleat.Standard.Banding

/-!
# The row space of standard insertions

A stored row with its result row is an augmented vector.  In every matrix that resets and
insertions reach, rejected insertions included, the next key is rejected exactly when its
coefficient row is a sum of stored ones whose result rows have another sum than its own.
A rejected key leaves the matrix as it is, an accepted one extends the span of the
augmented rows by its own, and an empty slot never has a result.
-/

namespace Pleat

open Bits Linear

namespace Banding128

variable {R n : ℕ} {b : Banding128 R}

/-- The matrices of `n` slots reached by resets and insertions, accepted or not. -/
inductive Reachable (R n : ℕ) : Banding128 R → Prop
  | new {b : Banding128 R} (h : Banding128.new R n = some b) : Reachable R n b
  | reset {b : Banding128 R} (h : Reachable R n b) (ordinal : U32) : Reachable R n (b.reset ordinal)
  | add {b b' : Banding128 R} {key : U64} {ok : Bool} (h : Reachable R n b)
      (hadd : b.add key = some (b', ok)) : Reachable R n b'

/-- The coefficient row stored at a slot, placed there. -/
noncomputable def row (b : Banding128 R) (i : ℕ) : ℕ →₀ Gf2 :=
  place i (b.coeffRows.getD i 0)

/-- The result row stored at a slot. -/
def result (b : Banding128 R) (i : ℕ) : U32 :=
  b.resultRows.getD i 0

/-- The occupied slots. -/
def occupied (b : Banding128 R) : Set ℕ :=
  {i | b.coeffRows.getD i 0 ≠ 0}

/-- The coefficient row of a key, placed at its start slot. -/
noncomputable def keyRow (b : Banding128 R) (key : U64) : ℕ →₀ Gf2 :=
  let h := ribbonHash key (b.rawSeed.setWidth 64)
  place (start h b.numStarts).toNat (coeffRow128 h)

/-- The result row of a key. -/
def keyResult (b : Banding128 R) (key : U64) : U32 :=
  resultRow (ribbonHash key (b.rawSeed.setWidth 64))

/-- The coefficient row of a key is a sum of stored ones whose result rows have another sum
than that of the key. -/
def Contradicts (b : Banding128 R) (key : U64) : Prop :=
  ∃ S : Finset ℕ, (∀ i ∈ S, i ∈ b.occupied) ∧ ∑ i ∈ S, b.row i = b.keyRow key
    ∧ xorOver S b.result ≠ b.keyResult key

/-- The span of the stored rows with their results. -/
noncomputable def augmentedSpan (b : Banding128 R) : Submodule Gf2 RowEquation :=
  Submodule.span Gf2 ((fun i => (b.row i, bit (b.result i))) '' b.occupied)

/-! ### Reachable matrices -/

/-- The form of every reachable matrix. -/
structure Sound (b : Banding128 R) (n : ℕ) : Prop where
  shape : b.Shape n
  table : b.table.WellFormed n

theorem Sound.add (h : b.Sound n) (key : U64) :
  ∃ coeffs results ok,
    b.add key = some ({ b with coeffRows := coeffs, resultRows := results }, ok)
      ∧ Sound (R := R) { b with coeffRows := coeffs, resultRows := results } n
      ∧ Insertion b.table n (keyEquation b.numStarts b.rawSeed key) (rowsTable coeffs results) ok
  := by
  obtain ⟨coeffs, results, ok, hadd, hc, hr, hins⟩ := h.shape.add_insertion h.table key
  exact ⟨coeffs, results, ok, hadd,
    ⟨{ h.shape with coeffs := hc, results := hr }, hins.wellFormed h.table⟩, hins⟩

theorem Reachable.sound (h : Reachable R n b) :
  b.Sound n
  := by
  induction h with
  | @new b hnew =>
      have hslots : n % W128 = 0 ∧ W128 ≤ n := by
        rw [Banding128.new] at hnew
        split at hnew
        · assumption
        · nomatch hnew
      obtain ⟨b', hnew', hshape⟩ := exists_new R hslots.1 hslots.2
      rw [hnew, Option.some.injEq] at hnew'
      rw [hnew']
      use hshape
      rw [Banding128.new, if_pos hslots, Option.some.injEq] at hnew
      have hzero : b.table = 0 := by
        rw [← hnew]
        apply Table.ofLists_replicate
      rw [← hnew', hzero]
      apply Table.wellFormed_zero
  | reset _ ordinal ih =>
      have hreset := ih.shape.reset ordinal
      exact ⟨hreset.shape, hreset.table⟩
  | @add b b' key ok _ hadd ih =>
      obtain ⟨_, _, _, hadd', hsound, -⟩ := ih.add key
      rw [hadd, Option.some.injEq, Prod.mk.injEq] at hadd'
      rw [hadd'.1]
      apply hsound

/-- What insertions reach from a reachable matrix is reachable, by induction on the keys. -/
theorem Reachable.addEach (h : Reachable R n b) {b' : Banding128 R} {keys : List U64} {ok : Bool}
    (hadd : b.addEach keys = some (b', ok)) :
  Reachable R n b'
  := by
  induction keys generalizing b with
  | nil =>
      obtain ⟨rfl, -⟩ := Prod.mk.inj (Option.some_injective _ hadd)
      apply h
  | cons key keys ih =>
      rw [Banding128.addEach] at hadd
      obtain ⟨⟨b₁, ok₁⟩, hfirst, hrest⟩ := Option.bind_eq_some_iff.mp hadd
      cases ok₁ with
      | true => exact ih (h.add hfirst) hrest
      | false =>
          obtain ⟨rfl, -⟩ := Prod.mk.inj (Option.some_injective _ hrest)
          apply h.add hfirst

/-- A rejected key leaves the matrix as it is. -/
theorem Sound.eq_of_rejected (h : b.Sound n) {b' : Banding128 R} {key : U64}
    (hadd : b.add key = some (b', false)) :
  b' = b
  := by
  obtain ⟨coeffs, results, ok, hadd', hsound, hins⟩ := h.add key
  rw [hadd, Option.some.injEq, Prod.mk.injEq] at hadd'
  obtain ⟨rfl, rfl⟩ := hadd'
  have hcoeffs : coeffs.length = b.coeffRows.length :=
    hsound.shape.coeffs.trans h.shape.coeffs.symm
  have hresults : results.length = b.resultRows.length :=
    hsound.shape.results.trans h.shape.results.symm
  obtain ⟨rfl, rfl⟩ := eq_of_rowsTable_eq hcoeffs hresults
    (hsound.shape.results.trans hsound.shape.coeffs.symm) hins.rejected.1
  rfl

/-- A new matrix is as if it had been reset to the first ordinal. -/
theorem reset_new (h : Banding128.new R n = some b) :
  b.reset 0 = b
  := by
  rw [Banding128.new] at h
  split at h
  · rw [Option.some.injEq] at h
    rw [← h, reset, List.map_const', List.map_const', List.length_replicate,
      List.length_replicate]
    rfl
  · cases h

/-- Every reachable matrix has the seed of an ordinal and holds the keys accepted since the last
reset. -/
theorem Reachable.exists_holds (h : Reachable R n b) :
  ∃ ordinal held, b.Holds n ordinal held
  := by
  induction h with
  | new hnew =>
      have hreset := (Reachable.new hnew).sound.shape.reset 0
      rw [reset_new hnew] at hreset
      exact ⟨0, ∅, hreset⟩
  | reset h ordinal _ => exact ⟨ordinal, ∅, h.sound.shape.reset ordinal⟩
  | @add b b' key ok h hadd ih =>
      obtain ⟨ordinal, held, hb⟩ := ih
      cases ok with
      | true =>
          obtain ⟨b'', ok', hadd', -, hheld, -⟩ := hb.add key
          rw [hadd, Option.some.injEq, Prod.mk.injEq] at hadd'
          obtain ⟨rfl, rfl⟩ := hadd'
          exact ⟨ordinal, insert key held, hheld rfl⟩
      | false =>
          rw [h.sound.eq_of_rejected hadd]
          exact ⟨ordinal, held, hb⟩

/-! ### Augmented rows -/

theorem equation_eq (b : Banding128 R) (i : ℕ) :
  b.table.equation i = (b.row i, bit (b.result i))
  := by
  rw [Table.equation, table_apply]
  rfl

theorem keyEquation_eq (b : Banding128 R) (key : U64) :
  keyEquation b.numStarts b.rawSeed key = (b.keyRow key, bit (b.keyResult key))
  := rfl

theorem Sound.span_eq (h : b.Sound n) :
  b.table.span = b.augmentedSpan
  := by
  have hechelon := Table.span_echelon h.table
  have hset : ((b.table.echelon h.table).pivots : Set ℕ) = b.occupied := by
    ext i
    rw [Finset.mem_coe, Table.mem_pivots_echelon, table_apply]
    exact Iff.rfl
  rw [← hechelon, Echelon.span, Echelon.equations, hset, augmentedSpan]
  congr 2

/-- A sum of augmented rows. -/
theorem sum_equation (b : Banding128 R) (S : Finset ℕ) :
  ∑ i ∈ S, b.table.equation i = (∑ i ∈ S, b.row i, bit (xorOver S b.result))
  := by
  apply Prod.ext
  · rw [Prod.fst_sum]
    apply Finset.sum_congr rfl
    intro i _
    rw [equation_eq]
  · rw [Prod.snd_sum, bit_xorOver]
    apply Finset.sum_congr rfl
    intro i _
    rw [equation_eq]

/-- The combinations of the stored rows are the sums over sets of occupied slots. -/
theorem Sound.mem_span_iff (h : b.Sound n) {e : RowEquation} :
  e ∈ b.table.span ↔ ∃ S : Finset ℕ, (∀ i ∈ S, i ∈ b.occupied) ∧
    (∑ i ∈ S, b.row i, bit (xorOver S b.result)) = e
  := by
  constructor
  · intro he
    obtain ⟨S, rfl⟩ := mem_span_range_iff.mp he
    -- Empty slots add nothing to a sum.
    use S.filter (fun i => b.coeffRows.getD i 0 ≠ 0)
    constructor
    · intro i hi
      apply (Finset.mem_filter.mp hi).2
    · rw [← sum_equation]
      apply Finset.sum_filter_of_ne
      intro i _ hne hempty
      apply hne
      apply h.table.equation_eq_zero
      rw [table_apply]
      apply hempty
  · rintro ⟨S, -, rfl⟩
    rw [← sum_equation]
    apply mem_span_range_iff.mpr ⟨S, rfl⟩

/-! ### The verdict -/

/-- A rejected key contradicts the stored rows. -/
theorem Sound.contradicts_of_rejected (h : b.Sound n) {key : U64} {t : Table 128 32}
    (hins : Insertion b.table n (keyEquation b.numStarts b.rawSeed key) t false) :
  b.Contradicts key
  := by
  obtain ⟨-, r, hr, hmem⟩ := hins.rejected
  obtain ⟨S, hS, hsum⟩ := h.mem_span_iff.mp hmem
  obtain ⟨hrows, hresults⟩ := Prod.mk.inj hsum
  rw [keyEquation_eq] at hrows hresults
  refine ⟨S, hS, hrows.trans (sub_zero _), ?_⟩
  intro heq
  apply hr
  apply bit_eq_zero_iff.mp
  change bit (xorOver S b.result) = bit (b.keyResult key) - bit r at hresults
  rwa [heq, eq_comm, sub_eq_self] at hresults

/-- An accepted key does not contradict them: the table it leaves is consistent. -/
theorem Sound.not_contradicts_of_accepted (h : b.Sound n) {key : U64} {t : Table 128 32}
    (hins : Insertion b.table n (keyEquation b.numStarts b.rawSeed key) t true) :
  ¬ b.Contradicts key
  := by
  rintro ⟨S, hS, hrows, hne⟩
  have hspan := hins.span_eq h.table
  have hkey : keyEquation b.numStarts b.rawSeed key ∈ t.span := by
    rw [hspan]
    apply Submodule.mem_sup_right (Submodule.mem_span_singleton_self _)
  have hsum : (∑ i ∈ S, b.row i, bit (xorOver S b.result)) ∈ t.span := by
    rw [hspan]
    apply Submodule.mem_sup_left (h.mem_span_iff.mpr ⟨S, hS, rfl⟩)
  have hdiff := Submodule.sub_mem _ hsum hkey
  rw [keyEquation_eq, hrows, Prod.mk_sub_mk, sub_self] at hdiff
  have hzero := (hins.wellFormed h.table).eq_zero_of_mem_span hdiff
  apply hne (bit_injective (sub_eq_zero.mp hzero))

/-- In every reachable matrix the next key is rejected exactly when it contradicts the stored
rows.  A rejected key leaves the matrix as it is, an accepted one extends the span of the
augmented rows by its own, and empty slots have no result after it. -/
theorem Reachable.add_atomic (h : Reachable R n b) (key : U64) :
  ∃ b' ok, b.add key = some (b', ok)
    ∧ (ok = false ↔ b.Contradicts key)
    ∧ (ok = false → b' = b)
    ∧ (ok = true → b'.augmentedSpan
        = b.augmentedSpan ⊔ Submodule.span Gf2 {(b.keyRow key, bit (b.keyResult key))})
    ∧ ∀ i : ℕ, b'.coeffRows[i]? = some 0 → b'.resultRows[i]? = some 0
  := by
  have hb := h.sound
  obtain ⟨coeffs, results, ok, hadd, hsound, hins⟩ := hb.add key
  refine ⟨_, ok, hadd, ?_, ?_, ?_, ?_⟩
  · cases ok with
    | false => exact iff_of_true rfl (hb.contradicts_of_rejected hins)
    | true => exact iff_of_false Bool.noConfusion (hb.not_contradicts_of_accepted hins)
  · rintro rfl
    apply hb.eq_of_rejected hadd
  · rintro rfl
    rw [← hsound.span_eq, ← hb.span_eq, ← keyEquation_eq]
    apply hins.span_eq hb.table
  · intro i hi
    have hlt : i < results.length := by
      rw [hsound.shape.results, ← hsound.shape.coeffs]
      apply (List.getElem?_eq_some_iff.mp hi).1
    have hread : results[i]? = some results[i] := List.getElem?_eq_getElem hlt
    have hrow : rowsTable coeffs results i = (0, results[i]) := rowsTable_of_getElem? hi hread
    have hempty : (rowsTable coeffs results i).1 = 0 → (rowsTable coeffs results i).2 = 0 :=
      hsound.table.empty i
    rw [hrow] at hempty
    exact hread.trans (congrArg some (hempty rfl))

/-- Three keys are held, and a fourth, whose coefficient row is the sum of theirs and whose
result row is not, is rejected. -/
theorem Reachable.add_atomic_fourth :
  ∃ b b₁ : Banding128 3, Reachable 3 256 b
    ∧ b.addEach [0xdbd7eaef6fc4de96, 0xfd8f7e24dccd4941, 0x58f701cc1300b188] = some (b₁, true)
    ∧ b₁.add 0xd23f6934082c0977 = some (b₁, false) ∧ b₁.Contradicts 0xd23f6934082c0977
  := by
  let held : List U64 := [0xdbd7eaef6fc4de96, 0xfd8f7e24dccd4941, 0x58f701cc1300b188]
  have hrun : ((Banding128.new 3 256).bind fun b => ((b.reset 0).addEach held).bind fun (b, ok) =>
      (b.add 0xd23f6934082c0977).map fun (_, ok') => (ok, ok')) = some (true, false) := by
    decide +kernel
  obtain ⟨b₀, hnew, hrun⟩ := Option.bind_eq_some_iff.mp hrun
  obtain ⟨⟨b₁, ok⟩, hheld, hrun⟩ := Option.bind_eq_some_iff.mp hrun
  obtain ⟨⟨b₂, ok'⟩, hadd, hverdicts⟩ := Option.map_eq_some_iff.mp hrun
  obtain ⟨rfl, rfl⟩ := Prod.mk.inj hverdicts
  have hreach : Reachable 3 256 (b₀.reset 0) := .reset (.new hnew) 0
  obtain ⟨b', ok, hadd', hverdict, hsame, -⟩ :=
    Reachable.add_atomic (hreach.addEach hheld) 0xd23f6934082c0977
  obtain ⟨rfl, rfl⟩ := Prod.mk.inj (Option.some_injective _ (hadd.symm.trans hadd'))
  obtain rfl := hsame rfl
  exact ⟨_, _, hreach, hheld, hadd, hverdict.mp rfl⟩

end Banding128

end Pleat
