import Pleat.Bytes
import Pleat.Keys

/-!
# Dependent rows

Keys whose coefficient rows are dependent decide what the standard filter can do.  A build
fails exactly when each of the seeds has a certificate: keys of the list whose coefficient
rows sum to zero and whose result rows do not, and these are three at least.  A key whose
coefficient row is a sum of rows of keys built from is answered by the sum of their result
rows.
-/

namespace Pleat

open Bits Linear

/-- The hash of a key under an ordinal seed. -/
def ordinalHash (ordinal : U32) (key : U64) : U64 :=
  ribbonHash key ((ordinalToRawSeed ordinal).setWidth 64)

/-- The coefficient row of a key under an ordinal seed, placed at its start slot in a table of
`n` slots. -/
noncomputable def coefficients (n : ℕ) (ordinal : U32) (key : U64) : ℕ →₀ Gf2 :=
  place (start (ordinalHash ordinal key) (BitVec.ofNat 64 (n - W128 + 1))).toNat
    (coeffRow128 (ordinalHash ordinal key))

/-- The result row of a key under an ordinal seed. -/
def ordinalResult (ordinal : U32) (key : U64) : U32 :=
  resultRow (ordinalHash ordinal key)

/-- The keys of a set whose coefficient rows sum to zero while their result rows do not. -/
structure Contradiction (n : ℕ) (ordinal : U32) (S : Finset U64) : Prop where
  coefficients : ∑ key ∈ S, coefficients n ordinal key = 0
  results : xorOver S (ordinalResult ordinal) ≠ 0

variable {n R : ℕ} {ordinal : U32} {keys : Set U64}

theorem system_eq (n : ℕ) (ordinal : U32) (keys : Set U64) :
  Banding128.system n ordinal keys
    = (fun key => (coefficients n ordinal key, bit (ordinalResult ordinal key))) '' keys
  := rfl

/-- The combinations of the equations of a set of keys. -/
theorem mem_span_system_iff {e : RowEquation} :
  e ∈ Submodule.span Gf2 (Banding128.system n ordinal keys)
    ↔ ∃ S : Finset U64, (∀ key ∈ S, key ∈ keys)
      ∧ (∑ key ∈ S, coefficients n ordinal key, bit (xorOver S (ordinalResult ordinal))) = e
  := by
  have hsum : ∀ S : Finset U64,
      ∑ key ∈ S, (coefficients n ordinal key, bit (ordinalResult ordinal key))
        = ((∑ key ∈ S, coefficients n ordinal key, bit (xorOver S (ordinalResult ordinal)))
          : RowEquation) := by
    intro S
    apply Prod.ext
    · rw [Prod.fst_sum]
    · rw [Prod.snd_sum, bit_xorOver]
  rw [system_eq, mem_span_image_iff]
  simp only [hsum]

/-- The system of a set of keys is consistent exactly when it has no contradiction. -/
theorem consistent_system_iff :
  Consistent (Banding128.system n ordinal keys)
    ↔ ¬ ∃ S : Finset U64, (∀ key ∈ S, key ∈ keys) ∧ Contradiction n ordinal S
  := by
  rw [consistent_iff]
  constructor
  · rintro h ⟨S, hS, hcontradiction⟩
    apply hcontradiction.results
    apply bit_eq_zero_iff.mp
    apply h
    apply mem_span_system_iff.mpr
    exact ⟨S, hS, by rw [hcontradiction.coefficients]⟩
  · intro h b hb
    obtain ⟨S, hS, heq⟩ := mem_span_system_iff.mp hb
    obtain ⟨hrows, hresults⟩ := Prod.mk.inj heq
    by_contra hne
    refine h ⟨S, hS, hrows, ?_⟩
    intro hzero
    rw [hzero, bit_zero] at hresults
    apply hne hresults.symm

/-! ### Contradictions -/

/-- Different keys have different coefficient rows: the row starts where it leads, and the wide
rows tell the hashes apart. -/
theorem coefficients_injective (n : ℕ) (ordinal : U32) :
  Function.Injective (coefficients n ordinal)
  := by
  intro key key' heq
  have hlead := leads_place (coeffRow128_odd (ordinalHash ordinal key))
    (start (ordinalHash ordinal key) (BitVec.ofNat 64 (n - W128 + 1))).toNat
  have hlead' := leads_place (coeffRow128_odd (ordinalHash ordinal key'))
    (start (ordinalHash ordinal key') (BitVec.ofNat 64 (n - W128 + 1))).toNat
  change Leads _ (coefficients n ordinal key) at hlead
  change Leads _ (coefficients n ordinal key') at hlead'
  rw [heq] at hlead
  have hstart := hlead.eq hlead'
  rw [coefficients, coefficients, hstart] at heq
  apply (ribbonHash_bijective _).injective
  apply coeffRow128_injective
  apply place_injective _ heq

theorem coefficients_ne_zero (n : ℕ) (ordinal : U32) (key : U64) :
  coefficients n ordinal key ≠ 0
  := (leads_place (coeffRow128_odd _) _).ne_zero

/-- A contradiction takes three keys at least. -/
theorem Contradiction.three_le_card {S : Finset U64} (h : Contradiction n ordinal S) :
  3 ≤ S.card
  := by
  by_contra hfew
  have hcard : S.card = 0 ∨ S.card = 1 ∨ S.card = 2 := by omega
  rcases hcard with hcard | hcard | hcard
  · rw [Finset.card_eq_zero] at hcard
    apply h.results
    rw [hcard]
    rfl
  · obtain ⟨key, rfl⟩ := Finset.card_eq_one.mp hcard
    have hzero := h.coefficients
    rw [Finset.sum_singleton] at hzero
    apply coefficients_ne_zero n ordinal key hzero
  · obtain ⟨key, key', hne, rfl⟩ := Finset.card_eq_two.mp hcard
    have hzero := h.coefficients
    rw [Finset.sum_pair hne] at hzero
    apply hne
    apply coefficients_injective n ordinal
    rw [← sub_eq_zero, ZModModule.sub_eq_add]
    apply hzero

/-! ### Failing builds -/

/-- No seed has a solution: each has a contradiction among the keys. -/
def Unsolvable (n : ℕ) (keys : List U64) : Prop :=
  ∀ ordinal : U32, ordinal.toNat < seedCount →
    ∃ S : Finset U64, (∀ key ∈ S, key ∈ keys) ∧ Contradiction n ordinal S

theorem firstOutcome_eq_none_iff_unsolvable (sizing : ℕ → ℕ → ℕ) (R : ℕ) (keys : List U64) :
  firstOutcome sizing R keys = none
    ↔ Unsolvable (numSlotsFor128 sizing keys.length R) keys
  := by
  rw [firstOutcome_eq_none_iff]
  apply forall₂_congr
  intro ordinal _
  rw [solvable_iff_consistent, consistent_system_iff, not_not]
  rfl

/-- A list of at most two different keys has no contradiction. -/
theorem solvable_of_card_le_two {keys : List U64} (hkeys : keys.toFinset.card ≤ 2) (n : ℕ)
    (ordinal : U32) :
  Solvable n keys ordinal
  := by
  rw [solvable_iff_consistent, consistent_system_iff]
  rintro ⟨S, hS, hcontradiction⟩
  have hsub : S ⊆ keys.toFinset := by
    intro key hkey
    apply List.mem_toFinset.mpr (hS key hkey)
  have hcard := Finset.card_le_card hsub
  have hthree := hcontradiction.three_le_card
  omega

namespace StdRibbon

/-- All builders return the first outcome among the seeds. -/
theorem builders_eq {T : Target} (hshift : defaultWindowShift < T.usizeBits) (sizing : ℕ → ℕ → ℕ)
    (R : ℕ) (keys : List U64) (threads : ℕ) (schedules : U32 → List ℕ) :
  fromKeys sizing R keys = some (ofSolution (firstOutcome sizing R keys))
    ∧ fromKeysPleated T sizing R keys = some (ofSolution (firstOutcome sizing R keys))
    ∧ fromKeysParallel T sizing R keys threads schedules
      = some (ofSolution (firstOutcome sizing R keys))
  := by
  rw [fromKeysPleated, buildStd128Pleated_eq_firstOutcome T sizing R keys hshift,
    fromKeysParallel, buildStd128Parallel_eq_firstOutcome sizing R keys hshift]
  exact ⟨fromKeys_eq sizing R keys, rfl, rfl⟩

/-- Every builder fails exactly when for each of the seeds there are keys in the list, three at
least, whose coefficient rows sum to zero and whose result rows do not. -/
theorem noSolvingSeed_iff {T : Target} (hshift : defaultWindowShift < T.usizeBits)
    (sizing : ℕ → ℕ → ℕ) (R : ℕ) (keys : List U64) (threads : ℕ) (schedules : U32 → List ℕ) :
  let n := numSlotsFor128 sizing keys.length R
  let unsolvable := ∀ ordinal : U32, ordinal.toNat < seedCount →
    ∃ S : Finset U64, 3 ≤ S.card ∧ (∀ key ∈ S, key ∈ keys) ∧ Contradiction n ordinal S
  (fromKeys sizing R keys = some (.error .noSolvingSeed) ↔ unsolvable)
    ∧ (fromKeysPleated T sizing R keys = some (.error .noSolvingSeed) ↔ unsolvable)
    ∧ (fromKeysParallel T sizing R keys threads schedules = some (.error .noSolvingSeed)
      ↔ unsolvable)
  := by
  intro n unsolvable
  obtain ⟨harrival, hpleated, hparallel⟩ :=
    builders_eq hshift sizing R keys threads schedules
  have hnone : firstOutcome sizing R keys = none ↔ unsolvable := by
    rw [firstOutcome_eq_none_iff_unsolvable]
    apply forall₂_congr
    intro ordinal _
    apply exists_congr
    intro S
    constructor
    · exact fun h => ⟨h.2.three_le_card, h⟩
    · exact fun h => h.2
  rw [harrival, hpleated, hparallel, Option.some.injEq, ofSolution_eq_error_iff]
  exact ⟨hnone, hnone, hnone⟩

/-- The builders for three keys on a target of 64 bits. -/
theorem noSolvingSeed_iff_three :
  fromKeys (fun n _ => n) 7 [2, 21, 5] = some (.error .noSolvingSeed)
    ↔ ∀ ordinal : U32, ordinal.toNat < seedCount →
      ∃ S : Finset U64, 3 ≤ S.card ∧ (∀ key ∈ S, key ∈ [2, 21, 5])
        ∧ Contradiction (numSlotsFor128 (fun n _ => n) 3 7) ordinal S
  := (@noSolvingSeed_iff ⟨64, le_rfl⟩ (by decide) (fun n _ => n) 7 [2, 21, 5] 1 (fun _ => [])).1

/-- A list of at most two different keys is built under the first seed. -/
theorem exists_firstOutcome_of_card_le_two (sizing : ℕ → ℕ → ℕ) (R : ℕ) {keys : List U64}
    (hkeys : keys.toFinset.card ≤ 2) :
  ∃ s, firstOutcome sizing R keys = some s ∧ s.ordinalSeed = 0
  := (firstOutcome_eq_some_iff sizing R keys 0).mpr
    ⟨by decide, solvable_of_card_le_two hkeys _ 0, fun o ho => absurd ho (Nat.not_lt_zero _)⟩

/-- A list of at most two different keys, whatever the repetitions, is always built, and under
the first seed. -/
theorem exists_of_two_keys {T : Target} (hshift : defaultWindowShift < T.usizeBits)
    (sizing : ℕ → ℕ → ℕ) (R : ℕ) {keys : List U64} (hkeys : keys.toFinset.card ≤ 2) (threads : ℕ)
    (schedules : U32 → List ℕ) :
  ∃ f : StdRibbon R, f.soln.ordinalSeed = 0
    ∧ fromKeys sizing R keys = some (.ok f)
    ∧ fromKeysPleated T sizing R keys = some (.ok f)
    ∧ fromKeysParallel T sizing R keys threads schedules = some (.ok f)
  := by
  obtain ⟨harrival, hpleated, hparallel⟩ :=
    builders_eq hshift sizing R keys threads schedules
  obtain ⟨s, hs, hordinal⟩ := exists_firstOutcome_of_card_le_two sizing R hkeys
  rw [harrival, hpleated, hparallel, hs]
  exact ⟨⟨s⟩, hordinal, rfl, rfl, rfl⟩

/-- Two keys, one of them twice, on a target of 64 bits. -/
theorem exists_of_two_keys_three :
  ∃ f : StdRibbon 7, f.soln.ordinalSeed = 0
    ∧ fromKeys (fun n _ => n) 7 [2, 21, 2] = some (.ok f)
    ∧ fromKeysPleated ⟨64, le_rfl⟩ (fun n _ => n) 7 [2, 21, 2] = some (.ok f)
    ∧ fromKeysParallel ⟨64, le_rfl⟩ (fun n _ => n) 7 [2, 21, 2] 3 (fun _ => []) = some (.ok f)
  := @exists_of_two_keys ⟨64, le_rfl⟩ (by decide) (fun n _ => n) 7 [2, 21, 2] (by decide) 3
    (fun _ => [])

/-! ### Dependent queries -/

/-- The sum of the bits that a key selects is linear in its coefficient row. -/
theorem columnSum_eq {R n : ℕ} {s : Solution128 R} (hs : s.WellFormed n)
    (hraw : s.rawSeed = ordinalToRawSeed s.ordinalSeed) (key : U64) (j : ℕ) :
  s.columnSum key j = Finsupp.linearCombination Gf2 (fun slot => cell R s.segments slot j)
    (coefficients n s.ordinalSeed key)
  := by
  rw [coefficients, linearCombination_place, Solution128.columnSum, ordinalHash, ← hraw,
    ← hs.starts]
  rfl

/-- A key whose coefficient row is a sum of rows of keys that the filter was built from is
answered yes exactly when the low bits of its result row are those of the sum of their result
rows. -/
theorem Built.contains_dependent {T : Target} {sizing : ℕ → ℕ → ℕ} {R : ℕ} {keys : List U64}
    {f : StdRibbon R} (hf : f.Built T sizing keys) {S : Finset U64} (hS : ∀ key ∈ S, key ∈ keys)
    {query : U64}
    (hquery : coefficients (numSlotsFor128 sizing keys.length R) f.soln.ordinalSeed query
      = ∑ key ∈ S, coefficients (numSlotsFor128 sizing keys.length R) f.soln.ordinalSeed key) :
  f.contains query = some (decide ((ordinalResult f.soln.ordinalSeed query).setWidth R
    = (xorOver S (ordinalResult f.soln.ordinalSeed)).setWidth R))
  := by
  obtain ⟨b, o, -, hsoln, hb⟩ := hf.exists_holds
  have hs := hb.intoSolution_wellFormed
  have hraw := hf.rawSeed_eq
  rw [hsoln] at hraw
  have hheld : ∀ key ∈ S, ∀ j < R, b.intoSolution.columnSum key j
      = bit (ordinalResult b.intoSolution.ordinalSeed key) j := by
    intro key hkey
    have hcontains := hb.contains (hS key hkey)
    rw [Solution128.contains_eq hs, Option.some.injEq, decide_eq_true_iff] at hcontains
    rwa [ordinalResult, ordinalHash, ← hraw]
  rw [contains, hsoln, Solution128.contains_eq hs, Option.some.injEq, decide_eq_decide,
    ← forall_bit_eq_iff]
  rw [hsoln] at hquery
  apply forall₂_congr
  intro j hj
  have hsum : b.intoSolution.columnSum query j
      = bit (xorOver S (ordinalResult b.intoSolution.ordinalSeed)) j := by
    rw [columnSum_eq hs hraw, hquery, map_sum, bit_xorOver, Finset.sum_apply]
    apply Finset.sum_congr rfl
    intro key hkey
    rw [← columnSum_eq hs hraw, hheld key hkey j hj]
  rw [hsum, ordinalResult, ordinalHash, ← hraw]
  apply eq_comm

/-- Three keys that start at slot 105 of 256. -/
def dependentKeys : List U64 := [0x64464700ac253162, 0x097deac5069133c0, 0x723b2945ed56d908]

/-- A key whose rows are the sums of theirs. -/
def dependentQuery : U64 := 0x875388d47b4745cd

theorem coefficients_dependentQuery :
  coefficients 256 0 dependentQuery = ∑ key ∈ dependentKeys.toFinset, coefficients 256 0 key
  := by
  have hrows : coeffRow128 (ordinalHash 0 dependentQuery)
      = coeffRow128 (ordinalHash 0 0x64464700ac253162)
        ^^^ (coeffRow128 (ordinalHash 0 0x097deac5069133c0)
          ^^^ coeffRow128 (ordinalHash 0 0x723b2945ed56d908)) := by
    decide +kernel
  have hstarts : ((dependentQuery :: dependentKeys).all fun key =>
      (start (ordinalHash 0 key) (BitVec.ofNat 64 (256 - W128 + 1))).toNat = 105) = true := by
    decide +kernel
  have hplaced : ∀ key ∈ dependentQuery :: dependentKeys,
      coefficients 256 0 key = place 105 (coeffRow128 (ordinalHash 0 key)) := by
    intro key hkey
    rw [coefficients, of_decide_eq_true (List.all_eq_true.mp hstarts key hkey)]
  have hnodup : dependentKeys.Nodup := by decide +kernel
  rw [List.sum_toFinset _ hnodup, hplaced dependentQuery (.head _), hrows, place_xor, place_xor,
    ← hplaced _ (.tail _ (.head _)), ← hplaced _ (.tail _ (.tail _ (.head _))),
    ← hplaced _ (.tail _ (.tail _ (.tail _ (.head _))))]
  rw [dependentKeys, List.map_cons, List.map_cons, List.map_cons, List.map_nil, List.sum_cons,
    List.sum_cons, List.sum_cons, List.sum_nil, add_zero]

theorem ordinalResult_dependentQuery :
  ordinalResult 0 dependentQuery = xorOver dependentKeys.toFinset (ordinalResult 0)
  := by
  decide +kernel

theorem exists_fromKeys_dependentKeys :
  ∃ f : StdRibbon 7, StdRibbon.fromKeys (fun _ _ => 0) 7 dependentKeys = some (.ok f)
    ∧ f.soln.ordinalSeed = 0
  := by
  obtain ⟨f, hbuild, hfirst⟩ := @exists_ok_of_any 7
    (StdRibbon.fromKeys (fun _ _ => 0) 7 dependentKeys) (fun f => f.soln.ordinalSeed = 0)
    (by decide +kernel)
  exact ⟨f, hbuild, of_decide_eq_true hfirst⟩

/-- The key whose rows are the sums of those of the keys built from is accepted, although it is
none of them. -/
theorem Built.contains_dependent_three :
  ∃ f : StdRibbon 7, StdRibbon.fromKeys (fun _ _ => 0) 7 dependentKeys = some (.ok f)
    ∧ dependentQuery ∉ dependentKeys ∧ f.contains dependentQuery = some true
  := by
  obtain ⟨f, hbuild, hordinal⟩ := exists_fromKeys_dependentKeys
  have hf : f.Built ⟨64, le_rfl⟩ (fun _ _ => 0) dependentKeys := .fromKeys (by decide) hbuild
  have hslots : numSlotsFor128 (fun _ _ => 0) dependentKeys.length 7 = 256 := by decide
  have hquery := coefficients_dependentQuery
  have hresult := ordinalResult_dependentQuery
  rw [← hordinal, ← hslots] at hquery
  rw [← hordinal] at hresult
  refine ⟨f, hbuild, by decide +kernel, ?_⟩
  rw [Built.contains_dependent hf (fun _ => List.mem_toFinset.mp) hquery, hresult,
    decide_eq_true rfl]

end StdRibbon

end Pleat
