import Pleat.Homogeneous.RowSpace
import Pleat.Standard.Dependence

/-!
# Adding a key

What one more key changes in a table of the same number of slots.  A key whose row is a sum of
rows of the keys before changes nothing: the homogeneous filter stays the same, and so does
the standard one when the result row of the key is the sum of theirs too.  When it is not, the
seed of the filter is lost: the build moves on to a later seed, or fails.  A key whose row is
not such a sum always has room under the seed of the filter.
-/

namespace Pleat

open Bits Linear

/-- The coefficient row of a key under a seed, placed at its start slot in a table of `n`
slots. -/
noncomputable def homogeneousRow (n : ℕ) (seed key : U64) : ℕ →₀ Gf2 :=
  place (start (ribbonHash key seed) (BitVec.ofNat 64 (n - W + 1))).toNat
    (coeffRow (ribbonHash key seed))

variable {T : Target} {sizing : ℕ → ℕ → ℕ} {R n : ℕ} {keys keys' : List U64} {q : U64}

theorem setOf_insert (hkeys : ∀ k, k ∈ keys' ↔ k = q ∨ k ∈ keys) :
  {k | k ∈ keys'} = insert q {k | k ∈ keys}
  := Set.ext hkeys

/-! ### Homogeneous filters -/

namespace Banding

/-- The equation of a key is a combination of those of a list when its row is a sum of theirs. -/
theorem keyEquation_mem_span {seed : U64} {S : Finset U64} (hS : ∀ key ∈ S, key ∈ keys)
    (hrow : homogeneousRow n seed q = ∑ key ∈ S, homogeneousRow n seed key) :
  keyEquation (BitVec.ofNat 64 (n - W + 1)) seed q
    ∈ Submodule.span Gf2 (keyEquations (BitVec.ofNat 64 (n - W + 1)) seed {k | k ∈ keys})
  := by
  have hequation : ∀ key, keyEquation (BitVec.ofNat 64 (n - W + 1)) seed key
      = homogeneous (homogeneousRow n seed key) :=
    fun key => equationAt_eq_homogeneous ..
  rw [keyEquations, mem_span_image_iff]
  use S, hS
  simp only [hequation]
  rw [← map_sum, hrow]

/-- A matrix holds a key whose row is a sum of rows of the keys held. -/
theorem Holds.insert_dependent {b : Banding R} {seed : U64} (h : b.Holds n seed {k | k ∈ keys})
    {S : Finset U64} (hS : ∀ key ∈ S, key ∈ keys)
    (hrow : homogeneousRow n seed q = ∑ key ∈ S, homogeneousRow n seed key) :
  b.Holds n seed (insert q {k | k ∈ keys})
  := by
  have hmem := keyEquation_mem_span hS hrow
  rw [← h.numStarts_eq] at hmem
  exact { h with
    span := by
      rw [h.span, keyEquations, keyEquations, Set.image_insert_eq]
      exact (Submodule.span_insert_eq_span hmem).symm }

end Banding

theorem Ribbon.Built.insert_dependent {f : Ribbon R} (hf : f.Built T sizing keys)
    (hkeys : ∀ k, k ∈ keys' ↔ k = q ∨ k ∈ keys)
    (hslots : numSlotsFor sizing keys'.length R = numSlotsFor sizing keys.length R)
    {S : Finset U64} (hS : ∀ key ∈ S, key ∈ keys)
    (hrow : homogeneousRow (numSlotsFor sizing keys.length R) f.soln.rawSeed q
      = ∑ key ∈ S, homogeneousRow (numSlotsFor sizing keys.length R) f.soln.rawSeed key) :
  Ribbon.fromKeysSeeded sizing R keys' f.soln.rawSeed = some f
  := by
  obtain ⟨b, seed, rfl, hb⟩ := hf.exists_holds
  obtain rfl : b.rawSeed = seed := hb.rawSeed
  have hb' := hb.insert_dependent hS hrow
  rw [← setOf_insert hkeys, ← hslots] at hb'
  exact Ribbon.fromKeysSeeded_eq_of_holds hb'

/-! ### Standard filters -/

section Standard

variable {ordinal : U32} {S : Finset U64}

/-- A solution for a list of keys is one for every part of it. -/
theorem Solvable.of_subset (hsub : ∀ k ∈ keys, k ∈ keys') (h : Solvable n keys' ordinal) :
  Solvable n keys ordinal
  := by
  obtain ⟨x, hx⟩ := h
  use x
  intro key hkey
  apply hx key (hsub key hkey)

/-- A matrix holds a key whose rows are the sums of those of keys held. -/
theorem Banding128.Holds.insert_dependent {b : Banding128 R}
    (h : b.Holds n ordinal {k | k ∈ keys}) (hS : ∀ key ∈ S, key ∈ keys)
    (hrow : coefficients n ordinal q = ∑ key ∈ S, coefficients n ordinal key)
    (hresult : ordinalResult ordinal q = xorOver S (ordinalResult ordinal)) :
  b.Holds n ordinal (insert q {k | k ∈ keys})
  := by
  have hmem : (coefficients n ordinal q, bit (ordinalResult ordinal q))
      ∈ Submodule.span Gf2 (Banding128.system n ordinal {k | k ∈ keys}) := by
    apply mem_span_system_iff.mpr
    use S, hS
    rw [hrow, hresult]
  exact { h with
    span := by
      rw [h.span, system_eq, system_eq, Set.image_insert_eq]
      exact (Submodule.span_insert_eq_span hmem).symm }

/-- There is no solution for a key whose coefficient row is a sum of rows of keys of the list
while its result row is not the sum of theirs. -/
theorem not_solvable_of_conflict (hsub : ∀ k ∈ keys, k ∈ keys') (hq : q ∈ keys')
    (hS : ∀ key ∈ S, key ∈ keys)
    (hrow : coefficients n ordinal q = ∑ key ∈ S, coefficients n ordinal key)
    (hresult : ordinalResult ordinal q ≠ xorOver S (ordinalResult ordinal)) :
  ¬ Solvable n keys' ordinal
  := by
  rw [solvable_iff_consistent]
  intro hconsistent
  have hkey : (coefficients n ordinal q, bit (ordinalResult ordinal q))
      ∈ Submodule.span Gf2 (Banding128.system n ordinal {k | k ∈ keys'}) :=
    Submodule.subset_span ⟨q, hq, rfl⟩
  have hsum : (coefficients n ordinal q, bit (xorOver S (ordinalResult ordinal)))
      ∈ Submodule.span Gf2 (Banding128.system n ordinal {k | k ∈ keys'}) := by
    apply mem_span_system_iff.mpr
    use S, fun key hkey => hsub key (hS key hkey)
    rw [hrow]
  have hdiff := Submodule.sub_mem _ hkey hsum
  rw [Prod.mk_sub_mk, sub_self] at hdiff
  apply hresult
  apply bit_injective
  exact sub_eq_zero.mp (hconsistent.eq_zero_of_mem_span hdiff)

/-- A solution can be changed to one for a further key whose coefficient row is not a sum of
rows of the keys. -/
theorem Solvable.insert_independent (h : Solvable n keys ordinal)
    (hkeys : ∀ k, k ∈ keys' ↔ k = q ∨ k ∈ keys)
    (hindependent : ∀ S : Finset U64, (∀ key ∈ S, key ∈ keys) →
      coefficients n ordinal q ≠ ∑ key ∈ S, coefficients n ordinal key) :
  Solvable n keys' ordinal
  := by
  rw [solvable_iff_consistent, consistent_system_iff] at h ⊢
  rintro ⟨S, hS, hcontradiction⟩
  by_cases hq : q ∈ S
  · apply hindependent (S.erase q)
    · intro key hkey
      obtain ⟨hne, hmem⟩ := Finset.mem_erase.mp hkey
      exact ((hkeys key).mp (hS key hmem)).resolve_left hne
    · have hsum := hcontradiction.coefficients
      rw [← Finset.add_sum_erase S _ hq] at hsum
      rw [← sub_eq_zero, ZModModule.sub_eq_add]
      apply hsum
  · apply h
    refine ⟨S, fun key hkey => ?_, hcontradiction⟩
    apply ((hkeys key).mp (hS key hkey)).resolve_left
    rintro rfl
    apply hq hkey

end Standard

namespace StdRibbon

theorem outcome_eq_none_iff_not_solvable (o : U32) :
  Banding128.outcome R (numSlotsFor128 sizing keys.length R) {k | k ∈ keys} o = none
    ↔ ¬ Solvable (numSlotsFor128 sizing keys.length R) keys o
  := Banding128.outcome_eq_none_iff R (roundUpNumSlots_mod ..) (le_roundUpNumSlots ..) o keys

variable {f : StdRibbon R}

/-- The seed of a filter is the least that has a solution. -/
theorem Built.least (hf : f.Built T sizing keys) :
  f.soln.ordinalSeed.toNat < seedCount
    ∧ Solvable (numSlotsFor128 sizing keys.length R) keys f.soln.ordinalSeed
    ∧ ∀ o, o.toNat < f.soln.ordinalSeed.toNat →
      ¬ Solvable (numSlotsFor128 sizing keys.length R) keys o
  := (firstOutcome_eq_some_iff sizing R keys f.soln.ordinalSeed).mp ⟨_, hf.firstOutcome_eq, rfl⟩

/-- A key whose coefficient row is not a sum of rows of the keys is added under the same
seed. -/
theorem Built.insert_independent (hf : f.Built T sizing keys)
    (hkeys : ∀ k, k ∈ keys' ↔ k = q ∨ k ∈ keys)
    (hslots : numSlotsFor128 sizing keys'.length R = numSlotsFor128 sizing keys.length R)
    (hindependent : ∀ S : Finset U64, (∀ key ∈ S, key ∈ keys) →
      coefficients (numSlotsFor128 sizing keys.length R) f.soln.ordinalSeed q
        ≠ ∑ key ∈ S, coefficients (numSlotsFor128 sizing keys.length R) f.soln.ordinalSeed key) :
  ∃ f' : StdRibbon R, StdRibbon.fromKeys sizing R keys' = some (.ok f')
    ∧ f'.soln.ordinalSeed = f.soln.ordinalSeed
  := by
  obtain ⟨hlt, hsolvable, hleast⟩ := hf.least
  have hsub : ∀ k ∈ keys, k ∈ keys' := fun k hk => (hkeys k).mpr (Or.inr hk)
  obtain ⟨s, hs, hordinal⟩ := (firstOutcome_eq_some_iff sizing R keys' f.soln.ordinalSeed).mpr
    ⟨hlt, hslots ▸ hsolvable.insert_independent hkeys hindependent,
      fun o ho h => hleast o ho (hslots ▸ h.of_subset hsub)⟩
  use ⟨s⟩
  rw [fromKeys_eq, hs]
  exact ⟨rfl, hordinal⟩

/-- A key whose rows are the sums of those of keys of the filter changes nothing. -/
theorem Built.insert_dependent (hf : f.Built T sizing keys)
    (hkeys : ∀ k, k ∈ keys' ↔ k = q ∨ k ∈ keys)
    (hslots : numSlotsFor128 sizing keys'.length R = numSlotsFor128 sizing keys.length R)
    {S : Finset U64} (hS : ∀ key ∈ S, key ∈ keys)
    (hrow : coefficients (numSlotsFor128 sizing keys.length R) f.soln.ordinalSeed q
      = ∑ key ∈ S, coefficients (numSlotsFor128 sizing keys.length R) f.soln.ordinalSeed key)
    (hresult : ordinalResult f.soln.ordinalSeed q
      = xorOver S (ordinalResult f.soln.ordinalSeed)) :
  StdRibbon.fromKeys sizing R keys' = some (.ok f)
  := by
  have hsub : ∀ k ∈ keys, k ∈ keys' := fun k hk => (hkeys k).mpr (Or.inr hk)
  obtain ⟨o, ho, hout, hleast⟩ :=
    (Retry.findSome?_eq_some_iff_least pairwise_ordinals).mp hf.firstOutcome_eq
  obtain ⟨b, hb, hsoln⟩ := Banding128.exists_holds_of_outcome hout
  have hordinal : f.soln.ordinalSeed = o := Banding128.ordinalSeed_of_outcome hout
  rw [hordinal] at hrow hresult
  have hb' := hb.insert_dependent hS hrow hresult
  rw [← setOf_insert hkeys, ← hslots] at hb'
  have hfirst : firstOutcome sizing R keys' = some f.soln := by
    apply (Retry.findSome?_eq_some_iff_least pairwise_ordinals).mpr
    use o, ho
    constructor
    · rw [hb'.outcome_eq, hsoln]
    · intro o' ho' hlt
      have hnone := hleast o' ho' hlt
      rw [outcome_eq_none_iff_not_solvable] at hnone ⊢
      intro h
      apply hnone (hslots ▸ h.of_subset hsub)
  rw [fromKeys_eq, hfirst]
  rfl

/-- A key whose coefficient row is a sum of rows of keys of the filter, while its result row is
not, loses the seed of the filter. -/
theorem Built.insert_conflict (hf : f.Built T sizing keys)
    (hkeys : ∀ k, k ∈ keys' ↔ k = q ∨ k ∈ keys)
    (hslots : numSlotsFor128 sizing keys'.length R = numSlotsFor128 sizing keys.length R)
    {S : Finset U64} (hS : ∀ key ∈ S, key ∈ keys)
    (hrow : coefficients (numSlotsFor128 sizing keys.length R) f.soln.ordinalSeed q
      = ∑ key ∈ S, coefficients (numSlotsFor128 sizing keys.length R) f.soln.ordinalSeed key)
    (hresult : ordinalResult f.soln.ordinalSeed q
      ≠ xorOver S (ordinalResult f.soln.ordinalSeed)) :
  StdRibbon.fromKeys sizing R keys' = some (.error .noSolvingSeed)
    ∨ ∃ f' : StdRibbon R, StdRibbon.fromKeys sizing R keys' = some (.ok f')
      ∧ f.soln.ordinalSeed.toNat < f'.soln.ordinalSeed.toNat
  := by
  obtain ⟨-, -, hleast⟩ := hf.least
  have hsub : ∀ k ∈ keys, k ∈ keys' := fun k hk => (hkeys k).mpr (Or.inr hk)
  rw [fromKeys_eq]
  cases hfirst : firstOutcome sizing R keys' with
  | none => exact Or.inl rfl
  | some s =>
      refine Or.inr ⟨⟨s⟩, rfl, ?_⟩
      obtain ⟨-, hsolvable, -⟩ :=
        (firstOutcome_eq_some_iff sizing R keys' s.ordinalSeed).mp ⟨s, hfirst, rfl⟩
      rw [hslots] at hsolvable
      rcases lt_trichotomy s.ordinalSeed.toNat f.soln.ordinalSeed.toNat with hlt | heq | hlt
      · exact absurd (hsolvable.of_subset hsub) (hleast _ hlt)
      · rw [BitVec.eq_of_toNat_eq heq] at hsolvable
        exact absurd hsolvable
          (not_solvable_of_conflict hsub ((hkeys q).mpr (Or.inl rfl)) hS hrow hresult)
      · exact hlt

end StdRibbon

/-- Adding one key to those of a filter, in a table of the same number of slots.  When its row
is a sum of rows of the keys, the homogeneous build returns the same filter.  The standard
build returns a filter of the same seed when the coefficient row of the key is no such sum;
when it is one, the build returns the same filter if the result row is the sum of the same
keys' result rows, and otherwise moves on to a later seed or fails. -/
theorem adding_key (T : Target) (sizing : ℕ → ℕ → ℕ) (R : ℕ) {keys keys' : List U64} {q : U64}
    (hkeys : ∀ k, k ∈ keys' ↔ k = q ∨ k ∈ keys) :
  (numSlotsFor sizing keys'.length R = numSlotsFor sizing keys.length R →
    ∀ f : Ribbon R, f.Built T sizing keys →
      let row := homogeneousRow (numSlotsFor sizing keys.length R) f.soln.rawSeed
      (∃ S : Finset U64, (∀ key ∈ S, key ∈ keys) ∧ row q = ∑ key ∈ S, row key) →
        Ribbon.fromKeysSeeded sizing R keys' f.soln.rawSeed = some f)
  ∧ (numSlotsFor128 sizing keys'.length R = numSlotsFor128 sizing keys.length R →
    ∀ f : StdRibbon R, f.Built T sizing keys →
      let row := coefficients (numSlotsFor128 sizing keys.length R) f.soln.ordinalSeed
      let result := ordinalResult f.soln.ordinalSeed
      ((∀ S : Finset U64, (∀ key ∈ S, key ∈ keys) → row q ≠ ∑ key ∈ S, row key) →
        ∃ f' : StdRibbon R, StdRibbon.fromKeys sizing R keys' = some (.ok f')
          ∧ f'.soln.ordinalSeed = f.soln.ordinalSeed)
      ∧ ∀ S : Finset U64, (∀ key ∈ S, key ∈ keys) → row q = ∑ key ∈ S, row key →
        (result q = xorOver S result → StdRibbon.fromKeys sizing R keys' = some (.ok f))
        ∧ (result q ≠ xorOver S result →
          StdRibbon.fromKeys sizing R keys' = some (.error .noSolvingSeed)
          ∨ ∃ f' : StdRibbon R, StdRibbon.fromKeys sizing R keys' = some (.ok f')
            ∧ f.soln.ordinalSeed.toNat < f'.soln.ordinalSeed.toNat))
  := by
  constructor
  · intro hslots f hf row hrow
    obtain ⟨S, hS, hsum⟩ := hrow
    apply hf.insert_dependent hkeys hslots hS hsum
  · intro hslots f hf row result
    constructor
    · intro hindependent
      apply hf.insert_independent hkeys hslots hindependent
    · intro S hS hsum
      constructor
      · intro hresult
        apply hf.insert_dependent hkeys hslots hS hsum hresult
      · intro hresult
        apply hf.insert_conflict hkeys hslots hS hsum hresult

/-! ### A key of each kind -/

/-- The row of a key of the homogeneous family, in a table of two blocks, is the sum of those of
three others, which start at the same slot. -/
theorem homogeneousRow_sum_three :
  homogeneousRow 128 0 0x1f5d221dd88fcc2b
    = ∑ key ∈ ([1, 311, 518] : List U64).toFinset, homogeneousRow 128 0 key
  := by
  have hrows : coeffRow (ribbonHash 0x1f5d221dd88fcc2b 0)
      = coeffRow (ribbonHash 1 0) ^^^ (coeffRow (ribbonHash 311 0)
        ^^^ coeffRow (ribbonHash 518 0)) := by
    decide +kernel
  have hstarts : ([0x1f5d221dd88fcc2b, 1, 311, 518].all fun key =>
      (start (ribbonHash key 0) (BitVec.ofNat 64 (128 - W + 1))).toNat = 45) = true := by
    decide +kernel
  have hplaced : ∀ key ∈ [0x1f5d221dd88fcc2b, 1, 311, 518],
      homogeneousRow 128 0 key = place 45 (coeffRow (ribbonHash key 0)) := by
    intro key hkey
    rw [homogeneousRow, of_decide_eq_true (List.all_eq_true.mp hstarts key hkey)]
  rw [List.sum_toFinset _ (by decide), hplaced 0x1f5d221dd88fcc2b (.head _), hrows, place_xor,
    place_xor, ← hplaced 1 (.tail _ (.head _)), ← hplaced 311 (.tail _ (.tail _ (.head _))),
    ← hplaced 518 (.tail _ (.tail _ (.tail _ (.head _))))]
  rw [List.map_cons, List.map_cons, List.map_cons, List.map_nil, List.sum_cons, List.sum_cons,
    List.sum_cons, List.sum_nil, add_zero]

/-- Three keys of the standard family, two of which start at slot 25 of 256 and one at slot
26. -/
def conflictingKeys : List U64 := [0xdbd7eaef6fc4de96, 0xfd8f7e24dccd4941, 0x58f701cc1300b188]

/-- A key at slot 26 whose coefficient row is the sum of theirs. -/
def conflictingQuery : U64 := 0xd23f6934082c0977

theorem coefficients_conflictingQuery :
  coefficients 256 0 conflictingQuery = ∑ key ∈ conflictingKeys.toFinset, coefficients 256 0 key
  := by
  have hstart : ∀ {key : U64} {i : ℕ},
      (start (ordinalHash 0 key) (BitVec.ofNat 64 (256 - W128 + 1))).toNat = i →
        coefficients 256 0 key = place i (coeffRow128 (ordinalHash 0 key)) := by
    rintro key i rfl
    rfl
  have hrows : coeffRow128 (ordinalHash 0 conflictingQuery)
      = (coeffRow128 (ordinalHash 0 0xdbd7eaef6fc4de96)
          ^^^ coeffRow128 (ordinalHash 0 0xfd8f7e24dccd4941)) >>> 1
        ^^^ coeffRow128 (ordinalHash 0 0x58f701cc1300b188) := by
    decide +kernel
  have hlow : ∀ k < 1, (coeffRow128 (ordinalHash 0 0xdbd7eaef6fc4de96)
      ^^^ coeffRow128 (ordinalHash 0 0xfd8f7e24dccd4941)).getLsbD k = false := by
    decide +kernel
  have hnodup : conflictingKeys.Nodup := by decide +kernel
  have hquery : coefficients 256 0 conflictingQuery
      = place 26 (coeffRow128 (ordinalHash 0 conflictingQuery)) := hstart (by decide +kernel)
  have hfirst : coefficients 256 0 0xdbd7eaef6fc4de96
      = place 25 (coeffRow128 (ordinalHash 0 0xdbd7eaef6fc4de96)) := hstart (by decide +kernel)
  have hsecond : coefficients 256 0 0xfd8f7e24dccd4941
      = place 25 (coeffRow128 (ordinalHash 0 0xfd8f7e24dccd4941)) := hstart (by decide +kernel)
  have hthird : coefficients 256 0 0x58f701cc1300b188
      = place 26 (coeffRow128 (ordinalHash 0 0x58f701cc1300b188)) := hstart (by decide +kernel)
  -- The first two rows cancel at slot 25, where the sum of all three has nothing.
  rw [List.sum_toFinset _ hnodup, hquery, hrows, place_xor, place_ushiftRight hlow 25, place_xor,
    ← hfirst, ← hsecond, ← hthird]
  rw [conflictingKeys, List.map_cons, List.map_cons, List.map_cons, List.map_nil, List.sum_cons,
    List.sum_cons, List.sum_cons, List.sum_nil, add_zero, add_assoc]

/-- A key of each kind: one whose row in the homogeneous family is the sum of those of three keys;
in the standard family one that is independent of the key before, one whose rows are the sums of
those of three keys, and one of which that is true for the coefficient row only. -/
theorem adding_key_kinds :
  (∃ f : Ribbon 7, Ribbon.fromKeysSeeded (fun _ _ => 0) 7 [1, 311, 518] 0 = some f
    ∧ Ribbon.fromKeysSeeded (fun _ _ => 0) 7 [0x1f5d221dd88fcc2b, 1, 311, 518] 0 = some f)
  ∧ (∃ f f' : StdRibbon 7, StdRibbon.fromKeys (fun _ _ => 0) 7 [5] = some (.ok f)
    ∧ StdRibbon.fromKeys (fun _ _ => 0) 7 [21, 5] = some (.ok f')
    ∧ f'.soln.ordinalSeed = f.soln.ordinalSeed)
  ∧ (∃ f : StdRibbon 7, StdRibbon.fromKeys (fun _ _ => 0) 7 StdRibbon.dependentKeys = some (.ok f)
    ∧ StdRibbon.fromKeys (fun _ _ => 0) 7 (StdRibbon.dependentQuery :: StdRibbon.dependentKeys)
      = some (.ok f))
  ∧ ∃ f f' : StdRibbon 7, StdRibbon.fromKeys (fun _ _ => 0) 7 conflictingKeys = some (.ok f)
    ∧ StdRibbon.fromKeys (fun _ _ => 0) 7 (conflictingQuery :: conflictingKeys) = some (.ok f')
    ∧ f.soln.ordinalSeed.toNat < f'.soln.ordinalSeed.toNat
  := by
  have hkeys : ∀ {q : U64} {keys : List U64} (k : U64), k ∈ q :: keys ↔ k = q ∨ k ∈ keys :=
    fun _ => List.mem_cons
  have hheld : ∀ {keys : List U64}, ∀ key ∈ keys.toFinset, key ∈ keys :=
    fun _ => List.mem_toFinset.mp
  refine ⟨?_, ?_, ?_, ?_⟩
  · obtain ⟨b, hbuild, hb⟩ := Ribbon.fromKeysSeeded_eq_some (fun _ _ => 0) 7 [1, 311, 518] 0
    have hseed : b.solve.rawSeed = 0 := hb.rawSeed
    have hsum := homogeneousRow_sum_three
    rw [← hseed] at hsum
    have hagain := (adding_key ⟨64, le_rfl⟩ (fun _ _ => 0) 7 hkeys).1 rfl _
      (.fromKeysSeeded (by decide) hbuild) ⟨_, hheld, hsum⟩
    rw [hseed] at hagain
    exact ⟨_, hbuild, hagain⟩
  · obtain ⟨s, hs, -⟩ := StdRibbon.exists_firstOutcome_of_card_le_two (fun _ _ => 0) 7
      (show ([5] : List U64).toFinset.card ≤ 2 by decide)
    have hbuild : StdRibbon.fromKeys (fun _ _ => 0) 7 [5] = some (.ok ⟨s⟩) := by
      rw [StdRibbon.fromKeys_eq, hs]
      rfl
    obtain ⟨hindependent, -⟩ := (adding_key ⟨64, le_rfl⟩ (fun _ _ => 0) 7 hkeys).2
      (show numSlotsFor128 _ [21, 5].length 7 = _ from rfl) _ (.fromKeys (by decide) hbuild)
    obtain ⟨f', hbuild', hordinal⟩ := hindependent (by
      intro S hS hsum
      have hsub : S ⊆ {5} := by
        intro key hkey
        apply Finset.mem_singleton.mpr (List.mem_singleton.mp (hS key hkey))
      rcases Finset.subset_singleton_iff.mp hsub with rfl | rfl
      · rw [Finset.sum_empty] at hsum
        apply coefficients_ne_zero _ _ _ hsum
      · rw [Finset.sum_singleton] at hsum
        have heq : (21 : U64) = 5 := coefficients_injective _ _ hsum
        apply absurd heq (by decide))
    exact ⟨_, f', hbuild, hbuild', hordinal⟩
  · obtain ⟨f, hbuild, hordinal⟩ := StdRibbon.exists_fromKeys_dependentKeys
    have hsum := StdRibbon.coefficients_dependentQuery
    have hresult := StdRibbon.ordinalResult_dependentQuery
    rw [← hordinal] at hsum hresult
    obtain ⟨-, hdependent⟩ := (adding_key ⟨64, le_rfl⟩ (fun _ _ => 0) 7 hkeys).2
      (show numSlotsFor128 _ (StdRibbon.dependentQuery :: _).length 7 = _ from rfl) f
      (.fromKeys (by decide) hbuild)
    exact ⟨f, hbuild, (hdependent _ hheld hsum).1 hresult⟩
  · obtain ⟨f, hbuild, hfirst⟩ := @StdRibbon.exists_ok_of_any 7
      (StdRibbon.fromKeys (fun _ _ => 0) 7 conflictingKeys) (fun f => f.soln.ordinalSeed = 0)
      (by decide +kernel)
    have hordinal := of_decide_eq_true hfirst
    obtain ⟨f', hbuild', -⟩ := @StdRibbon.exists_ok_of_any 7
      (StdRibbon.fromKeys (fun _ _ => 0) 7 (conflictingQuery :: conflictingKeys)) (fun _ => true)
      (by decide +kernel)
    have hsum := coefficients_conflictingQuery
    have hresult : ordinalResult 0 conflictingQuery
        ≠ xorOver conflictingKeys.toFinset (ordinalResult 0) := by
      decide +kernel
    rw [← hordinal] at hsum hresult
    obtain ⟨-, hdependent⟩ := (adding_key ⟨64, le_rfl⟩ (fun _ _ => 0) 7 hkeys).2
      (show numSlotsFor128 _ (conflictingQuery :: _).length 7 = _ from rfl) f
      (.fromKeys (by decide) hbuild)
    rcases (hdependent _ hheld hsum).2 hresult with hfail | ⟨f'', hbuild'', hlater⟩
    · cases hbuild'.symm.trans hfail
    · exact ⟨f, f'', hbuild, hbuild'', hlater⟩

end Pleat
