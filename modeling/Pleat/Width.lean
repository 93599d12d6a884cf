import Pleat.Bytes

/-!
# Filters of different widths

The rows of a matrix do not depend on the number of result columns, and back-substitution
computes each column by itself.  So of two filters of the same keys, seed and number of
slots the narrower one is made of the first columns of the wider one, and it finds every
key that the wider one finds.  The seed of a standard filter does not depend on the width.
-/

namespace Pleat

open Bits Linear

/-! ### Homogeneous filters -/

namespace Banding

variable {R R' n : ℕ} {seed : U64} {keys : Set U64}

/-- The matrix for another number of result columns. -/
def withColumns (R : ℕ) (b : Banding R') : Banding R :=
  ⟨b.coeffRows, b.numStarts, b.rawSeed⟩

theorem Holds.withColumns {b : Banding R'} (h : b.Holds n seed keys) (R : ℕ) :
  (b.withColumns R).Holds n seed keys
  := ⟨⟨h.wellFormed.blocks, h.wellFormed.slots, h.wellFormed.starts, h.wellFormed.table⟩, h.slots,
    h.rawSeed, h.span⟩

/-- The solutions of matrices that hold the same keys, at both widths, from the same rows. -/
theorem Holds.solve_eq {b : Banding R} {b' : Banding R'} (h : b.Holds n seed keys)
    (h' : b'.Holds n seed keys) :
  b.solve = ⟨Pleat.backSubstitute R n b'.solveRows, b'.numStarts, b'.rawSeed⟩
    ∧ b'.solve = ⟨Pleat.backSubstitute R' n b'.solveRows, b'.numStarts, b'.rawSeed⟩
  := by
  rw [(h'.withColumns R).solve_unique h, ← h'.slots]
  exact ⟨rfl, rfl⟩

end Banding

/-- The columns of a table of `n` slots that two lists of segments share are the same. -/
def Narrows {w : ℕ} (n R R' : ℕ) (segments segments' : List (BitVec w)) : Prop :=
  ∀ block < n / w, ∀ j < R, segments[block * R + j]? = segments'[block * R' + j]?

section Narrows

variable {w n R R' : ℕ} {segments segments' : List (BitVec w)}

theorem narrows_backSubstitute (rows : Table w 32) (hn : n % w = 0) (hle : R ≤ R') :
  Narrows n R R' (backSubstitute R n rows) (backSubstitute R' n rows)
  := by
  intro block hblock j hj
  rw [getElem?_backSubstitute rows hn hblock hj,
    getElem?_backSubstitute rows hn hblock (lt_of_lt_of_le hj hle)]

theorem Narrows.cell_eq (h : Narrows n R R' segments segments') (hn : n % w = 0) {i j : ℕ}
    (hi : i < n) (hj : j < R) :
  cell R segments i j = cell R' segments' i j
  := by
  have hblock : i / w < n / w := by
    apply Nat.div_lt_of_lt_mul
    rwa [Nat.mul_div_cancel' (Nat.dvd_of_mod_eq_zero hn)]
  rw [cell, cell, List.getD_eq_getElem?_getD, List.getD_eq_getElem?_getD, h _ hblock j hj]

end Narrows

namespace Solution

/-- What is found in a solution is found in its first columns. -/
theorem contains_of_narrows {R R' n : ℕ} {s : Solution R} {s' : Solution R'} (hle : R ≤ R')
    (hs : s.WellFormed n) (hs' : s'.WellFormed n) (hseed : s.rawSeed = s'.rawSeed)
    (h : Narrows n R R' s.segments s'.segments) {key : U64} (hkey : s'.contains key = some true) :
  s.contains key = some true
  := by
  rw [contains_eq hs', Option.some.injEq, decide_eq_true_iff] at hkey
  rw [contains_eq hs, Option.some.injEq, decide_eq_true_iff]
  intro j hj
  have hstart := start_add_le hs'.slots (ribbonHash key s'.rawSeed)
  have hzero := hkey j (lt_of_lt_of_le hj hle)
  rw [columnSum, hs'.starts] at hzero
  rw [columnSum, hseed, hs.starts, ← hzero]
  apply Finset.sum_congr rfl
  intro k hk
  have hi := lt_of_lt_of_le (Nat.add_lt_add_left (Finset.mem_range.mp hk) _) hstart
  rw [h.cell_eq hs.blocks hi hj]

end Solution

/-! ### Standard filters -/

namespace Banding128

variable {R R' n : ℕ} {ordinal : U32} {keys : Set U64}

/-- The matrix for another number of result columns. -/
def withColumns (R : ℕ) (b : Banding128 R') : Banding128 R :=
  ⟨b.coeffRows, b.resultRows, b.numStarts, b.rawSeed, b.ordinalSeed⟩

theorem Holds.withColumns {b : Banding128 R'} (h : b.Holds n ordinal keys) (R : ℕ) :
  (b.withColumns R).Holds n ordinal keys
  := ⟨⟨h.shape.blocks, h.shape.slots, h.shape.coeffs, h.shape.results, h.shape.starts⟩,
    h.ordinalSeed, h.rawSeed, h.table, h.span⟩

/-- The solutions of matrices that hold the same keys, at both widths, from the same rows. -/
theorem Holds.intoSolution_eq {b : Banding128 R} {b' : Banding128 R'} (h : b.Holds n ordinal keys)
    (h' : b'.Holds n ordinal keys) :
  b.intoSolution
      = ⟨Pleat.backSubstitute R n b'.table, b'.numStarts, b'.rawSeed, b'.ordinalSeed⟩
    ∧ b'.intoSolution
      = ⟨Pleat.backSubstitute R' n b'.table, b'.numStarts, b'.rawSeed, b'.ordinalSeed⟩
  := by
  rw [(h'.withColumns R).intoSolution_unique h, intoSolution, intoSolution,
    backSubstitute_eq_table, backSubstitute_eq_table, numSlots, numSlots,
    (h'.withColumns R).shape.coeffs, h'.shape.coeffs]
  exact ⟨rfl, rfl⟩

end Banding128

namespace Solution128

/-- What is found in a solution is found in its first columns. -/
theorem contains_of_narrows {R R' n : ℕ} {s : Solution128 R} {s' : Solution128 R'} (hle : R ≤ R')
    (hs : s.WellFormed n) (hs' : s'.WellFormed n) (hseed : s.rawSeed = s'.rawSeed)
    (h : Narrows n R R' s.segments s'.segments) {key : U64} (hkey : s'.contains key = some true) :
  s.contains key = some true
  := by
  rw [contains_eq hs', Option.some.injEq, decide_eq_true_iff] at hkey
  rw [contains_eq hs, Option.some.injEq, decide_eq_true_iff]
  intro j hj
  have hstart := start_add_le hs'.slots (ribbonHash key (s'.rawSeed.setWidth 64))
  have hexpected := hkey j (lt_of_lt_of_le hj hle)
  rw [columnSum, hs'.starts] at hexpected
  rw [columnSum, hseed, hs.starts, ← hexpected]
  apply Finset.sum_congr rfl
  intro k hk
  have hi := lt_of_lt_of_le (Nat.add_lt_add_left (Finset.mem_range.mp hk) _) hstart
  rw [h.cell_eq hs.blocks hi hj]

end Solution128

/-- Whether a system is solvable depends on the set of its keys alone. -/
theorem solvable_congr {n : ℕ} {keys keys' : List U64} (hkeys : ∀ k, k ∈ keys ↔ k ∈ keys')
    (ordinal : U32) :
  Solvable n keys ordinal ↔ Solvable n keys' ordinal
  := by
  have hset : {k | k ∈ keys} = {k | k ∈ keys'} := Set.ext hkeys
  rw [solvable_iff_consistent, solvable_iff_consistent, hset]

section Nested

variable {T : Target} {sizing : ℕ → ℕ → ℕ} {R R' : ℕ} {keys keys' : List U64}

theorem Ribbon.Built.narrows (hle : R ≤ R') (hkeys : ∀ k, k ∈ keys ↔ k ∈ keys')
    (hslots : numSlotsFor sizing keys'.length R' = numSlotsFor sizing keys.length R)
    {f : Ribbon R} {f' : Ribbon R'} (hf : f.Built T sizing keys) (hf' : f'.Built T sizing keys')
    (hseed : f.soln.rawSeed = f'.soln.rawSeed) :
  Narrows (numSlotsFor sizing keys.length R) R R' f.soln.segments f'.soln.segments
    ∧ ∀ key, f'.contains key = some true → f.contains key = some true
  := by
  have hset : {k | k ∈ keys'} = {k | k ∈ keys} := Set.ext fun k => (hkeys k).symm
  obtain ⟨b, seed, rfl, hb⟩ := hf.exists_holds
  obtain ⟨b', seed', rfl, hb'⟩ := hf'.exists_holds
  obtain rfl : seed = seed' := hb.rawSeed.symm.trans (hseed.trans hb'.rawSeed)
  rw [hslots, hset] at hb'
  have hs := Banding.solve_wellFormed hb.wellFormed
  have hs' := Banding.solve_wellFormed hb'.wellFormed
  rw [hb.slots] at hs
  rw [hb'.slots] at hs'
  obtain ⟨hnarrow, hwide⟩ := hb.solve_eq hb'
  have hsegments : Narrows (numSlotsFor sizing keys.length R) R R' b.solve.segments
      b'.solve.segments := by
    rw [hnarrow, hwide]
    apply narrows_backSubstitute b'.solveRows hs.blocks hle
  exact ⟨hsegments, fun key => Solution.contains_of_narrows hle hs hs' hseed hsegments⟩

/-- The least solvable ordinal does not depend on the width. -/
theorem ordinalSeed_eq_of_firstOutcome (hkeys : ∀ k, k ∈ keys ↔ k ∈ keys')
    (hslots : numSlotsFor128 sizing keys'.length R' = numSlotsFor128 sizing keys.length R)
    {s : Solution128 R} {s' : Solution128 R'} (hs : firstOutcome sizing R keys = some s)
    (hs' : firstOutcome sizing R' keys' = some s') :
  s.ordinalSeed = s'.ordinalSeed
  := by
  obtain ⟨-, hsolvable, hleast⟩ :=
    (firstOutcome_eq_some_iff sizing R keys s.ordinalSeed).mp ⟨s, hs, rfl⟩
  obtain ⟨-, hsolvable', hleast'⟩ :=
    (firstOutcome_eq_some_iff sizing R' keys' s'.ordinalSeed).mp ⟨s', hs', rfl⟩
  rw [hslots] at hsolvable' hleast'
  simp only [← solvable_congr hkeys] at hsolvable' hleast'
  apply BitVec.eq_of_toNat_eq
  apply le_antisymm
  · by_contra hlt
    apply hleast s'.ordinalSeed (not_le.mp hlt) hsolvable'
  · by_contra hlt
    apply hleast' s.ordinalSeed (not_le.mp hlt) hsolvable

theorem firstOutcome_eq_none_congr (hkeys : ∀ k, k ∈ keys ↔ k ∈ keys')
    (hslots : numSlotsFor128 sizing keys'.length R' = numSlotsFor128 sizing keys.length R) :
  firstOutcome sizing R keys = none ↔ firstOutcome sizing R' keys' = none
  := by
  rw [firstOutcome_eq_none_iff, firstOutcome_eq_none_iff, hslots]
  simp only [solvable_congr hkeys]

theorem StdRibbon.Built.narrows (hle : R ≤ R') (hkeys : ∀ k, k ∈ keys ↔ k ∈ keys')
    (hslots : numSlotsFor128 sizing keys'.length R' = numSlotsFor128 sizing keys.length R)
    {f : StdRibbon R} {f' : StdRibbon R'} (hf : f.Built T sizing keys)
    (hf' : f'.Built T sizing keys') :
  f.soln.ordinalSeed = f'.soln.ordinalSeed
    ∧ Narrows (numSlotsFor128 sizing keys.length R) R R' f.soln.segments f'.soln.segments
    ∧ ∀ key, f'.contains key = some true → f.contains key = some true
  := by
  have hset : {k | k ∈ keys'} = {k | k ∈ keys} := Set.ext fun k => (hkeys k).symm
  have hordinal := ordinalSeed_eq_of_firstOutcome hkeys hslots hf.firstOutcome_eq
    hf'.firstOutcome_eq
  obtain ⟨o, -, hout⟩ := List.exists_of_findSome?_eq_some hf.firstOutcome_eq
  obtain ⟨o', -, hout'⟩ := List.exists_of_findSome?_eq_some hf'.firstOutcome_eq
  obtain rfl : o = o' := by
    rw [← Banding128.ordinalSeed_of_outcome hout, ← Banding128.ordinalSeed_of_outcome hout',
      hordinal]
  obtain ⟨b, hb, hsoln⟩ := Banding128.exists_holds_of_outcome hout
  obtain ⟨b', hb', hsoln'⟩ := Banding128.exists_holds_of_outcome hout'
  rw [hslots, hset] at hb'
  have hs := hb.intoSolution_wellFormed
  have hs' := hb'.intoSolution_wellFormed
  obtain ⟨hnarrow, hwide⟩ := hb.intoSolution_eq hb'
  have hsegments : Narrows (numSlotsFor128 sizing keys.length R) R R' b.intoSolution.segments
      b'.intoSolution.segments := by
    rw [hnarrow, hwide]
    apply narrows_backSubstitute b'.table hs.blocks hle
  have hseed : b.intoSolution.rawSeed = b'.intoSolution.rawSeed := by
    rw [hnarrow, hwide]
  refine ⟨hordinal, ?_, ?_⟩
  · rw [hsoln, hsoln']
    apply hsegments
  · intro key
    rw [StdRibbon.contains, StdRibbon.contains, hsoln, hsoln']
    apply Solution128.contains_of_narrows hle hs hs' hseed hsegments

/-- Of two filters of the same keys in tables of the same number of slots, the segments of the
narrower one are the first columns of the wider one, and it finds what the wider one finds.
The homogeneous filters must have the same seed; the standard ones have, and the build of
one fails exactly when that of the other does. -/
theorem width_nested (T : Target) (hle : R ≤ R') (hkeys : ∀ k, k ∈ keys ↔ k ∈ keys') :
  (numSlotsFor sizing keys'.length R' = numSlotsFor sizing keys.length R →
    ∀ (f : Ribbon R) (f' : Ribbon R'), f.Built T sizing keys → f'.Built T sizing keys' →
      f.soln.rawSeed = f'.soln.rawSeed →
      Narrows (numSlotsFor sizing keys.length R) R R' f.soln.segments f'.soln.segments
        ∧ ∀ key, f'.contains key = some true → f.contains key = some true)
  ∧ (numSlotsFor128 sizing keys'.length R' = numSlotsFor128 sizing keys.length R →
    (StdRibbon.fromKeys sizing R keys = some (.error .noSolvingSeed)
        ↔ StdRibbon.fromKeys sizing R' keys' = some (.error .noSolvingSeed))
      ∧ ∀ (f : StdRibbon R) (f' : StdRibbon R'), f.Built T sizing keys →
        f'.Built T sizing keys' →
        f.soln.ordinalSeed = f'.soln.ordinalSeed
          ∧ Narrows (numSlotsFor128 sizing keys.length R) R R' f.soln.segments f'.soln.segments
          ∧ ∀ key, f'.contains key = some true → f.contains key = some true)
  := by
  constructor
  · intro hslots f f' hf hf' hseed
    apply hf.narrows hle hkeys hslots hf' hseed
  · intro hslots
    constructor
    · have hfails : ∀ (R : ℕ) (keys : List U64),
          StdRibbon.fromKeys sizing R keys = some (.error .noSolvingSeed)
            ↔ firstOutcome sizing R keys = none := by
        intro R keys
        rw [StdRibbon.fromKeys_eq, Option.some.injEq, StdRibbon.ofSolution_eq_error_iff]
      rw [hfails, hfails, firstOutcome_eq_none_congr hkeys hslots]
    · intro f f' hf hf'
      apply hf.narrows hle hkeys hslots hf'

/-- Homogeneous filters of 5 and of 7 columns. -/
theorem width_nested_two :
  ∃ (f : Ribbon 5) (f' : Ribbon 7),
    Ribbon.fromKeysSeeded (fun n _ => n) 5 [2, 21, 2] 0 = some f
      ∧ Ribbon.fromKeysSeeded (fun n _ => n) 7 [21, 2, 21] 0 = some f'
      ∧ ∀ key, f'.contains key = some true → f.contains key = some true
  := by
  have hkeys : ∀ k : U64, k ∈ [2, 21, 2] ↔ k ∈ [21, 2, 21] := by
    intro k
    simp only [List.mem_cons]
    tauto
  obtain ⟨b, hbuild, hb⟩ := Ribbon.fromKeysSeeded_eq_some (fun n _ => n) 5 [2, 21, 2] 0
  obtain ⟨b', hbuild', hb'⟩ := Ribbon.fromKeysSeeded_eq_some (fun n _ => n) 7 [21, 2, 21] 0
  obtain ⟨-, hcontains⟩ := (@width_nested (fun n _ => n) 5 7 [2, 21, 2] [21, 2, 21] ⟨64, le_rfl⟩
    (by decide) hkeys).1 rfl _ _ (.fromKeysSeeded (by decide) hbuild)
    (.fromKeysSeeded (by decide) hbuild') (hb.rawSeed.trans hb'.rawSeed.symm)
  exact ⟨_, _, hbuild, hbuild', hcontains⟩

end Nested

end Pleat
