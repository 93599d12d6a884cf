import Pleat.Bytes
import Pleat.Data.RangeReduction
import Pleat.Keys

/-!
# Seeds

What a seed changes.  The hash of a key depends on the sum of the key and the raw seed alone,
so that to change the seed is to translate the keys: a filter under one seed is the filter of
other keys under another.  Under every seed the keys spread over the start slots as evenly as
can be.  Different ordinal seeds stand for different raw seeds, so that a retry of the
standard build gives every key another hash and another row.
-/

namespace Pleat

open Bits Linear Mixing

/-! ### The start slots -/

/-- The start slot of a hash is a range reduction of it. -/
theorem start_eq_reduce (h numStarts : U64) :
  (start h numStarts).toNat = RangeReduction.reduce (2 ^ 64) numStarts.toNat h.toNat
  := start_toNat h numStarts

/-- Under every seed each hash is that of one key. -/
theorem ncard_hash (seed : U64) (P : ℕ → Prop) [DecidablePred P] :
  {key : U64 | P (ribbonHash key seed).toNat}.ncard = ((Finset.range (2 ^ 64)).filter P).card
  := by
  have hhash := ribbonHash_bijective seed
  have hinj : Function.Injective (fun key : U64 => (ribbonHash key seed).toNat) :=
    BitVec.toNat_injective.comp hhash.injective
  rw [← Set.ncard_coe_finset, ← Set.ncard_image_of_injective _ hinj]
  congr 1
  ext x
  rw [Finset.mem_coe, Finset.mem_filter, Finset.mem_range]
  constructor
  · rintro ⟨key, hkey, rfl⟩
    exact ⟨(ribbonHash key seed).isLt, hkey⟩
  · rintro ⟨hx, hP⟩
    obtain ⟨key, hkey⟩ := hhash.surjective (BitVec.ofNat 64 x)
    have hvalue : (ribbonHash key seed).toNat = x := by
      change ribbonHash key seed = _ at hkey
      rw [hkey, BitVec.toNat_ofNat, Nat.mod_eq_of_lt hx]
    refine ⟨key, ?_, hvalue⟩
    change P (ribbonHash key seed).toNat
    rwa [hvalue]

/-- Under every seed a range of `hi - lo` of the start slots has its share of all keys, up to less
than one key: a single slot, a window and the range of a thread alike. -/
theorem start_balanced (seed numStarts : U64) {lo hi : ℕ} (hpos : 0 < numStarts.toNat)
    (hlo : lo ≤ hi) (hhi : hi ≤ numStarts.toNat) :
  let count := {key : U64 | lo ≤ (start (ribbonHash key seed) numStarts).toNat
    ∧ (start (ribbonHash key seed) numStarts).toNat < hi}.ncard
  count * numStarts.toNat < (hi - lo) * 2 ^ 64 + numStarts.toNat
    ∧ (hi - lo) * 2 ^ 64 < count * numStarts.toNat + numStarts.toNat
  := by
  intro count
  have hcount : count = ((Finset.range (2 ^ 64)).filter fun x =>
      lo ≤ RangeReduction.reduce (2 ^ 64) numStarts.toNat x
        ∧ RangeReduction.reduce (2 ^ 64) numStarts.toNat x < hi).card := by
    simp only [count, start_eq_reduce]
    apply ncard_hash seed fun x => lo ≤ RangeReduction.reduce (2 ^ 64) numStarts.toNat x
      ∧ RangeReduction.reduce (2 ^ 64) numStarts.toNat x < hi
  rw [hcount]
  apply RangeReduction.card_reduce_bounds (Nat.two_pow_pos 64) hpos hlo hhi

/-- The first of 65 start slots. -/
theorem start_balanced_first :
  {key : U64 | 0 ≤ (start (ribbonHash key 7) 65).toNat
    ∧ (start (ribbonHash key 7) 65).toNat < 1}.ncard * 65 < 1 * 2 ^ 64 + 65
  := by
  apply (start_balanced 7 65 (by decide) (Nat.zero_le 1) (by decide)).1

/-! ### Ordinal seeds -/

/-- The low half of the raw seed is an odd multiple of the ordinal, with the high half of each
byte added to the low half. -/
theorem ordinalToRawSeed_eq (ordinal : U32) :
  ordinalToRawSeed ordinal
    = xorMasked (0xf0f0f0f0 : U32) 4 (ordinal * toRawSeedFactor.setWidth 32)
  := by
  have hlow : (ordinal.setWidth 64 * toRawSeedFactor).setWidth 32
      = ordinal * toRawSeedFactor.setWidth 32 := by
    rw [BitVec.setWidth_mul _ _ (by decide), BitVec.setWidth_setWidth_of_le _ (by decide),
      BitVec.setWidth_eq]
  have hmask : ∀ i < 32, seedMixMask.getLsbD (4 + i) = (0xf0f0f0f0 : U32).getLsbD (4 + i) := by
    decide
  have hbound : ∀ i < 32, (0xf0f0f0f0 : U32).getLsbD (4 + i) = true → 4 + i < 32 := by
    decide
  rw [← hlow, ordinalToRawSeed, xorMasked, seedMixShift]
  apply BitVec.eq_of_getLsbD_eq
  intro i hi
  rw [BitVec.getLsbD_setWidth, BitVec.getLsbD_xor, BitVec.getLsbD_xor, BitVec.getLsbD_ushiftRight,
    BitVec.getLsbD_ushiftRight, BitVec.getLsbD_and, BitVec.getLsbD_and, BitVec.getLsbD_setWidth,
    BitVec.getLsbD_setWidth, hmask i hi]
  cases hbit : (0xf0f0f0f0 : U32).getLsbD (4 + i) with
  | false => simp [hi]
  | true => simp [hi, hbound i hi hbit]

theorem ordinalToRawSeed_bijective :
  Function.Bijective ordinalToRawSeed
  := by
  have hmul : Function.Bijective (fun x : U32 => x * toRawSeedFactor.setWidth 32) :=
    mul_bijective (by decide)
  have hmask : Function.Bijective (xorMasked (0xf0f0f0f0 : U32) 4) :=
    (xorMasked_involutive (by decide)).bijective
  rw [funext ordinalToRawSeed_eq]
  exact hmask.comp hmul

/-- The key and the seed enter the hash by their sum. -/
theorem ribbonHash_add (key seed d : U64) :
  ribbonHash key (seed + d) = ribbonHash (key + d) seed
  := by
  rw [ribbonHash_eq, ribbonHash_eq, BitVec.add_assoc, BitVec.add_comm d seed]

theorem ribbonHash_comm (key seed : U64) :
  ribbonHash key seed = ribbonHash seed key
  := by
  rw [ribbonHash_eq, ribbonHash_eq, BitVec.add_comm]

/-- Every ordinal seed stands for another raw seed, and a retry under another ordinal gives every
key another hash and another coefficient row. -/
theorem ordinal_rehashes :
  Function.Bijective ordinalToRawSeed
  ∧ ∀ o o' : U32, o ≠ o' → ∀ key : U64,
      let h := ribbonHash key ((ordinalToRawSeed o).setWidth 64)
      let h' := ribbonHash key ((ordinalToRawSeed o').setWidth 64)
      h ≠ h' ∧ coeffRow128 h ≠ coeffRow128 h'
  := by
  use ordinalToRawSeed_bijective
  intro o o' hne key h h'
  have hraw : (ordinalToRawSeed o).setWidth 64 ≠ (ordinalToRawSeed o').setWidth 64 := by
    intro heq
    apply hne
    apply ordinalToRawSeed_bijective.injective
    have hnarrow := congrArg (BitVec.setWidth 32) heq
    rwa [BitVec.setWidth_setWidth_of_le _ (by decide), BitVec.setWidth_setWidth_of_le _ (by decide),
      BitVec.setWidth_eq, BitVec.setWidth_eq] at hnarrow
  have hhash : h ≠ h' := by
    intro heq
    apply hraw
    apply (ribbonHash_bijective key).injective
    dsimp only
    rw [ribbonHash_comm, ribbonHash_comm _ key]
    exact heq
  exact ⟨hhash, fun heq => hhash (coeffRow128_injective heq)⟩

/-- The first retry of a key. -/
theorem ordinal_rehashes_five :
  coeffRow128 (ribbonHash 5 ((ordinalToRawSeed 0).setWidth 64))
    ≠ coeffRow128 (ribbonHash 5 ((ordinalToRawSeed 1).setWidth 64))
  := (ordinal_rehashes.2 0 1 (by decide) 5).2

/-! ### Translations -/

namespace Banding

variable {R n : ℕ}

theorem keyEquation_translate (numStarts seed d : U64) (key : U64) :
  keyEquation numStarts (seed + d) key = keyEquation numStarts seed (key + d)
  := by
  rw [keyEquation, keyEquation, ribbonHash_add]

/-- A matrix that holds keys under a seed holds their translations under another. -/
theorem Holds.translate {b : Banding R} {seed d : U64} {keys : Set U64}
    (h : b.Holds n (seed + d) keys) :
  Holds (R := R) ⟨b.coeffRows, b.numStarts, seed⟩ n seed ((· + d) '' keys)
  where
  wellFormed := ⟨h.wellFormed.blocks, h.wellFormed.slots, h.wellFormed.starts, h.wellFormed.table⟩
  slots := h.slots
  rawSeed := rfl
  span := by
    have hequations : keyEquations b.numStarts seed ((· + d) '' keys)
        = keyEquations b.numStarts (seed + d) keys := by
      rw [keyEquations, keyEquations, Set.image_image]
      simp only [keyEquation_translate]
    rw [hequations]
    apply h.span

end Banding

namespace Banding128

variable {R n : ℕ}

theorem system_translate (n : ℕ) (ordinal : U32) (keys : Set U64) :
  system n 0 ((· + (ordinalToRawSeed ordinal).setWidth 64) '' keys) = system n ordinal keys
  := by
  have hzero : (ordinalToRawSeed 0).setWidth 64 = (0 : U64) := by decide
  rw [system, system, keyEquations, keyEquations, Set.image_image]
  apply Set.image_congr
  intro key _
  rw [keyEquation, keyEquation, hzero, ← ribbonHash_add, show (0 : U64) + _ = _ from
    BitVec.zero_add _]

/-- A matrix that holds keys under an ordinal holds their translations under the first. -/
theorem Holds.translate {b : Banding128 R} {ordinal : U32} {keys : Set U64}
    (h : b.Holds n ordinal keys) :
  Holds (R := R) ⟨b.coeffRows, b.resultRows, b.numStarts, 0, 0⟩ n 0
    ((· + (ordinalToRawSeed ordinal).setWidth 64) '' keys)
  where
  shape := ⟨h.shape.blocks, h.shape.slots, h.shape.coeffs, h.shape.results, h.shape.starts⟩
  ordinalSeed := rfl
  rawSeed := (show ordinalToRawSeed 0 = 0 by decide).symm
  table := h.table
  span := by
    rw [system_translate]
    apply h.span

end Banding128

/-- The set of the keys of a translated list. -/
theorem mem_map_add (keys : List U64) (d : U64) :
  {k | k ∈ keys.map (· + d)} = (· + d) '' {k | k ∈ keys}
  := by
  ext k
  rw [Set.mem_image]
  apply List.mem_map

section Translate

variable {T : Target} {sizing : ℕ → ℕ → ℕ} {R : ℕ} {keys : List U64}

/-- The filter with another raw seed. -/
def Ribbon.withSeed (seed : U64) (f : Ribbon R) : Ribbon R :=
  ⟨{ f.soln with rawSeed := seed }⟩

/-- The filter with the seeds of the first ordinal. -/
def StdRibbon.withFirstSeed (f : StdRibbon R) : StdRibbon R :=
  ⟨{ f.soln with rawSeed := 0, ordinalSeed := 0 }⟩

theorem Ribbon.Built.translate {f : Ribbon R} (hf : f.Built T sizing keys) (seed : U64) :
  Ribbon.fromKeysSeeded sizing R (keys.map (· + (f.soln.rawSeed - seed))) seed
      = some (f.withSeed seed)
    ∧ ∀ key, f.contains key
      = (f.withSeed seed).contains (key + (f.soln.rawSeed - seed))
  := by
  have hsum : seed + (f.soln.rawSeed - seed) = f.soln.rawSeed := by
    rw [BitVec.add_comm, BitVec.sub_add_cancel]
  constructor
  · obtain ⟨b, s, rfl, hb⟩ := hf.exists_holds
    have hseed : seed + (b.solve.rawSeed - seed) = s := hsum.trans hb.rawSeed
    rw [← hseed] at hb
    have htranslated := hb.translate
    rw [← mem_map_add] at htranslated
    apply Ribbon.fromKeysSeeded_eq_of_holds (b := ⟨b.coeffRows, b.numStarts, seed⟩)
    rw [List.length_map]
    apply htranslated
  · intro key
    rw [Ribbon.contains, Ribbon.contains, Solution.contains, Solution.contains,
      show (f.withSeed seed).soln.rawSeed = seed from rfl, ← ribbonHash_add, hsum]
    rfl

theorem StdRibbon.Built.translate {f : StdRibbon R} (hf : f.Built T sizing keys) :
  StdRibbon.fromKeys sizing R (keys.map (· + f.soln.rawSeed.setWidth 64))
      = some (.ok f.withFirstSeed)
    ∧ ∀ key, f.contains key
      = f.withFirstSeed.contains (key + f.soln.rawSeed.setWidth 64)
  := by
  constructor
  · obtain ⟨o, -, hout⟩ := List.exists_of_findSome?_eq_some hf.firstOutcome_eq
    obtain ⟨b, hb, hsoln⟩ := Banding128.exists_holds_of_outcome hout
    have hraw : f.soln.rawSeed = ordinalToRawSeed o := by
      rw [hsoln]
      apply hb.rawSeed
    have htranslated := hb.translate
    rw [← mem_map_add, ← hraw] at htranslated
    have hfirst : firstOutcome sizing R (keys.map (· + f.soln.rawSeed.setWidth 64))
        = some f.withFirstSeed.soln := by
      rw [firstOutcome, List.length_map, show ordinals = 0 :: ordinals.tail by decide,
        List.findSome?_cons, htranslated.outcome_eq, StdRibbon.withFirstSeed, hsoln]
      rfl
    rw [StdRibbon.fromKeys_eq, hfirst]
    rfl
  · intro key
    have hzero : f.withFirstSeed.soln.rawSeed.setWidth 64 = (0 : U64) := rfl
    have hsum : (0 : U64) + f.soln.rawSeed.setWidth 64 = f.soln.rawSeed.setWidth 64 :=
      BitVec.zero_add _
    rw [StdRibbon.contains, StdRibbon.contains, Solution128.contains, Solution128.contains, hzero,
      ← ribbonHash_add, hsum]
    rfl

end Translate

/-- A seed is a translation of the keys.  Whatever seed a filter was built under, the filter of
the keys translated by the difference to another seed, under that seed, has the same segments,
and it answers a translated key as the filter answers the key; and whatever ordinal a standard
build came to, the first ordinal solves the keys translated by its raw seed, with the same
segments. -/
theorem seed_translates (T : Target) (sizing : ℕ → ℕ → ℕ) (R : ℕ) (keys : List U64) :
  (∀ f : Ribbon R, f.Built T sizing keys → ∀ seed,
    Ribbon.fromKeysSeeded sizing R (keys.map (· + (f.soln.rawSeed - seed))) seed
        = some (f.withSeed seed)
      ∧ ∀ key, f.contains key
        = (f.withSeed seed).contains (key + (f.soln.rawSeed - seed)))
  ∧ ∀ f : StdRibbon R, f.Built T sizing keys →
    StdRibbon.fromKeys sizing R (keys.map (· + f.soln.rawSeed.setWidth 64))
        = some (.ok f.withFirstSeed)
      ∧ ∀ key, f.contains key
        = f.withFirstSeed.contains (key + f.soln.rawSeed.setWidth 64)
  := ⟨fun _ hf => hf.translate, fun _ hf => hf.translate⟩

/-- The filter of the key 5 under seed 3 is that of the key 8 under seed 0. -/
theorem seed_translates_five :
  ∃ f : Ribbon 7, Ribbon.fromKeysSeeded (fun _ _ => 0) 7 [5] 3 = some f
    ∧ Ribbon.fromKeysSeeded (fun _ _ => 0) 7 [8] 0 = some (f.withSeed 0)
  := by
  obtain ⟨b, hbuild, hb⟩ := Ribbon.fromKeysSeeded_eq_some (fun _ _ => 0) 7 [5] 3
  have hseed : b.solve.rawSeed = 3 := hb.rawSeed
  obtain ⟨htranslated, -⟩ := (seed_translates ⟨64, le_rfl⟩ (fun _ _ => 0) 7 [5]).1 _
    (.fromKeysSeeded (by decide) hbuild) 0
  rw [hseed] at htranslated
  exact ⟨_, hbuild, htranslated⟩

end Pleat
