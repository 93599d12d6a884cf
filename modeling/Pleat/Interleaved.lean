import Pleat.Homogeneous.Solution
import Pleat.Standard.Solution

/-!
# The interleaved query is the plain one

The plain query reads the solution as a matrix of bits, one row a slot and one column a
result bit, and asks that the bits of every column that the row of the key selects have
the parity of the bit expected.  The queries of the filters, which read whole words of two
blocks and stop at the first column that disagrees, give the same answer, whatever the
segments hold; and a batch of queries gives the answers of its keys.
-/

namespace Pleat

open Bits

/-- The exclusive-or of the first `n` values of `f`. -/
def xorBelow (n : ℕ) (f : ℕ → Bool) : Bool :=
  (List.range n).foldl (fun acc k => acc ^^ f k) false

/-- The bit of column `j` at slot `i` of a solution of `R` columns. -/
def slotBit {w : ℕ} (R : ℕ) (segments : List (BitVec w)) (i j : ℕ) : Bool :=
  (segments.getD (i / w * R + j) 0).getLsbD (i % w)

/-- Every column satisfies the equation of a row placed at a slot. -/
def plainQuery {w : ℕ} (R : ℕ) (segments : List (BitVec w)) (startSlot : ℕ) (cr : BitVec w)
    (expected : U32) : Bool :=
  (List.range R).all fun j =>
    xorBelow w (fun k => cr.getLsbD k && slotBit R segments (startSlot + k) j)
      == expected.getLsbD j

/-- The sum of bits is one exactly when their exclusive-or is set. -/
theorem xorBelow_eq (n : ℕ) (f : ℕ → Bool) :
  (if xorBelow n f then 1 else 0 : Gf2) = ∑ k ∈ Finset.range n, if f k then 1 else 0
  := by
  induction n with
  | zero => rfl
  | succ n ih =>
      have hstep : xorBelow (n + 1) f = (xorBelow n f ^^ f n) := by
        rw [xorBelow, List.range_succ, List.foldl_append]
        rfl
      rw [Finset.sum_range_succ, ← ih, hstep]
      cases xorBelow n f <;> cases f n <;> decide

theorem ite_one_zero_injective {a b : Bool} :
  (if a then 1 else 0 : Gf2) = (if b then 1 else 0) ↔ a = b
  := by
  cases a <;> cases b <;> decide

/-- The plain query asks that every column has the sum expected. -/
theorem plainQuery_eq {w : ℕ} (R : ℕ) (segments : List (BitVec w)) (startSlot : ℕ) (cr : BitVec w)
    (expected : U32) :
  plainQuery R segments startSlot cr expected
    = decide (∀ j < R, ∑ k ∈ Finset.range w, bit cr k * cell R segments (startSlot + k) j
        = bit expected j)
  := by
  have hcolumn : ∀ j, (xorBelow w fun k => cr.getLsbD k && slotBit R segments (startSlot + k) j)
        = expected.getLsbD j
      ↔ ∑ k ∈ Finset.range w, bit cr k * cell R segments (startSlot + k) j = bit expected j := by
    intro j
    rw [← ite_one_zero_injective, xorBelow_eq]
    have hbit : ∀ k, (if (cr.getLsbD k && slotBit R segments (startSlot + k) j) then 1 else 0 : Gf2)
        = bit cr k * cell R segments (startSlot + k) j := by
      intro k
      rw [cell, bit, bit, slotBit]
      cases cr.getLsbD k <;> simp
    rw [Finset.sum_congr rfl fun k _ => hbit k]
    rfl
  rw [plainQuery, Bool.eq_iff_iff, List.all_eq_true, decide_eq_true_iff]
  constructor
  · intro h j hj
    apply (hcolumn j).mp (beq_iff_eq.mp (h j (List.mem_range.mpr hj)))
  · intro h j hj
    apply beq_iff_eq.mpr ((hcolumn j).mpr (h j (List.mem_range.mp hj)))

/-! ### Homogeneous filters -/

namespace Solution

variable {R : ℕ}

/-- The start slot of a key. -/
def startSlot (s : Solution R) (key : U64) : ℕ :=
  (start (ribbonHash key s.rawSeed) s.numStarts).toNat

/-- The plain query for a key: the row expected is zero. -/
def plainContains (s : Solution R) (key : U64) : Bool :=
  plainQuery R s.segments (s.startSlot key) (coeffRow (ribbonHash key s.rawSeed)) 0

theorem contains_eq_plain {s : Solution R} (hs : s.Valid) (key : U64) :
  s.contains key = some (s.plainContains key)
  := by
  rw [contains_eq hs.wellFormed, plainContains, plainQuery_eq]
  simp only [bit_zero, Pi.zero_apply]
  rfl

theorem containsBatch_eq {s : Solution R} (hs : s.Valid) {keys : List U64} {out : List Bool}
    (hlen : keys.length = out.length) :
  s.containsBatch keys out = some (keys.map s.plainContains)
  := batch_eq hlen (fun _ => ⟨_, rfl⟩) (contains_eq_plain hs)

theorem Valid.startSlot_add_lt {s : Solution R} (hs : s.Valid) (key : U64) {k : ℕ} (hk : k < W) :
  s.startSlot key + k < s.numSlots
  := by
  have hle := start_add_le hs.wellFormed.slots (ribbonHash key s.rawSeed)
  rw [← hs.wellFormed.starts] at hle
  rw [startSlot]
  omega

end Solution

/-! ### Standard filters -/

namespace Solution128

variable {R : ℕ}

/-- The start slot of a key. -/
def startSlot (s : Solution128 R) (key : U64) : ℕ :=
  (start (ribbonHash key (s.rawSeed.setWidth 64)) s.numStarts).toNat

/-- The plain query for a key: the row expected is the result row of the key. -/
def plainContains (s : Solution128 R) (key : U64) : Bool :=
  let h := ribbonHash key (s.rawSeed.setWidth 64)
  plainQuery R s.segments (s.startSlot key) (coeffRow128 h) (resultRow h)

theorem contains_eq_plain {s : Solution128 R} (hs : s.Valid) (key : U64) :
  s.contains key = some (s.plainContains key)
  := by
  rw [contains_eq hs.wellFormed, plainContains, plainQuery_eq]
  rfl

theorem containsBatch_eq {s : Solution128 R} (hs : s.Valid) {keys : List U64} {out : List Bool}
    (hlen : keys.length = out.length) :
  s.containsBatch keys out = some (keys.map s.plainContains)
  := batch_eq hlen (fun _ => ⟨_, rfl⟩) (contains_eq_plain hs)

theorem Valid.startSlot_add_lt {s : Solution128 R} (hs : s.Valid) (key : U64) {k : ℕ}
    (hk : k < W128) :
  s.startSlot key + k < s.numSlots
  := by
  have hle := start_add_le hs.wellFormed.slots (ribbonHash key (s.rawSeed.setWidth 64))
  rw [← hs.wellFormed.starts] at hle
  rw [startSlot]
  omega

end Solution128

/-! ### Both families -/

/-- For every valid solution, whatever its segments hold, the plain query reads bits that the
segments hold, `contains` answers what the plain query answers, and a batch writes these
answers at the places of the keys. -/
theorem interleaved_query_eq_plain (R : ℕ) :
  (∀ s : Solution R, s.Valid →
      (∀ i < s.numSlots, ∀ j < R, i / W * R + j < s.segments.length)
      ∧ (∀ key, ∀ k < W, s.startSlot key + k < s.numSlots)
      ∧ (∀ key, s.contains key = some (s.plainContains key))
      ∧ ∀ keys out, keys.length = out.length →
          s.containsBatch keys out = some (keys.map s.plainContains))
  ∧ (∀ s : Solution128 R, s.Valid →
      (∀ i < s.numSlots, ∀ j < R, i / W128 * R + j < s.segments.length)
      ∧ (∀ key, ∀ k < W128, s.startSlot key + k < s.numSlots)
      ∧ (∀ key, s.contains key = some (s.plainContains key))
      ∧ ∀ keys out, keys.length = out.length →
          s.containsBatch keys out = some (keys.map s.plainContains))
  := by
  constructor
  · intro s hs
    refine ⟨?_, ?_, Solution.contains_eq_plain hs, fun _ _ => Solution.containsBatch_eq hs⟩
    · exact fun i hi j hj => segment_lt hs.blocks hs.segments hi hj
    · exact fun key k hk => hs.startSlot_add_lt key hk
  · intro s hs
    refine ⟨?_, ?_, Solution128.contains_eq_plain hs, fun _ _ => Solution128.containsBatch_eq hs⟩
    · exact fun i hi j hj => segment_lt hs.blocks hs.segments hi hj
    · exact fun key k hk => hs.startSlot_add_lt key hk

/-- Solutions of two blocks of both families, with all bits set, and a batch of two keys. -/
theorem interleaved_query_eq_plain_ones :
  let s : Solution 3 := Solution.fromParts 65 9 (List.replicate 6 (BitVec.allOnes 64))
  let s' : Solution128 3 := Solution128.fromParts 129 9 (List.replicate 6 (BitVec.allOnes 128))
  s.containsBatch [4, 5] [false, false] = some [s.plainContains 4, s.plainContains 5]
    ∧ s'.containsBatch [4, 5] [false, false] = some [s'.plainContains 4, s'.plainContains 5]
  := by
  intro s s'
  obtain ⟨hhomog, hstd⟩ := interleaved_query_eq_plain 3
  constructor
  · obtain ⟨-, -, -, hbatch⟩ := hhomog s ⟨by decide, by decide, by decide⟩
    apply hbatch [4, 5] [false, false] rfl
  · obtain ⟨-, -, -, hbatch⟩ := hstd s' ⟨by decide, by decide, by decide⟩
    apply hbatch [4, 5] [false, false] rfl

end Pleat
