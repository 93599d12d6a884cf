import Pleat.Query

/-!
# Homogeneous banding

The band matrix of the homogeneous filter (`banding.rs`): its rows are coefficient rows of
64 bits, and the result of every key is zero.  An access out of bounds and a loop that has
not returned within its fuel are `none`.

Inserting a key adds its equation to the span of the stored rows, whatever the order of
the keys, and always succeeds on a table built by insertions.
-/

namespace Pleat

open Bits Linear

/-- `W`, the number of bits of a coefficient row. -/
abbrev W : ℕ := 64

/-- The band matrix over `R` result columns: one coefficient row for each slot, zero at an
empty slot. -/
structure Banding (R : ℕ) where
  coeffRows : List U64
  numStarts : U64
  rawSeed : U64
  deriving DecidableEq

namespace Banding

variable {R : ℕ}

/-- An empty matrix.  The number of slots must be a multiple of `W`; fewer than `W` slots
make the number of starts underflow. -/
def new (R numSlots : ℕ) (rawSeed : U64) : Option (Banding R) :=
  if numSlots % W = 0 ∧ W ≤ numSlots then
    some {
      coeffRows := List.replicate numSlots 0
      numStarts := BitVec.ofNat 64 (numSlots - W + 1)
      rawSeed := rawSeed }
  else
    none

def numSlots (b : Banding R) : ℕ :=
  b.coeffRows.length

/-- The loop of `add` at slot `i` with what is left of the row in `cr`. -/
def addLoop (coeffRows : List U64) : ℕ → ℕ → U64 → Option (List U64 × Bool)
  | 0, _, _ => none
  | fuel + 1, i, cr => do
      let crAtI ← coeffRows[i]?
      if crAtI = 0 then
        some (coeffRows.set i cr, true)
      else
        let cr := cr ^^^ crAtI
        if cr = 0 then
          some (coeffRows, true)
        else
          let tz := cr.ctz.toNat
          addLoop coeffRows fuel (i + tz) (cr >>> tz)

/-- Insert one key.  The slot visited moves up at every turn of the loop, so that a turn
for each slot is enough. -/
def add (b : Banding R) (key : U64) : Option (Banding R × Bool) := do
  let h := ribbonHash key b.rawSeed
  let (coeffRows, ok) ←
    addLoop b.coeffRows b.numSlots (start h b.numStarts).toNat (coeffRow h)
  some ({ b with coeffRows }, ok)

/-- Insert keys in order; what `add` returns is ignored. -/
def addAll (b : Banding R) : List U64 → Option (Banding R)
  | [] => some b
  | k :: keys => do
      let (b, _) ← b.add k
      b.addAll keys

/-- The right-hand side back-substitution takes for a slot: zero at an occupied slot, and
pseudorandom data at an empty one. -/
def fillRow (cr : U64) (i : ℕ) : U32 :=
  if cr = 0 then (BitVec.ofNat 64 i * 0x9E3779B185EBCA87 : U64).setWidth 32 else 0

/-- The rows that back-substitution reads. -/
def solveRows (b : Banding R) : Table 64 32 :=
  fun i => (b.coeffRows.getD i 0, fillRow (b.coeffRows.getD i 0) i)

def backSubstitute (b : Banding R) : List U64 :=
  Pleat.backSubstitute R b.numSlots b.solveRows

/-! ### The loop of an insertion -/

section Turns

variable {coeffRows : List U64} {i : ℕ} {cr crAtI : U64}

/-- At an empty slot the loop places what is left of the row. -/
theorem addLoop_placed (h : coeffRows[i]? = some 0) (fuel : ℕ) :
  addLoop coeffRows (fuel + 1) i cr = some (coeffRows.set i cr, true)
  := by
  rw [addLoop, h, Option.bind_eq_bind, Option.bind_some, if_pos rfl]

/-- A row of which nothing is left is dropped. -/
theorem addLoop_vanished (h : coeffRows[i]? = some crAtI) (hne : crAtI ≠ 0)
    (hzero : cr ^^^ crAtI = 0) (fuel : ℕ) :
  addLoop coeffRows (fuel + 1) i cr = some (coeffRows, true)
  := by
  rw [addLoop, h, Option.bind_eq_bind, Option.bind_some, if_neg hne]
  apply if_pos hzero

/-- Otherwise the loop moves on. -/
theorem addLoop_advanced (h : coeffRows[i]? = some crAtI) (hne : crAtI ≠ 0)
    (hrest : cr ^^^ crAtI ≠ 0) (fuel : ℕ) :
  addLoop coeffRows (fuel + 1) i cr
    = addLoop coeffRows fuel (i + (cr ^^^ crAtI).ctz.toNat)
        ((cr ^^^ crAtI) >>> (cr ^^^ crAtI).ctz.toNat)
  := by
  rw [addLoop, h, Option.bind_eq_bind, Option.bind_some, if_neg hne]
  apply if_neg hrest

end Turns

/-- The table of a list of coefficient rows. -/
abbrev rowsTable (coeffRows : List U64) : Table 64 0 :=
  Table.ofLists 0 coeffRows []

theorem rowsTable_of_getElem? {coeffRows : List U64} {i : ℕ} {c : U64}
    (h : coeffRows[i]? = some c) :
  rowsTable coeffRows i = (c, 0)
  := by
  have hi := Table.ofLists_add 0 coeffRows ([] : List (BitVec 0)) i
  rw [Nat.zero_add, List.getD_eq_getElem?_getD, h] at hi
  apply hi

theorem rowsTable_set {coeffRows : List U64} {i : ℕ} (hi : i < coeffRows.length) (c : U64) :
  rowsTable (coeffRows.set i c) = Function.update (rowsTable coeffRows) i (c, 0)
  := by
  have hzero : (([] : List (BitVec 0)).set i 0).getD i 0 = 0 := rfl
  have hset := Table.ofLists_set 0 hi c hzero
  rwa [Nat.zero_add] at hset

/-- The loop returns within `n - i` turns, and what it returns is an insertion of the
equation of which the row is left. -/
theorem addLoop_insertion {n : ℕ} {coeffRows : List U64} (ht : (rowsTable coeffRows).WellFormed n)
    (hlen : coeffRows.length = n) {e : RowEquation} {fuel i : ℕ} {cr : U64}
    (h : Reducing (rowsTable coeffRows) n e i cr (0 : BitVec 0)) (hfuel : n ≤ i + fuel) :
  ∃ rows, addLoop coeffRows fuel i cr = some (rows, true) ∧ rows.length = n
    ∧ Insertion (rowsTable coeffRows) n e (rowsTable rows) true
  := by
  -- Each turn moves what is left to a later slot.
  induction fuel generalizing i cr with
  | zero =>
      have := h.within.slot_lt
      omega
  | succ fuel ih =>
      have hi : i < coeffRows.length := hlen ▸ h.within.slot_lt
      have hread : coeffRows[i]? = some coeffRows[i] := List.getElem?_eq_getElem hi
      have hrow := rowsTable_of_getElem? hread
      by_cases hempty : coeffRows[i] = 0
      · have hslot : coeffRows[i]? = some 0 := hempty ▸ hread
        refine ⟨_, addLoop_placed hslot fuel, by simp [hlen], ?_⟩
        rw [rowsTable_set hi]
        apply h.placed
        rw [hrow]
        apply hempty
      · by_cases hzero : cr ^^^ coeffRows[i] = 0
        · exact ⟨_, addLoop_vanished hread hempty hzero fuel, hlen, h.vanished hrow hzero⟩
        · obtain ⟨hpos, hadv⟩ := h.advanced ht hrow hempty hzero
          rw [addLoop_advanced hread hempty hzero]
          apply ih hadv (by omega)

/-! ### Matrices built by insertions -/

/-- The table of a matrix. -/
abbrev table (b : Banding R) : Table 64 0 :=
  rowsTable b.coeffRows

theorem table_apply (b : Banding R) (i : ℕ) :
  b.table i = (b.coeffRows.getD i 0, 0)
  := by
  have h := Table.ofLists_add 0 b.coeffRows ([] : List (BitVec 0)) i
  rwa [Nat.zero_add] at h

/-- The form every matrix has that starts empty and is filled by insertions. -/
structure WellFormed (b : Banding R) : Prop where
  blocks : b.numSlots % W = 0
  slots : W ≤ b.numSlots
  starts : b.numStarts = BitVec.ofNat 64 (b.numSlots - W + 1)
  table : b.table.WellFormed b.numSlots

/-- The equation of a key: its coefficient row placed at its start slot, with result
zero. -/
noncomputable def keyEquation (numStarts rawSeed : U64) (key : U64) : RowEquation :=
  let h := ribbonHash key rawSeed
  equationAt (start h numStarts).toNat (coeffRow h) (0 : BitVec 0)

/-- The equations of a set of keys. -/
def keyEquations (numStarts rawSeed : U64) (keys : Set U64) : Set RowEquation :=
  keyEquation numStarts rawSeed '' keys

theorem new_eq_some {numSlots : ℕ} {rawSeed : U64} (hblocks : numSlots % W = 0)
    (hslots : W ≤ numSlots) :
  new R numSlots rawSeed = some {
    coeffRows := List.replicate numSlots 0
    numStarts := BitVec.ofNat 64 (numSlots - W + 1)
    rawSeed := rawSeed }
  := if_pos ⟨hblocks, hslots⟩

theorem rowsTable_replicate (n : ℕ) :
  rowsTable (List.replicate n 0) = 0
  := Table.ofLists_replicate n 0

/-- Lists of the same length with the same table are equal. -/
theorem eq_of_rowsTable_eq {rows rows' : List U64} (hlen : rows.length = rows'.length)
    (h : rowsTable rows = rowsTable rows') :
  rows = rows'
  := by
  apply List.ext_getElem hlen
  intro i hi hi'
  have hrow := congrFun h i
  rw [rowsTable_of_getElem? (List.getElem?_eq_getElem hi),
    rowsTable_of_getElem? (List.getElem?_eq_getElem hi')] at hrow
  apply (Prod.mk.inj hrow).1

/-- The row of a key starts in the matrix and does not reach past its last slot. -/
theorem WellFormed.within_start {b : Banding R} (hb : b.WellFormed) (key : U64) :
  Within b.numSlots (start (ribbonHash key b.rawSeed) b.numStarts).toNat
    (coeffRow (ribbonHash key b.rawSeed))
  := by
  rw [hb.starts]
  apply Pleat.within_start hb.slots _ (coeffRow_odd _)

/-- Inserting a key succeeds, and is an insertion of its equation. -/
theorem add_insertion {b : Banding R} (hb : b.WellFormed) (key : U64) :
  ∃ rows, b.add key = some ({ b with coeffRows := rows }, true) ∧ rows.length = b.numSlots
    ∧ Insertion b.table b.numSlots (keyEquation b.numStarts b.rawSeed key) (rowsTable rows) true
  := by
  have hstart := hb.within_start key
  obtain ⟨rows, hrun, hlen, hins⟩ :=
    addLoop_insertion hb.table rfl (Reducing.refl _ hstart 0) (Nat.le_add_left b.numSlots _)
  refine ⟨rows, ?_, hlen, hins⟩
  rw [add, hrun]
  rfl

/-! ### The keys a matrix holds -/

/-- The matrix `b` has `n` slots and seed `seed`, and its rows span the equations of the
keys of a set: all that the order of the insertions leaves fixed. -/
structure Holds (b : Banding R) (n : ℕ) (seed : U64) (keys : Set U64) : Prop where
  wellFormed : b.WellFormed
  slots : b.numSlots = n
  rawSeed : b.rawSeed = seed
  span : b.table.span = Submodule.span Gf2 (keyEquations b.numStarts seed keys)

theorem Holds.numStarts_eq {b : Banding R} {n : ℕ} {seed : U64} {keys : Set U64}
    (h : b.Holds n seed keys) :
  b.numStarts = BitVec.ofNat 64 (n - W + 1)
  := by
  rw [h.wellFormed.starts, h.slots]

/-- An empty matrix holds no keys. -/
theorem exists_new (R : ℕ) {n : ℕ} (seed : U64) (hblocks : n % W = 0) (hslots : W ≤ n) :
  ∃ b : Banding R, new R n seed = some b ∧ b.Holds n seed ∅
  := by
  have hlen : (List.replicate n (0 : U64)).length = n := List.length_replicate
  refine ⟨_, new_eq_some hblocks hslots, ?_⟩
  constructor
  · constructor
    · rw [numSlots, hlen, hblocks]
    · rw [numSlots, hlen]
      apply hslots
    · rw [numSlots, hlen]
    · rw [table, rowsTable_replicate]
      apply Table.wellFormed_zero
  · apply hlen
  · rfl
  · rw [table, rowsTable_replicate, Table.span_zero, keyEquations, Set.image_empty,
      Submodule.span_empty]

/-- An insertion of the equation of a key adds the key to the keys held. -/
theorem Holds.inserted {b : Banding R} {n : ℕ} {seed : U64} {keys : Set U64}
    (h : b.Holds n seed keys) {key : U64} {rows : List U64} (hlen : rows.length = n)
    (hins : Insertion b.table n (keyEquation b.numStarts seed key) (rowsTable rows) true) :
  Holds (R := R) { b with coeffRows := rows } n seed (insert key keys)
  := by
  have hslots : numSlots (R := R) { b with coeffRows := rows } = b.numSlots := by
    rw [h.slots]
    apply hlen
  have ht := h.wellFormed.table
  rw [h.slots] at ht
  constructor
  · constructor
    · rw [hslots, h.wellFormed.blocks]
    · rw [hslots]
      apply h.wellFormed.slots
    · rw [hslots, h.wellFormed.starts]
    · rw [hslots, h.slots]
      apply hins.wellFormed ht
  · rw [hslots, h.slots]
  · apply h.rawSeed
  · rw [table, hins.span_eq ht, h.span, keyEquations, keyEquations, Set.image_insert_eq,
      Submodule.span_insert, sup_comm]

/-- Inserting a key adds it to the keys held. -/
theorem Holds.add {b : Banding R} {n : ℕ} {seed : U64} {keys : Set U64}
    (h : b.Holds n seed keys) (key : U64) :
  ∃ b', b.add key = some (b', true) ∧ b'.Holds n seed (insert key keys)
  := by
  obtain ⟨rows, hadd, hlen, hins⟩ := add_insertion h.wellFormed key
  rw [h.slots] at hlen
  rw [h.slots, h.rawSeed] at hins
  exact ⟨_, hadd, h.inserted hlen hins⟩

/-- Inserting keys adds them to the keys held, whatever their order. -/
theorem Holds.addAll {b : Banding R} {n : ℕ} {seed : U64} {keys : Set U64}
    (h : b.Holds n seed keys) (new : List U64) :
  ∃ b', b.addAll new = some b' ∧ b'.Holds n seed (keys ∪ {k | k ∈ new})
  := by
  induction new generalizing b keys with
  | nil => exact ⟨b, rfl, by simpa using h⟩
  | cons k new ih =>
      obtain ⟨b₁, hadd, h₁⟩ := h.add k
      obtain ⟨b₂, haddAll, h₂⟩ := ih h₁
      use b₂
      constructor
      · rw [Banding.addAll, hadd]
        apply haddAll
      · have hset : insert k keys ∪ {x | x ∈ new} = keys ∪ {x | x ∈ k :: new} := by
          ext x
          simp only [Set.mem_union, Set.mem_insert_iff, Set.mem_ofPred_eq, List.mem_cons]
          tauto
        rwa [hset] at h₂

/-- The equation of a held key is in the span of the rows. -/
theorem Holds.keyEquation_mem {b : Banding R} {n : ℕ} {seed : U64} {keys : Set U64}
    (h : b.Holds n seed keys) {key : U64} (hkey : key ∈ keys) :
  keyEquation b.numStarts b.rawSeed key ∈ b.table.span
  := by
  rw [h.span, h.rawSeed]
  exact Submodule.subset_span ⟨key, hkey, rfl⟩

end Banding

end Pleat
