import Pleat.Checked.Pleating
import Pleat.Checked.Query
import Pleat.Standard.Solution

/-!
# Banding with arithmetic that can fail

The band matrices of both families with every operation of the machine written out: their
allocation, the loop of an insertion and back-substitution.  If the coefficient rows of a
matrix of whole blocks can be allocated, then no operation fails: the slot of the loop is
read before the loop moves it on by less than a row, and there are fewer segments than
slots.
-/

namespace Pleat.Checked

open Bits Format

variable {R : ℕ}

/-- `(num_slots - w + 1) as u64`, the number of starts for rows of `w` bits. -/
def startsFor (T : Target) (w numSlots : ℕ) : Option U64 := do
  let low ← checkedSub numSlots w
  let starts ← T.add low 1
  some (BitVec.ofNat 64 starts)

/-! ### Homogeneous matrices -/

/-- An empty matrix. -/
def newBanding (T : Target) (R numSlots : ℕ) (rawSeed : U64) : Option (Banding R) := do
  let rest ← checkedRem numSlots W
  if rest = 0 then do
    let coeffRows ← vec T 8 0 numSlots
    let numStarts ← startsFor T W numSlots
    some { coeffRows, numStarts, rawSeed }
  else
    none

/-- The loop of `add` at slot `i` with what is left of the row in `cr`. -/
def addLoop (T : Target) (coeffRows : List U64) : ℕ → ℕ → U64 → Option (List U64 × Bool)
  | 0, _, _ => none
  | fuel + 1, i, cr => do
      let crAtI ← coeffRows[i]?
      if crAtI = 0 then
        some (coeffRows.set i cr, true)
      else
        let cr := cr ^^^ crAtI
        if cr = 0 then
          some (coeffRows, true)
        else do
          let tz := cr.ctz.toNat
          let i ← T.add i tz
          let cr ← wordShr cr tz
          addLoop T coeffRows fuel i cr

/-- Insert one key. -/
def add (T : Target) (b : Banding R) (key : U64) : Option (Banding R × Bool) := do
  let h := ribbonHash key b.rawSeed
  let s ← start h b.numStarts
  let (coeffRows, ok) ← addLoop T b.coeffRows b.numSlots (T.cast s) (coeffRow h)
  some ({ b with coeffRows }, ok)

/-- Insert keys in order; what `add` returns is ignored. -/
def addAll (T : Target) (b : Banding R) : List U64 → Option (Banding R)
  | [] => some b
  | k :: keys => do
      let (b, _) ← add T b k
      addAll T b keys

/-! ### Standard matrices -/

/-- An empty matrix. -/
def newBanding128 (T : Target) (R numSlots : ℕ) : Option (Banding128 R) := do
  let rest ← checkedRem numSlots W128
  if rest = 0 then do
    let coeffRows ← vec T 16 0 numSlots
    let resultRows ← vec T 4 0 numSlots
    let numStarts ← startsFor T W128 numSlots
    some { coeffRows, resultRows, numStarts, rawSeed := 0, ordinalSeed := 0 }
  else
    none

/-- The loop of `add` at slot `i` with what is left of the rows in `cr` and `rr`. -/
def addLoop128 (T : Target) (coeffRows : List U128) (resultRows : List U32) :
    ℕ → ℕ → U128 → U32 → Option (List U128 × List U32 × Bool)
  | 0, _, _, _ => none
  | fuel + 1, i, cr, rr => do
      let crAtI ← coeffRows[i]?
      let rrAtI ← resultRows[i]?
      if crAtI = 0 then
        some (coeffRows.set i cr, resultRows.set i rr, true)
      else
        let cr := cr ^^^ crAtI
        let rr := rr ^^^ rrAtI
        if cr = 0 then
          some (coeffRows, resultRows, rr == 0)
        else do
          let tz := cr.ctz.toNat
          let i ← T.add i tz
          let cr ← wordShr cr tz
          addLoop128 T coeffRows resultRows fuel i cr rr

/-- Insert one key; false is an inconsistent dependence. -/
def add128 (T : Target) (b : Banding128 R) (key : U64) : Option (Banding128 R × Bool) := do
  let h := ribbonHash key (b.rawSeed.setWidth 64)
  let s ← start h b.numStarts
  let (coeffRows, resultRows, ok) ←
    addLoop128 T b.coeffRows b.resultRows b.numSlots (T.cast s) (coeffRow128 h) (resultRow h)
  some ({ b with coeffRows, resultRows }, ok)

/-- Insert keys in order until one fails. -/
def addEach128 (T : Target) (b : Banding128 R) : List U64 → Option (Banding128 R × Bool)
  | [] => some (b, true)
  | k :: keys => do
      let (b, ok) ← add128 T b k
      if ok then addEach128 T b keys else some (b, false)

/-! ### Back-substitution -/

section Rows

variable {w : ℕ}

/-- The state of column `j` after one more row. -/
def backSubstColumn (cr : BitVec w) (rr : U32) (j : ℕ) (sj : BitVec w) :
    Option (BitVec w) := do
  let tmp ← wordShl sj 1
  let high ← wordShr rr j
  let bit := BitVec.ofNat w ((tmp &&& cr).cpop.toNat % 2) ^^^ (high &&& 1).setWidth w
  some (tmp ||| bit)

/-- The state of all columns after one more row. -/
def backSubstRow (row : BitVec w × U32) (state : List (BitVec w)) : Option (List (BitVec w)) :=
  state.zipIdx.mapM fun (sj, j) => backSubstColumn row.1 row.2 j sj

/-- The state after the rows of the block that starts at `startSlot`. -/
def backSubstBlock (T : Target) (rows : ℕ → Option (BitVec w × U32)) (startSlot : ℕ)
    (state : List (BitVec w)) : Option (List (BitVec w)) := do
  let past ← T.add startSlot w
  (List.range' startSlot (past - startSlot)).reverse.foldlM
    (fun state i => do backSubstRow (← rows i) state) state

/-- The slice `data[lo..hi]` overwritten by `src`, which must be as long. -/
def copyFromSlice {α : Type*} (data : List α) (lo hi : ℕ) (src : List α) : Option (List α) := do
  let window ← slice data lo hi
  if window.length = src.length then some (Pleat.copyFromSlice data lo src) else none

/-- One block: the state is carried through its rows and copied to its segments. -/
def backSubstStep (T : Target) (R : ℕ) (rows : ℕ → Option (BitVec w × U32))
    (acc : List (BitVec w) × List (BitVec w)) (block : ℕ) :
    Option (List (BitVec w) × List (BitVec w)) := do
  let startSlot ← T.mul block w
  let state ← backSubstBlock T rows startSlot acc.2
  let segmentNum ← T.mul block R
  let past ← T.add segmentNum R
  let data ← copyFromSlice acc.1 segmentNum past state
  some (data, state)

/-- The segments of the solution of a table of `numSlots` slots in `R` columns. -/
def backSubstitute (T : Target) (R numSlots : ℕ) (rows : ℕ → Option (BitVec w × U32)) :
    Option (List (BitVec w)) := do
  let numBlocks ← checkedDiv numSlots w
  let numSegments ← T.mul numBlocks R
  let data ← vec T (w / 8) 0 numSegments
  let acc ← (List.range numBlocks).reverse.foldlM (backSubstStep T R rows) (data, List.replicate R 0)
  some acc.1

end Rows

/-- Back-substitute and keep what queries need. -/
def solve (T : Target) (b : Banding R) : Option (Solution R) := do
  let segments ← backSubstitute T R b.numSlots fun i => do
    let cr ← b.coeffRows[i]?
    some (cr, Banding.fillRow cr i)
  some { segments, numStarts := b.numStarts, rawSeed := b.rawSeed }

/-- Back-substitute and keep what queries need. -/
def intoSolution (T : Target) (b : Banding128 R) : Option (Solution128 R) := do
  let segments ← backSubstitute T R b.numSlots fun i => do
    let cr ← b.coeffRows[i]?
    let rr ← b.resultRows[i]?
    some (cr, rr)
  some { segments, numStarts := b.numStarts, rawSeed := b.rawSeed, ordinalSeed := b.ordinalSeed }

/-! ### Room for a matrix -/

/-- A matrix of `n` slots in whole blocks of `w`, with room in memory for eight bytes a slot. -/
structure Room (T : Target) (w n : ℕ) : Prop where
  blocks : n % w = 0
  slots : w ≤ n
  bytes : n * 8 ≤ T.isizeMax

variable {T : Target} {w n : ℕ}

namespace Room

theorem le_usizeMax (h : Room T w n) :
  n + w ≤ T.usizeMax
  := by
  have hhalf := isizeMax_le_usizeMax T
  have hslots := h.slots
  have hbytes := h.bytes
  omega

theorem lt_two_pow (h : Room T w n) :
  n < 2 ^ 64
  := by
  have hmax := usizeMax_lt T
  have hroom := h.le_usizeMax
  omega

/-- The segments take up less memory than that. -/
theorem segments_le (h : Room T w n) (hR : R ≤ 32) :
  n / w * R * (w / 8) ≤ T.isizeMax
  := by
  have hblock : R * (w / 8) ≤ 8 * w := by
    calc R * (w / 8) ≤ 32 * (w / 8) := Nat.mul_le_mul_right _ hR
      _ ≤ 8 * w := by omega
  calc n / w * R * (w / 8) = n / w * (R * (w / 8)) := Nat.mul_assoc ..
    _ ≤ n / w * (8 * w) := Nat.mul_le_mul_left _ hblock
    _ = n / w * w * 8 := by ring
    _ ≤ n * 8 := Nat.mul_le_mul_right 8 (Nat.div_mul_le_self n w)
    _ ≤ T.isizeMax := h.bytes

theorem startsFor_eq (h : Room T w n) (hw : 0 < w) :
  startsFor T w n = some (BitVec.ofNat 64 (n - w + 1))
  := by
  have hroom := h.le_usizeMax
  rw [startsFor, checkedSub_eq h.slots, Option.bind_eq_bind, Option.bind_some,
    Target.add_eq (by omega), Option.bind_some]

/-- A start slot is a `usize`. -/
theorem cast_start (h : Room T w n) (hash : U64) :
  T.cast (Pleat.start hash (BitVec.ofNat 64 (n - w + 1)))
    = (Pleat.start hash (BitVec.ofNat 64 (n - w + 1))).toNat
  := by
  have hroom := h.le_usizeMax
  have hle := start_add_le h.slots hash
  apply Target.cast_eq
  omega

end Room

/-- A shift to the lowest set bit of a word that is not zero. -/
theorem wordShr_ctz {x : BitVec w} (hx : x ≠ 0) :
  x.ctz.toNat ≤ w ∧ wordShr x x.ctz.toNat = some (x >>> x.ctz.toNat)
  := by
  have hlt := BitVec.lt_def.mp (BitVec.ctz_lt_iff_ne_zero.mpr hx)
  rw [BitVec.natCast_eq_ofNat, BitVec.toNat_ofNat] at hlt
  have hw := Nat.mod_le w (2 ^ w)
  exact ⟨by omega, wordShr_eq (by omega)⟩

/-! ### Homogeneous insertions -/

/-- With room for the rows an empty matrix is made. -/
theorem newBanding_eq (h : Room T W n) (R : ℕ) (seed : U64) :
  newBanding T R n seed = Banding.new R n seed
  := by
  have hW : 0 < W := by decide
  rw [newBanding, Banding.new, checkedRem_eq hW, Option.bind_eq_bind, Option.bind_some,
    if_pos h.blocks, if_pos ⟨h.blocks, h.slots⟩, vec_eq 0 h.bytes, Option.bind_eq_bind,
    Option.bind_some, h.startsFor_eq hW, Option.bind_eq_bind, Option.bind_some]

/-- Without room for the rows the allocation fails. -/
theorem newBanding_eq_none (h : T.isizeMax < n * 8) (R : ℕ) (seed : U64) :
  newBanding T R n seed = none
  := by
  have hvec : vec T 8 (0 : U64) n = none := if_neg (Nat.not_le.mpr h)
  rw [newBanding, checkedRem_eq (by decide), Option.bind_eq_bind, Option.bind_some, hvec]
  simp

/-- The loop has read its slot when it moves on. -/
theorem addLoop_eq {coeffRows : List U64} (h : coeffRows.length + W ≤ T.usizeMax) (fuel i : ℕ)
    (cr : U64) :
  addLoop T coeffRows fuel i cr = Banding.addLoop coeffRows fuel i cr
  := by
  change coeffRows.length + 64 ≤ T.usizeMax at h
  induction fuel generalizing i cr with
  | zero => rfl
  | succ fuel ih =>
      rw [addLoop, Banding.addLoop]
      apply Option.bind_congr
      intro crAtI hread
      have hi := (List.getElem?_eq_some_iff.mp hread).1
      split
      · rfl
      · dsimp only
        split
        · rfl
        · rename_i hrest
          obtain ⟨hle, hshift⟩ := wordShr_ctz hrest
          rw [Target.add_eq (by omega), Option.bind_eq_bind, Option.bind_some, hshift]
          apply ih

theorem add_eq {b : Banding R} {seed : U64} {keys : Set U64} (hb : b.Holds n seed keys)
    (h : Room T W n) (key : U64) :
  add T b key = b.add key
  := by
  have hroom := h.le_usizeMax
  rw [add, Banding.add, start_eq, Option.bind_eq_bind, Option.bind_some, hb.numStarts_eq,
    h.cast_start, addLoop_eq (by rwa [← hb.slots] at hroom)]

theorem addAll_eq {b : Banding R} {seed : U64} {keys : Set U64} (hb : b.Holds n seed keys)
    (h : Room T W n) (new : List U64) :
  addAll T b new = b.addAll new
  := by
  induction new generalizing b keys with
  | nil => rfl
  | cons k new ih =>
      obtain ⟨b₁, hadd, hb₁⟩ := hb.add k
      rw [addAll, Banding.addAll, add_eq hb h, hadd, Option.bind_eq_bind, Option.bind_some]
      apply ih hb₁

/-! ### Standard insertions -/

/-- With room for the coefficient rows there is room for the result rows. -/
theorem newBanding128_eq (h : Room T W128 n) (halloc : n * 16 ≤ T.isizeMax) (R : ℕ) :
  newBanding128 T R n = Banding128.new R n
  := by
  have hW : 0 < W128 := by decide
  have hbytes := h.bytes
  rw [newBanding128, Banding128.new, checkedRem_eq hW, Option.bind_eq_bind, Option.bind_some,
    if_pos h.blocks, if_pos ⟨h.blocks, h.slots⟩, vec_eq 0 halloc, Option.bind_eq_bind,
    Option.bind_some, vec_eq 0 (by omega), Option.bind_eq_bind, Option.bind_some,
    h.startsFor_eq hW, Option.bind_eq_bind, Option.bind_some]

theorem newBanding128_eq_none (h : T.isizeMax < n * 16) (R : ℕ) :
  newBanding128 T R n = none
  := by
  have hvec : vec T 16 (0 : U128) n = none := if_neg (Nat.not_le.mpr h)
  rw [newBanding128, checkedRem_eq (by decide), Option.bind_eq_bind, Option.bind_some, hvec]
  simp

theorem addLoop128_eq {coeffRows : List U128} (h : coeffRows.length + W128 ≤ T.usizeMax)
    (resultRows : List U32) (fuel i : ℕ) (cr : U128) (rr : U32) :
  addLoop128 T coeffRows resultRows fuel i cr rr
    = Banding128.addLoop coeffRows resultRows fuel i cr rr
  := by
  change coeffRows.length + 128 ≤ T.usizeMax at h
  induction fuel generalizing i cr rr with
  | zero => rfl
  | succ fuel ih =>
      rw [addLoop128, Banding128.addLoop]
      apply Option.bind_congr
      intro crAtI hread
      have hi := (List.getElem?_eq_some_iff.mp hread).1
      apply Option.bind_congr
      intro rrAtI _
      split
      · rfl
      · dsimp only
        split
        · rfl
        · rename_i hrest
          obtain ⟨hle, hshift⟩ := wordShr_ctz hrest
          rw [Target.add_eq (by omega), Option.bind_eq_bind, Option.bind_some, hshift]
          apply ih

theorem add128_eq {b : Banding128 R} (hb : b.Shape n) (h : Room T W128 n) (key : U64) :
  add128 T b key = b.add key
  := by
  have hroom := h.le_usizeMax
  rw [add128, Banding128.add, start_eq, Option.bind_eq_bind, Option.bind_some, hb.starts,
    h.cast_start, addLoop128_eq (by rwa [← hb.coeffs] at hroom)]

/-- A failure ends the insertions before anything is inserted after it. -/
theorem addEach128_eq {b : Banding128 R} {ordinal : U32} {keys : Set U64}
    (hb : b.Holds n ordinal keys) (h : Room T W128 n) (new : List U64) :
  addEach128 T b new = b.addEach new
  := by
  induction new generalizing b keys with
  | nil => rfl
  | cons k new ih =>
      obtain ⟨b₁, ok, hadd, -, hheld, -⟩ := hb.add k
      rw [addEach128, Banding128.addEach, add128_eq hb.shape h, hadd, Option.bind_eq_bind,
        Option.bind_some]
      cases ok with
      | false => rfl
      | true => apply ih (hheld rfl)

/-! ### The segments -/

section Rows

variable {rows : ℕ → Option (BitVec w × U32)} {rows' : Table w 32}

theorem backSubstColumn_eq (hw : 1 < w) (cr : BitVec w) (rr : U32) {j : ℕ} (hj : j < 32)
    (sj : BitVec w) :
  backSubstColumn cr rr j sj = some (Pleat.backSubstColumn cr rr j sj)
  := by
  rw [backSubstColumn, wordShl_eq hw, Option.bind_eq_bind, Option.bind_some, wordShr_eq hj]
  rfl

/-- A result row has a bit for each column. -/
theorem backSubstRow_eq (hw : 1 < w) (row : BitVec w × U32) {state : List (BitVec w)}
    (hstate : state.length ≤ 32) :
  backSubstRow row state = some (Pleat.backSubstRow row state)
  := by
  rw [backSubstRow, Pleat.backSubstRow, List.mapIdx_eq_zipIdx_map]
  apply mapM_eq_some_map
  rintro ⟨sj, j⟩ hmem
  have hj := (List.mem_zipIdx hmem).2.1
  apply backSubstColumn_eq hw
  omega

theorem backSubstBlock_eq (hw : 1 < w) (hR : R ≤ 32) {startSlot : ℕ}
    (hrows : ∀ i, i < startSlot + w → rows i = some (rows' i))
    (hroom : startSlot + w ≤ T.usizeMax) {state : List (BitVec w)} (hstate : state.length = R) :
  backSubstBlock T rows startSlot state = some (Pleat.backSubstBlock rows' startSlot state)
    ∧ (Pleat.backSubstBlock rows' startSlot state).length = R
  := by
  rw [backSubstBlock, Target.add_eq hroom, Option.bind_eq_bind, Option.bind_some,
    Nat.add_sub_cancel_left, Pleat.backSubstBlock]
  apply foldlM_eq_some_foldl (fun state : List (BitVec w) => state.length = R) _ hstate
  intro state hstate i hi
  rw [List.mem_reverse, List.mem_range'_1] at hi
  rw [hrows i hi.2, Option.bind_eq_bind, Option.bind_some]
  constructor
  · apply backSubstRow_eq hw
    omega
  · rw [Pleat.backSubstRow, List.length_mapIdx, hstate]

theorem copyFromSlice_eq {α : Type*} {data src : List α} {lo : ℕ}
    (h : lo + src.length ≤ data.length) :
  copyFromSlice data lo (lo + src.length) src = some (Pleat.copyFromSlice data lo src)
  := by
  rw [copyFromSlice, slice_eq_some (Nat.le_add_right ..) h, Option.bind_eq_bind, Option.bind_some,
    if_pos]
  rw [List.length_take, List.length_drop]
  omega

/-- A number of segments that can be allocated is a `usize`. -/
theorem Room.segments_le_usizeMax (h : Room T w n) (hw : 8 ≤ w) (hR : R ≤ 32) :
  n / w * R ≤ T.usizeMax
  := by
  calc n / w * R ≤ n / w * R * (w / 8) := Nat.le_mul_of_pos_right _ (by omega)
    _ ≤ T.isizeMax := h.segments_le hR
    _ ≤ T.usizeMax := isizeMax_le_usizeMax T

/-- Each block reads its own rows and copies to its own segments. -/
theorem backSubstStep_eq (h : Room T w n) (hw : 8 ≤ w) (hR : R ≤ 32)
    (hrows : ∀ i < n, rows i = some (rows' i)) {data state : List (BitVec w)}
    (hdata : data.length = n / w * R) (hstate : state.length = R) {block : ℕ}
    (hblock : block < n / w) :
  backSubstStep T R rows (data, state) block = some (Pleat.backSubstStep R rows' (data, state) block)
    ∧ (Pleat.backSubstStep R rows' (data, state) block).1.length = n / w * R
    ∧ (Pleat.backSubstStep R rows' (data, state) block).2.length = R
  := by
  have hroom := h.le_usizeMax
  have hsegments := h.segments_le_usizeMax hw hR
  have hslots : block * w + w ≤ n := by
    calc block * w + w = (block + 1) * w := by ring
      _ ≤ n / w * w := Nat.mul_le_mul_right w hblock
      _ ≤ n := Nat.div_mul_le_self n w
  have hcolumns : block * R + R ≤ n / w * R := by
    calc block * R + R = (block + 1) * R := by ring
      _ ≤ n / w * R := Nat.mul_le_mul_right R hblock
  have hread : ∀ i, i < block * w + w → rows i = some (rows' i) :=
    fun i hi => hrows i (lt_of_lt_of_le hi hslots)
  obtain ⟨hrun, hlen⟩ := backSubstBlock_eq (T := T) (by omega) hR hread (by omega) hstate
  have hcopy : block * R + (Pleat.backSubstBlock rows' (block * w) state).length ≤ data.length := by
    rw [hlen, hdata]
    apply hcolumns
  have hcopied := copyFromSlice_eq hcopy
  rw [hlen] at hcopied
  refine ⟨?_, ?_, hlen⟩
  · rw [backSubstStep, Target.mul_eq (by omega), Option.bind_eq_bind, Option.bind_some, hrun,
      Option.bind_eq_bind, Option.bind_some, Target.mul_eq (by omega), Option.bind_some,
      Target.add_eq (by omega), Option.bind_some, hcopied, Option.bind_some]
    rfl
  · rw [← hdata]
    apply length_copyFromSlice hcopy

/-- The segments are computed without a failure. -/
theorem backSubstitute_eq (h : Room T w n) (hw : 8 ≤ w) (hR : R ≤ 32)
    (hrows : ∀ i < n, rows i = some (rows' i)) :
  backSubstitute T R n rows = some (Pleat.backSubstitute R n rows')
  := by
  have hloop := foldlM_eq_some_foldl
    (fun acc : List (BitVec w) × List (BitVec w) => acc.1.length = n / w * R ∧ acc.2.length = R)
    (f := backSubstStep T R rows) (g := Pleat.backSubstStep R rows')
    (l := (List.range (n / w)).reverse) (s := (List.replicate (n / w * R) 0, List.replicate R 0))
    (fun acc hacc block hblock => backSubstStep_eq h hw hR hrows hacc.1 hacc.2
      (List.mem_range.mp (List.mem_reverse.mp hblock)))
    ⟨List.length_replicate, List.length_replicate⟩
  rw [backSubstitute, checkedDiv_eq (by omega), Option.bind_eq_bind, Option.bind_some,
    Target.mul_eq (h.segments_le_usizeMax hw hR), Option.bind_some, vec_eq 0 (h.segments_le hR),
    Option.bind_eq_bind, Option.bind_some, hloop.1]
  rfl

end Rows

theorem solve_eq {b : Banding R} (hslots : b.numSlots = n) (h : Room T W n) (hR : R ≤ 32) :
  solve T b = some b.solve
  := by
  have hrows : ∀ i < n,
      (do let cr ← b.coeffRows[i]?; some (cr, Banding.fillRow cr i)) = some (b.solveRows i) := by
    intro i hi
    rw [← hslots] at hi
    have hread : b.coeffRows[i]? = some b.coeffRows[i] := List.getElem?_eq_getElem hi
    rw [Banding.solveRows, List.getD_eq_getElem?_getD, hread]
    rfl
  rw [solve, hslots, backSubstitute_eq h (by decide) hR hrows, Option.bind_eq_bind,
    Option.bind_some, Banding.solve, Banding.backSubstitute, hslots]

theorem intoSolution_eq {b : Banding128 R} (hb : b.Shape n) (h : Room T W128 n) (hR : R ≤ 32) :
  intoSolution T b = some b.intoSolution
  := by
  have hslots : b.numSlots = n := hb.coeffs
  have hrows : ∀ i < n,
      (do let cr ← b.coeffRows[i]?; let rr ← b.resultRows[i]?; some (cr, rr))
        = some (b.coeffRows.getD i 0, b.resultRows.getD i 0) := by
    intro i hi
    have hcoeffs : i < b.coeffRows.length := hb.coeffs.symm ▸ hi
    have hresults : i < b.resultRows.length := hb.results.symm ▸ hi
    rw [List.getD_eq_getElem?_getD, List.getD_eq_getElem?_getD,
      List.getElem?_eq_getElem hcoeffs, List.getElem?_eq_getElem hresults]
    rfl
  rw [intoSolution, hslots, backSubstitute_eq h (by decide) hR hrows, Option.bind_eq_bind,
    Option.bind_some, Banding128.intoSolution, Banding128.backSubstitute, hslots]

end Pleat.Checked
