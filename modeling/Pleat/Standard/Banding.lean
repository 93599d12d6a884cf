import Pleat.Data.Retry
import Pleat.Solving

/-!
# Standard banding

The band matrix of the standard filter (`banding128.rs`): a coefficient row of 128 bits
and a result row at each slot.  A key whose row reduces to zero while its result does not
makes an insertion fail.

Inserting the keys of a list in order, up to the first failure, succeeds exactly when the
system of their equations is consistent; the rows stored then span that system.
-/

namespace Pleat

open Bits Linear

/-- `W128`, the number of bits of a coefficient row. -/
abbrev W128 : ℕ := 128

/-- The band matrix over `R` result columns: a coefficient row and a result row for each
slot. -/
structure Banding128 (R : ℕ) where
  coeffRows : List U128
  resultRows : List U32
  numStarts : U64
  rawSeed : U32
  ordinalSeed : U32
  deriving DecidableEq

namespace Banding128

variable {R : ℕ}

/-- An empty matrix.  The number of slots must be a multiple of `W128`; fewer than `W128`
slots make the number of starts underflow. -/
def new (R numSlots : ℕ) : Option (Banding128 R) :=
  if numSlots % W128 = 0 ∧ W128 ≤ numSlots then
    some {
      coeffRows := List.replicate numSlots 0
      resultRows := List.replicate numSlots 0
      numStarts := BitVec.ofNat 64 (numSlots - W128 + 1)
      rawSeed := 0
      ordinalSeed := 0 }
  else
    none

/-- Clear the rows and take the seed of an ordinal. -/
def reset (b : Banding128 R) (ordinal : U32) : Banding128 R :=
  { b with
    coeffRows := b.coeffRows.map (fun _ => 0)
    resultRows := b.resultRows.map (fun _ => 0)
    ordinalSeed := ordinal
    rawSeed := ordinalToRawSeed ordinal }

def numSlots (b : Banding128 R) : ℕ :=
  b.coeffRows.length

/-- The loop of `add` at slot `i` with what is left of the rows in `cr` and `rr`. -/
def addLoop (coeffRows : List U128) (resultRows : List U32) :
    ℕ → ℕ → U128 → U32 → Option (List U128 × List U32 × Bool)
  | 0, _, _, _ => none
  | fuel + 1, i, cr, rr => do
      let crAtI ← coeffRows[i]?
      let rrAtI ← resultRows[i]?
      if crAtI = 0 then
        some (coeffRows.set i cr, resultRows.set i rr, true)
      else
        let cr := cr ^^^ crAtI
        let rr := rr ^^^ rrAtI
        if cr = 0 then
          some (coeffRows, resultRows, rr == 0)
        else
          let tz := cr.ctz.toNat
          addLoop coeffRows resultRows fuel (i + tz) (cr >>> tz) rr

/-- Insert one key; false is an inconsistent dependence.  A turn of the loop for each slot
is enough. -/
def add (b : Banding128 R) (key : U64) : Option (Banding128 R × Bool) := do
  let h := ribbonHash key (b.rawSeed.setWidth 64)
  let (coeffRows, resultRows, ok) ←
    addLoop b.coeffRows b.resultRows b.numSlots (start h b.numStarts).toNat (coeffRow128 h)
      (resultRow h)
  some ({ b with coeffRows, resultRows }, ok)

/-- Insert keys in order until one fails. -/
def addEach (b : Banding128 R) : List U64 → Option (Banding128 R × Bool)
  | [] => some (b, true)
  | k :: keys => do
      let (b, ok) ← b.add k
      if ok then b.addEach keys else some (b, false)

/-! ### The loop of an insertion -/

section Turns

variable {coeffRows : List U128} {resultRows : List U32} {i : ℕ} {cr crAtI : U128} {rr rrAtI : U32}

/-- At an empty slot the loop places what is left of the rows. -/
theorem addLoop_placed (h : coeffRows[i]? = some 0) (h' : resultRows[i]? = some rrAtI)
    (fuel : ℕ) :
  addLoop coeffRows resultRows (fuel + 1) i cr rr
    = some (coeffRows.set i cr, resultRows.set i rr, true)
  := by
  rw [addLoop, h, h', Option.bind_eq_bind, Option.bind_some, Option.bind_eq_bind,
    Option.bind_some, if_pos rfl]

/-- A row of which nothing is left is dropped, and accepted if nothing is left of its result. -/
theorem addLoop_vanished (h : coeffRows[i]? = some crAtI) (h' : resultRows[i]? = some rrAtI)
    (hne : crAtI ≠ 0) (hzero : cr ^^^ crAtI = 0) (fuel : ℕ) :
  addLoop coeffRows resultRows (fuel + 1) i cr rr
    = some (coeffRows, resultRows, rr ^^^ rrAtI == 0)
  := by
  rw [addLoop, h, h', Option.bind_eq_bind, Option.bind_some, Option.bind_eq_bind,
    Option.bind_some, if_neg hne]
  apply if_pos hzero

/-- Otherwise the loop moves on. -/
theorem addLoop_advanced (h : coeffRows[i]? = some crAtI) (h' : resultRows[i]? = some rrAtI)
    (hne : crAtI ≠ 0) (hrest : cr ^^^ crAtI ≠ 0) (fuel : ℕ) :
  addLoop coeffRows resultRows (fuel + 1) i cr rr
    = addLoop coeffRows resultRows fuel (i + (cr ^^^ crAtI).ctz.toNat)
        ((cr ^^^ crAtI) >>> (cr ^^^ crAtI).ctz.toNat) (rr ^^^ rrAtI)
  := by
  rw [addLoop, h, h', Option.bind_eq_bind, Option.bind_some, Option.bind_eq_bind,
    Option.bind_some, if_neg hne]
  apply if_neg hrest

end Turns

/-- The table of a list of coefficient rows and a list of result rows. -/
abbrev rowsTable (coeffRows : List U128) (resultRows : List U32) : Table 128 32 :=
  Table.ofLists 0 coeffRows resultRows

theorem rowsTable_of_getElem? {coeffRows : List U128} {resultRows : List U32} {i : ℕ} {c : U128}
    {b : U32} (hc : coeffRows[i]? = some c) (hb : resultRows[i]? = some b) :
  rowsTable coeffRows resultRows i = (c, b)
  := by
  have hi := Table.ofLists_add 0 coeffRows resultRows i
  rw [Nat.zero_add, List.getD_eq_getElem?_getD, List.getD_eq_getElem?_getD, hc, hb] at hi
  apply hi

theorem rowsTable_set {coeffRows : List U128} {resultRows : List U32} {i : ℕ}
    (hc : i < coeffRows.length) (hr : i < resultRows.length) (c : U128) (b : U32) :
  rowsTable (coeffRows.set i c) (resultRows.set i b)
    = Function.update (rowsTable coeffRows resultRows) i (c, b)
  := by
  have hb : (resultRows.set i b).getD i 0 = b := by simp [hr]
  have hset := Table.ofLists_set 0 hc c hb
  rwa [Nat.zero_add] at hset

/-- The loop returns within `n - i` turns, and what it returns is an insertion of the
equation of which the row is left. -/
theorem addLoop_insertion {n : ℕ} {coeffRows : List U128} {resultRows : List U32}
    (ht : (rowsTable coeffRows resultRows).WellFormed n) (hclen : coeffRows.length = n)
    (hrlen : resultRows.length = n) {e : RowEquation} {fuel i : ℕ} {cr : U128} {rr : U32}
    (h : Reducing (rowsTable coeffRows resultRows) n e i cr rr) (hfuel : n ≤ i + fuel) :
  ∃ coeffs results ok, addLoop coeffRows resultRows fuel i cr rr = some (coeffs, results, ok)
    ∧ coeffs.length = n ∧ results.length = n
    ∧ Insertion (rowsTable coeffRows resultRows) n e (rowsTable coeffs results) ok
  := by
  -- Each turn moves what is left to a later slot.
  induction fuel generalizing i cr rr with
  | zero =>
      have := h.within.slot_lt
      omega
  | succ fuel ih =>
      have hci : i < coeffRows.length := hclen ▸ h.within.slot_lt
      have hri : i < resultRows.length := hrlen ▸ h.within.slot_lt
      have hread : coeffRows[i]? = some coeffRows[i] := List.getElem?_eq_getElem hci
      have hread' : resultRows[i]? = some resultRows[i] := List.getElem?_eq_getElem hri
      have hrow := rowsTable_of_getElem? hread hread'
      by_cases hempty : coeffRows[i] = 0
      · have hslot : coeffRows[i]? = some 0 := hempty ▸ hread
        refine ⟨_, _, true, addLoop_placed hslot hread' fuel, by simp [hclen], by simp [hrlen], ?_⟩
        rw [rowsTable_set hci hri]
        apply h.placed
        rw [hrow]
        apply hempty
      · by_cases hzero : cr ^^^ coeffRows[i] = 0
        · exact ⟨_, _, _, addLoop_vanished hread hread' hempty hzero fuel, hclen, hrlen,
            h.vanished hrow hzero⟩
        · obtain ⟨hpos, hadv⟩ := h.advanced ht hrow hempty hzero
          rw [addLoop_advanced hread hread' hempty hzero]
          apply ih hadv (by omega)

/-! ### The equations of the keys -/

/-- The equation of a key: its coefficient row placed at its start slot, with its result
row. -/
noncomputable def keyEquation (numStarts : U64) (rawSeed : U32) (key : U64) : RowEquation :=
  let h := ribbonHash key (rawSeed.setWidth 64)
  equationAt (start h numStarts).toNat (coeffRow128 h) (resultRow h)

/-- The equations of a set of keys. -/
def keyEquations (numStarts : U64) (rawSeed : U32) (keys : Set U64) : Set RowEquation :=
  keyEquation numStarts rawSeed '' keys

/-- The system of a set of keys in a table of `n` slots, under the seed of an ordinal. -/
def system (n : ℕ) (ordinal : U32) (keys : Set U64) : Set RowEquation :=
  keyEquations (BitVec.ofNat 64 (n - W128 + 1)) (ordinalToRawSeed ordinal) keys

/-! ### Matrices built by insertions -/

/-- The shape of a matrix of `n` slots, whatever its rows and its seed. -/
structure Shape (b : Banding128 R) (n : ℕ) : Prop where
  blocks : n % W128 = 0
  slots : W128 ≤ n
  coeffs : b.coeffRows.length = n
  results : b.resultRows.length = n
  starts : b.numStarts = BitVec.ofNat 64 (n - W128 + 1)

/-- The table of a matrix. -/
abbrev table (b : Banding128 R) : Table 128 32 :=
  rowsTable b.coeffRows b.resultRows

theorem table_apply (b : Banding128 R) (i : ℕ) :
  b.table i = (b.coeffRows.getD i 0, b.resultRows.getD i 0)
  := by
  have h := Table.ofLists_add 0 b.coeffRows b.resultRows i
  rwa [Nat.zero_add] at h

/-- The matrix `b` has `n` slots and the seed of `ordinal`, and its rows span the system of
a set of keys: all that the order of the insertions leaves fixed. -/
structure Holds (b : Banding128 R) (n : ℕ) (ordinal : U32) (keys : Set U64) : Prop where
  shape : b.Shape n
  ordinalSeed : b.ordinalSeed = ordinal
  rawSeed : b.rawSeed = ordinalToRawSeed ordinal
  table : b.table.WellFormed n
  span : b.table.span = Submodule.span Gf2 (system n ordinal keys)

theorem exists_new (R : ℕ) {n : ℕ} (hblocks : n % W128 = 0) (hslots : W128 ≤ n) :
  ∃ b : Banding128 R, new R n = some b ∧ b.Shape n
  := by
  refine ⟨_, if_pos ⟨hblocks, hslots⟩, ?_⟩
  exact {
    blocks := hblocks
    slots := hslots
    coeffs := List.length_replicate
    results := List.length_replicate
    starts := rfl }

/-- Whatever a matrix of `n` slots held, after a reset it holds no keys. -/
theorem Shape.reset {b : Banding128 R} {n : ℕ} (h : b.Shape n) (ordinal : U32) :
  (b.reset ordinal).Holds n ordinal ∅
  := by
  have hzero : (b.reset ordinal).table = 0 := by
    rw [table, Banding128.reset, List.map_const', List.map_const']
    apply Table.ofLists_replicate
  constructor
  · exact {
      blocks := h.blocks
      slots := h.slots
      coeffs := by rw [Banding128.reset, List.length_map, h.coeffs]
      results := by rw [Banding128.reset, List.length_map, h.results]
      starts := h.starts }
  · rfl
  · rfl
  · rw [hzero]
    apply Table.wellFormed_zero
  · rw [hzero, Table.span_zero, system, keyEquations, Set.image_empty, Submodule.span_empty]

/-- A reset matrix depends on the number of slots and the ordinal alone. -/
theorem Shape.reset_congr {b b' : Banding128 R} {n : ℕ} (h : b.Shape n) (h' : b'.Shape n)
    (ordinal : U32) :
  b.reset ordinal = b'.reset ordinal
  := by
  rw [Banding128.reset, Banding128.reset, List.map_const', List.map_const', List.map_const',
    List.map_const', h.coeffs, h.results, h'.coeffs, h'.results, h.starts, h'.starts]

/-- The row of a key starts in the matrix and does not reach past its last slot. -/
theorem Shape.within_start {b : Banding128 R} {n : ℕ} (h : b.Shape n) (key : U64) :
  Within n (start (ribbonHash key (b.rawSeed.setWidth 64)) b.numStarts).toNat
    (coeffRow128 (ribbonHash key (b.rawSeed.setWidth 64)))
  := by
  rw [h.starts]
  apply Pleat.within_start h.slots _ (coeffRow128_odd _)

/-- Lists of the same lengths with the same table are equal. -/
theorem eq_of_rowsTable_eq {coeffs coeffs' : List U128} {results results' : List U32}
    (hc : coeffs.length = coeffs'.length) (hr : results.length = results'.length)
    (hlen : results.length = coeffs.length)
    (h : rowsTable coeffs results = rowsTable coeffs' results') :
  coeffs = coeffs' ∧ results = results'
  := by
  have hrow : ∀ i (hi : i < coeffs.length), (coeffs[i], results[i]) = (coeffs'[i], results'[i]) := by
    intro i hi
    have hread := congrFun h i
    rwa [rowsTable_of_getElem? (List.getElem?_eq_getElem hi)
      (List.getElem?_eq_getElem (show i < results.length by omega)),
      rowsTable_of_getElem? (List.getElem?_eq_getElem (show i < coeffs'.length by omega))
      (List.getElem?_eq_getElem (show i < results'.length by omega))] at hread
  constructor
  · apply List.ext_getElem hc
    intro i hi _
    apply (Prod.mk.inj (hrow i hi)).1
  · apply List.ext_getElem hr
    intro i hi _
    apply (Prod.mk.inj (hrow i (hlen ▸ hi))).2

/-- Inserting a key into a well-formed table returns, and is an insertion of its equation. -/
theorem Shape.add_insertion {b : Banding128 R} {n : ℕ} (h : b.Shape n)
    (ht : b.table.WellFormed n) (key : U64) :
  ∃ coeffs results ok,
    b.add key = some ({ b with coeffRows := coeffs, resultRows := results }, ok)
      ∧ coeffs.length = n ∧ results.length = n
      ∧ Insertion b.table n (keyEquation b.numStarts b.rawSeed key) (rowsTable coeffs results) ok
  := by
  obtain ⟨coeffs, results, ok, hrun, hc, hr, hins⟩ :=
    addLoop_insertion ht h.coeffs h.results
      (Reducing.refl _ (h.within_start key)
        (resultRow (ribbonHash key (b.rawSeed.setWidth 64))))
      (Nat.le_add_left n _)
  refine ⟨coeffs, results, ok, ?_, hc, hr, hins⟩
  rw [add, numSlots, h.coeffs, hrun]
  rfl

/-- The equation of a key in the system of a matrix. -/
theorem Holds.keyEquation_mem_system {b : Banding128 R} {n : ℕ} {ordinal : U32}
    {keys keys' : Set U64} (h : b.Holds n ordinal keys) {key : U64} (hkey : key ∈ keys') :
  keyEquation b.numStarts b.rawSeed key ∈ system n ordinal keys'
  := by
  rw [h.shape.starts, h.rawSeed]
  exact ⟨key, hkey, rfl⟩

theorem span_system_mono {n : ℕ} {ordinal : U32} {keys keys' : Set U64} (h : keys ⊆ keys') :
  Submodule.span Gf2 (system n ordinal keys) ≤ Submodule.span Gf2 (system n ordinal keys')
  := Submodule.span_mono (Set.image_mono h)

/-- An accepted insertion of the equation of a key adds the key to the keys held. -/
theorem Holds.inserted {b : Banding128 R} {n : ℕ} {ordinal : U32} {keys : Set U64}
    (h : b.Holds n ordinal keys) {key : U64} {coeffs : List U128} {results : List U32}
    (hc : coeffs.length = n) (hr : results.length = n)
    (hins : Insertion b.table n (keyEquation b.numStarts b.rawSeed key)
      (rowsTable coeffs results) true) :
  Holds (R := R) { b with coeffRows := coeffs, resultRows := results } n ordinal
    (insert key keys)
  := by
  refine ⟨{ h.shape with coeffs := hc, results := hr }, h.ordinalSeed, h.rawSeed,
    hins.wellFormed h.table, ?_⟩
  rw [Banding128.table, hins.span_eq h.table, h.span, h.shape.starts, h.rawSeed, system, system,
    keyEquations, keyEquations, Set.image_insert_eq, Submodule.span_insert, sup_comm]

/-- A rejected insertion of the equation of a key shows that the system of the keys held and
the key is inconsistent. -/
theorem Holds.not_consistent {b : Banding128 R} {n : ℕ} {ordinal : U32} {keys : Set U64}
    (h : b.Holds n ordinal keys) {key : U64} {t : Table 128 32}
    (hins : Insertion b.table n (keyEquation b.numStarts b.rawSeed key) t false) :
  ¬ Consistent (system n ordinal (insert key keys))
  := by
  apply hins.not_consistent (S := system n ordinal (insert key keys))
  · rw [h.span]
    apply span_system_mono (Set.subset_insert key keys)
  · apply h.keyEquation_mem_system (Set.mem_insert key keys)

/-- Inserting a key either adds it to the keys held, or fails and shows that the system of
the keys held and it is inconsistent. -/
theorem Holds.add {b : Banding128 R} {n : ℕ} {ordinal : U32} {keys : Set U64}
    (h : b.Holds n ordinal keys) (key : U64) :
  ∃ b' ok, b.add key = some (b', ok) ∧ b'.Shape n
    ∧ (ok = true → b'.Holds n ordinal (insert key keys))
    ∧ (ok = false → ¬ Consistent (system n ordinal (insert key keys)))
  := by
  obtain ⟨coeffs, results, ok, hadd, hc, hr, hins⟩ := h.shape.add_insertion h.table key
  refine ⟨_, ok, hadd, { h.shape with coeffs := hc, results := hr }, ?_, ?_⟩
  · rintro rfl
    apply h.inserted hc hr hins
  · rintro rfl
    apply h.not_consistent hins

/-- A system with an inconsistent part is inconsistent. -/
theorem not_consistent_mono {n : ℕ} {ordinal : U32} {keys keys' : Set U64} (hsub : keys ⊆ keys')
    (h : ¬ Consistent (system n ordinal keys)) :
  ¬ Consistent (system n ordinal keys')
  := by
  rintro ⟨x, hx⟩
  apply h
  exact ⟨x, hx.of_span_le (span_system_mono hsub)⟩

/-- Inserting keys up to the first failure adds them to the keys held when no insertion
fails, and otherwise shows that the system of all of them is inconsistent. -/
theorem Holds.addEach {b : Banding128 R} {n : ℕ} {ordinal : U32} {keys : Set U64}
    (h : b.Holds n ordinal keys) (new : List U64) :
  ∃ b' ok, b.addEach new = some (b', ok) ∧ b'.Shape n
    ∧ (ok = true → b'.Holds n ordinal (keys ∪ {k | k ∈ new}))
    ∧ (ok = false → ¬ Consistent (system n ordinal (keys ∪ {k | k ∈ new})))
  := by
  induction new generalizing b keys with
  | nil => exact ⟨b, true, rfl, h.shape, fun _ => by simpa using h, fun hok => nomatch hok⟩
  | cons k new ih =>
      have hset : insert k keys ∪ {x | x ∈ new} = keys ∪ {x | x ∈ k :: new} := by
        ext x
        simp only [Set.mem_union, Set.mem_insert_iff, Set.mem_ofPred_eq, List.mem_cons]
        tauto
      obtain ⟨b₁, ok, hadd, hshape, hheld, hfail⟩ := h.add k
      rw [Banding128.addEach, hadd]
      simp only [Option.bind_eq_bind, Option.bind_some]
      cases ok with
      | true =>
          obtain ⟨b₂, ok₂, hrest⟩ := ih (hheld rfl)
          rw [hset] at hrest
          exact ⟨b₂, ok₂, hrest⟩
      | false =>
          refine ⟨b₁, false, rfl, hshape, fun hok => (nomatch hok), fun _ => ?_⟩
          rw [← hset]
          apply not_consistent_mono Set.subset_union_left (hfail rfl)

/-- The system of the keys a matrix holds is consistent. -/
theorem Holds.consistent {b : Banding128 R} {n : ℕ} {ordinal : U32} {keys : Set U64}
    (h : b.Holds n ordinal keys) :
  Consistent (system n ordinal keys)
  := by
  obtain ⟨x, hx⟩ := (b.table.echelon h.table).consistent
  refine ⟨x, hx.of_span_le ?_⟩
  rw [← h.span, ← Table.span_echelon h.table]
  apply le_rfl

/-- A matrix in which the keys of a list are inserted from a reset on. -/
theorem Shape.addEach_reset {b : Banding128 R} {n : ℕ} (h : b.Shape n) (ordinal : U32)
    (keys : List U64) :
  ∃ b' ok, (b.reset ordinal).addEach keys = some (b', ok) ∧ b'.Shape n
    ∧ (ok = true → b'.Holds n ordinal {k | k ∈ keys})
    ∧ (ok = false → ¬ Consistent (system n ordinal {k | k ∈ keys}))
  := by
  have hrun := (h.reset ordinal).addEach keys
  simp only [Set.empty_union] at hrun
  apply hrun

end Banding128

end Pleat
