import Pleat.Data.Interleaving
import Pleat.Ranges
import Pleat.Standard.Banding

/-!
# Range workers of the standard build

A thread of the parallel build bands the keys of one range against its own slices of the
coefficient rows and the result rows (`band_range_128` in `banding128.rs`).  It is a machine
whose steps are the turns of the two loops; a key whose reduction leaves the slices is
spilled and changes nothing, and an inconsistent key makes the worker fail.

Whatever steps it has taken, a worker has banded some of its keys as insertions into the
whole matrix, and still has each of the others once; and if it has failed, the system of
the keys held before and of its own is inconsistent.
-/

namespace Pleat

open Bits Linear Banding128 Interleaving

/-- A thread of the parallel build: its slices of the rows, which start at slot `base`, the
keys it has not yet taken, the key in hand with its slot in the slices and what is left of
its rows, the keys that left the slices, and whether a key was inconsistent. -/
structure RangeWorker128 where
  coeff : List U128
  result : List U32
  base : ℕ
  pending : List U64
  active : Option (U64 × ℕ × U128 × U32)
  spilled : List U64
  failed : Bool
  deriving DecidableEq

namespace RangeWorker128

/-- A worker before its first step. -/
def spawn (coeff : List U128) (result : List U32) (base : ℕ) (keys : List U64) :
    RangeWorker128 where
  coeff := coeff
  result := result
  base := base
  pending := keys
  active := none
  spilled := []
  failed := false

/-- One turn: take the next key, or move the key in hand by one stored row.  A key that
starts before the slices makes the local slot underflow. -/
def step (numStarts raw : U64) (w : RangeWorker128) : Option RangeWorker128 :=
  if w.failed then
    some w
  else
    match w.active with
    | none =>
        match w.pending with
        | [] => some w
        | k :: pending =>
            let h := ribbonHash k raw
            let s := (start h numStarts).toNat
            if w.base ≤ s then
              some { w with pending, active := some (k, s - w.base, coeffRow128 h, resultRow h) }
            else
              none
    | some (k, i, cr, rr) =>
        if w.coeff.length ≤ i then
          -- The reduction crossed the boundary of the range.
          some { w with active := none, spilled := w.spilled ++ [k] }
        else do
          let crAtI ← w.coeff[i]?
          let rrAtI ← w.result[i]?
          if crAtI = 0 then
            some { w with coeff := w.coeff.set i cr, result := w.result.set i rr, active := none }
          else
            let cr := cr ^^^ crAtI
            let rr := rr ^^^ rrAtI
            if cr = 0 then
              -- An inconsistent dependence makes the seed fail.
              some (if rr ≠ 0 then { w with failed := true } else { w with active := none })
            else
              let tz := cr.ctz.toNat
              some { w with active := some (k, i + tz, cr >>> tz, rr) }

/-- The worker has returned. -/
def halted (w : RangeWorker128) : Bool :=
  w.failed || (w.pending.isEmpty && w.active.isNone)

/-- A bound on the steps that are left: each key takes at most one for every slot of the
slices, one to be taken and one to be spilled. -/
def fuel (w : RangeWorker128) : ℕ :=
  (w.pending.length + 1) * (w.coeff.length + 2)

/-- Let the workers run in the order of the schedule, which names the worker of each step,
then join them in turn. -/
def scope (numStarts raw : U64) (schedule : List ℕ) (workers : List RangeWorker128) :
    Option (List RangeWorker128) :=
  Interleaving.scope (step numStarts raw) halted fuel schedule workers

/-- The workers of the slices of the ranges, each with its bucket of keys. -/
def spawnAll : List (ℕ × List U128) → List (ℕ × List U32) → List (List U64) → List RangeWorker128
  | c :: cslices, r :: rslices, bucket :: buckets =>
      spawn c.2 r.2 c.1 bucket :: spawnAll cslices rslices buckets
  | _, _, _ => []

/-! ### The steps -/

section Steps

variable {numStarts raw : U64} {w : RangeWorker128} {k : U64} {i : ℕ} {cr crAtI : U128}
  {rr rrAtI : U32}

/-- The next key is taken. -/
theorem step_take (hrun : w.failed = false) (hactive : w.active = none) {pending : List U64}
    (hpending : w.pending = k :: pending)
    (hstart : w.base ≤ (start (ribbonHash k raw) numStarts).toNat) :
  w.step numStarts raw = some { w with
    pending
    active := some (k, (start (ribbonHash k raw) numStarts).toNat - w.base,
      coeffRow128 (ribbonHash k raw), resultRow (ribbonHash k raw)) }
  := by
  rw [step, hrun, if_neg Bool.false_ne_true, hactive, hpending]
  apply if_pos hstart

/-- Past the slices the key in hand is spilled. -/
theorem step_spill (hrun : w.failed = false) (hactive : w.active = some (k, i, cr, rr))
    (hout : w.coeff.length ≤ i) :
  w.step numStarts raw = some { w with active := none, spilled := w.spilled ++ [k] }
  := by
  rw [step, hrun, if_neg Bool.false_ne_true, hactive]
  apply if_pos hout

/-- At an empty slot what is left of the key in hand is placed. -/
theorem step_place (hrun : w.failed = false) (hactive : w.active = some (k, i, cr, rr))
    (hread : w.coeff[i]? = some 0) (hread' : w.result[i]? = some rrAtI) :
  w.step numStarts raw = some { w with
    coeff := w.coeff.set i cr
    result := w.result.set i rr
    active := none }
  := by
  have hi := (List.getElem?_eq_some_iff.mp hread).1
  rw [step, hrun, if_neg Bool.false_ne_true, hactive]
  simp only [if_neg (Nat.not_le.mpr hi), hread, hread', Option.bind_eq_bind, Option.bind_some,
    if_true]

/-- A key in hand of which nothing is left is dropped if that is consistent. -/
theorem step_vanish (hrun : w.failed = false) (hactive : w.active = some (k, i, cr, rr))
    (hread : w.coeff[i]? = some crAtI) (hread' : w.result[i]? = some rrAtI) (hne : crAtI ≠ 0)
    (hzero : cr ^^^ crAtI = 0) (hrr : rr ^^^ rrAtI = 0) :
  w.step numStarts raw = some { w with active := none }
  := by
  have hi := (List.getElem?_eq_some_iff.mp hread).1
  rw [step, hrun, if_neg Bool.false_ne_true, hactive]
  simp only [if_neg (Nat.not_le.mpr hi), hread, hread', Option.bind_eq_bind, Option.bind_some,
    if_neg hne, if_pos hzero, if_neg (not_not.mpr hrr)]

/-- The worker fails if it is not. -/
theorem step_fail (hrun : w.failed = false) (hactive : w.active = some (k, i, cr, rr))
    (hread : w.coeff[i]? = some crAtI) (hread' : w.result[i]? = some rrAtI) (hne : crAtI ≠ 0)
    (hzero : cr ^^^ crAtI = 0) (hrr : rr ^^^ rrAtI ≠ 0) :
  w.step numStarts raw = some { w with failed := true }
  := by
  have hi := (List.getElem?_eq_some_iff.mp hread).1
  rw [step, hrun, if_neg Bool.false_ne_true, hactive]
  simp only [if_neg (Nat.not_le.mpr hi), hread, hread', Option.bind_eq_bind, Option.bind_some,
    if_neg hne, if_pos hzero, if_pos hrr]

/-- Otherwise the key in hand moves on. -/
theorem step_move (hrun : w.failed = false) (hactive : w.active = some (k, i, cr, rr))
    (hread : w.coeff[i]? = some crAtI) (hread' : w.result[i]? = some rrAtI) (hne : crAtI ≠ 0)
    (hrest : cr ^^^ crAtI ≠ 0) :
  w.step numStarts raw = some { w with
    active := some (k, i + (cr ^^^ crAtI).ctz.toNat,
      (cr ^^^ crAtI) >>> (cr ^^^ crAtI).ctz.toNat, rr ^^^ rrAtI) }
  := by
  have hi := (List.getElem?_eq_some_iff.mp hread).1
  rw [step, hrun, if_neg Bool.false_ne_true, hactive]
  simp only [if_neg (Nat.not_le.mpr hi), hread, hread', Option.bind_eq_bind, Option.bind_some,
    if_neg hne, if_neg hrest]

end Steps

/-! ### The invariant -/

/-- The matrix of the given rows. -/
abbrev matrix (R n : ℕ) (ordinal : U32) (coeffRows : List U128) (resultRows : List U32) :
    Banding128 R where
  coeffRows := coeffRows
  resultRows := resultRows
  numStarts := BitVec.ofNat 64 (n - W128 + 1)
  rawSeed := ordinalToRawSeed ordinal
  ordinalSeed := ordinal

/-- The start slot of a key under the seed of an ordinal. -/
def startSlot (n : ℕ) (ordinal : U32) (k : U64) : U64 :=
  start (ribbonHash k ((ordinalToRawSeed ordinal).setWidth 64)) (BitVec.ofNat 64 (n - W128 + 1))

variable {R n : ℕ} {ordinal : U32} {cpre cpost : List U128} {rpre rpost : List U32}
  {held : Set U64} {keys done : List U64} {w : RangeWorker128}

/-- The table of the worker's slices between the rows before and after them. -/
abbrev tableAround (cpre cpost : List U128) (rpre rpost : List U32) (coeff : List U128)
    (result : List U32) : Table 128 32 :=
  rowsTable (cpre ++ coeff ++ cpost) (rpre ++ result ++ rpost)

/-- Between the rows `cpre`, `rpre` and `cpost`, `rpost` of a matrix that held the keys
`held`, the worker has banded the keys `done` of its `keys`. -/
structure Invariant (R n : ℕ) (ordinal : U32) (cpre cpost : List U128) (rpre rpost : List U32)
    (held : Set U64) (keys done : List U64) (w : RangeWorker128) : Prop where
  base : w.base = cpre.length
  before : rpre.length = cpre.length
  within : w.result.length = w.coeff.length
  holds : (matrix R n ordinal (cpre ++ w.coeff ++ cpost) (rpre ++ w.result ++ rpost)).Holds n
    ordinal (held ∪ {k | k ∈ done})
  perm : (done ++ (w.spilled ++ (w.active.toList.map Prod.fst ++ w.pending))).Perm keys
  starts : ∀ k ∈ w.pending, w.base ≤ (startSlot n ordinal k).toNat
  reducing : ∀ k i cr rr, w.active = some (k, i, cr, rr) →
    Reducing (tableAround cpre cpost rpre rpost w.coeff w.result) n
      (keyEquation (BitVec.ofNat 64 (n - W128 + 1)) (ordinalToRawSeed ordinal) k)
      (w.base + i) cr rr
  failed : w.failed = true → ¬ Consistent (system n ordinal (held ∪ {k | k ∈ keys}))

/-- A measure that decreases with every step. -/
def measure (w : RangeWorker128) : ℕ :=
  if w.failed then
    0
  else
    w.pending.length * (w.coeff.length + 2)
      + match w.active with
        | none => 0
        | some (_, i, _, _) => w.coeff.length - i + 1

theorem measure_le_fuel (w : RangeWorker128) :
  w.measure ≤ w.fuel
  := by
  rw [measure, fuel, Nat.add_mul, Nat.one_mul]
  split
  · apply Nat.zero_le _
  · apply Nat.add_le_add_left
    split
    · apply Nat.zero_le _
    · omega

/-! ### The steps keep the invariant -/

/-- The row stored at a slot of the slices. -/
theorem Invariant.tableAround_eq
    (h : Invariant R n ordinal cpre cpost rpre rpost held keys done w) {i : ℕ}
    (hi : i < w.coeff.length) (hr : i < w.result.length) :
  tableAround cpre cpost rpre rpost w.coeff w.result (w.base + i) = (w.coeff[i], w.result[i])
  := by
  have hread := getElem?_between rpre rpost hr
  rw [h.before] at hread
  rw [h.base]
  apply rowsTable_of_getElem? (getElem?_between cpre cpost hi) hread

/-- The next key is taken: it starts in the slices or after them. -/
theorem Invariant.take {k : U64} {pending : List U64}
    (h : Invariant R n ordinal cpre cpost rpre rpost held keys done w) (hactive : w.active = none)
    (hpending : w.pending = k :: pending) :
  let hash := ribbonHash k ((ordinalToRawSeed ordinal).setWidth 64)
  let s := (start hash (BitVec.ofNat 64 (n - W128 + 1))).toNat
  w.base ≤ s
    ∧ Invariant R n ordinal cpre cpost rpre rpost held keys done
        { w with pending, active := some (k, s - w.base, coeffRow128 hash, resultRow hash) }
  := by
  intro hash s
  have hstart : w.base ≤ s := h.starts k (by simp [hpending])
  refine ⟨hstart, h.base, h.before, h.within, h.holds, ?_, ?_, ?_, h.failed⟩
  · apply List.Perm.trans _ h.perm
    rw [hactive, hpending]
    apply List.Perm.refl _
  · exact fun x hx => h.starts x (by simp [hpending, hx])
  · rintro x i cr rr heq
    rw [Option.some.injEq, Prod.mk.injEq, Prod.mk.injEq, Prod.mk.injEq] at heq
    obtain ⟨rfl, rfl, rfl, rfl⟩ := heq
    rw [Nat.add_sub_cancel' hstart]
    apply Reducing.refl
    apply within_start h.holds.shape.slots _ (coeffRow128_odd _)

/-- The key in hand is spilled. -/
theorem Invariant.spill {k : U64} {i : ℕ} {cr : U128} {rr : U32}
    (h : Invariant R n ordinal cpre cpost rpre rpost held keys done w)
    (hactive : w.active = some (k, i, cr, rr)) :
  Invariant R n ordinal cpre cpost rpre rpost held keys done
    { w with active := none, spilled := w.spilled ++ [k] }
  := by
  refine ⟨h.base, h.before, h.within, h.holds, ?_, h.starts,
    fun _ _ _ _ hnone => (nomatch hnone), h.failed⟩
  apply List.Perm.trans _ h.perm
  rw [hactive, List.append_assoc]
  apply List.Perm.refl _

/-- The key in hand has been inserted. -/
theorem Invariant.finish {k : U64} {i : ℕ} {cr : U128} {rr : U32}
    (h : Invariant R n ordinal cpre cpost rpre rpost held keys done w)
    (hactive : w.active = some (k, i, cr, rr)) {coeff : List U128} {result : List U32}
    (hc : coeff.length = w.coeff.length) (hr : result.length = w.result.length)
    (hins : Insertion (tableAround cpre cpost rpre rpost w.coeff w.result) n
      (keyEquation (BitVec.ofNat 64 (n - W128 + 1)) (ordinalToRawSeed ordinal) k)
      (tableAround cpre cpost rpre rpost coeff result) true) :
  Invariant R n ordinal cpre cpost rpre rpost held keys (done ++ [k])
    { w with coeff, result, active := none }
  where
  base := h.base
  before := h.before
  within := by rw [hc, hr, h.within]
  holds := by
    have hcoeffs := h.holds.shape.coeffs
    have hresults := h.holds.shape.results
    rw [List.length_append, List.length_append] at hcoeffs hresults
    rw [← insert_union_mem]
    apply h.holds.inserted _ _ hins
    · rw [List.length_append, List.length_append, hc, hcoeffs]
    · rw [List.length_append, List.length_append, hr, hresults]
  perm := by
    have hmiddle : (done ++ k :: (w.spilled ++ w.pending)).Perm
        (done ++ (w.spilled ++ k :: w.pending)) := List.perm_middle.symm.append_left done
    apply List.Perm.trans _ h.perm
    rw [hactive, List.append_assoc]
    apply hmiddle
  starts := h.starts
  reducing _ _ _ _ hnone := nomatch hnone
  failed := h.failed

/-- What is left of the key in hand is placed at an empty slot of the slices. -/
theorem Invariant.place {k : U64} {i : ℕ} {cr : U128} {rr : U32}
    (h : Invariant R n ordinal cpre cpost rpre rpost held keys done w)
    (hactive : w.active = some (k, i, cr, rr)) (hi : i < w.coeff.length)
    (hempty : w.coeff[i] = 0) :
  Invariant R n ordinal cpre cpost rpre rpost held keys (done ++ [k])
    { w with coeff := w.coeff.set i cr, result := w.result.set i rr, active := none }
  := by
  have hr : i < w.result.length := h.within ▸ hi
  have hslot : (tableAround cpre cpost rpre rpost w.coeff w.result (w.base + i)).1 = 0 := by
    rw [h.tableAround_eq hi hr]
    apply hempty
  have hplaced := (h.reducing k i cr rr hactive).placed hslot
  have hclen : cpre.length + i < (cpre ++ w.coeff ++ cpost).length := by
    rw [List.length_append, List.length_append]
    omega
  have hrlen : cpre.length + i < (rpre ++ w.result ++ rpost).length := by
    rw [List.length_append, List.length_append, h.before]
    omega
  have hset := rowsTable_set hclen hrlen cr rr
  rw [← set_between cpre cpost hi, ← h.before, ← set_between rpre rpost hr, h.before,
    ← h.base] at hset
  rw [← hset] at hplaced
  apply h.finish hactive List.length_set List.length_set hplaced

/-- An inconsistent key makes the worker fail. -/
theorem Invariant.fail {k : U64} {i : ℕ} {cr : U128} {rr : U32}
    (h : Invariant R n ordinal cpre cpost rpre rpost held keys done w)
    (hactive : w.active = some (k, i, cr, rr))
    (hins : Insertion (tableAround cpre cpost rpre rpost w.coeff w.result) n
      (keyEquation (BitVec.ofNat 64 (n - W128 + 1)) (ordinalToRawSeed ordinal) k)
      (tableAround cpre cpost rpre rpost w.coeff w.result) false) :
  Invariant R n ordinal cpre cpost rpre rpost held keys done { w with failed := true }
  where
  base := h.base
  before := h.before
  within := h.within
  holds := h.holds
  perm := h.perm
  starts := h.starts
  reducing := h.reducing
  failed _ := by
    apply not_consistent_mono _ (h.holds.not_consistent hins)
    rw [insert_union_mem]
    -- The key in hand and those done are among the keys of the worker.
    have hmem : ∀ x ∈ done ++ [k], x ∈ keys := by
      intro x hx
      rw [← h.perm.mem_iff, hactive]
      simp only [List.mem_append, List.mem_singleton] at hx ⊢
      rcases hx with hx | rfl
      · apply Or.inl hx
      · apply Or.inr (Or.inr (Or.inl (by simp)))
    apply Set.union_subset_union_right held hmem

/-- The key in hand moves on, with the row stored at its slot added to what is left. -/
theorem Invariant.move {k : U64} {i : ℕ} {cr : U128} {rr : U32}
    (h : Invariant R n ordinal cpre cpost rpre rpost held keys done w)
    (hactive : w.active = some (k, i, cr, rr)) (hi : i < w.coeff.length)
    (hr : i < w.result.length) (hoccupied : w.coeff[i] ≠ 0) (hrest : cr ^^^ w.coeff[i] ≠ 0) :
  let tz := (cr ^^^ w.coeff[i]).ctz.toNat
  0 < tz
    ∧ Invariant R n ordinal cpre cpost rpre rpost held keys done
        { w with
          active := some (k, i + tz, (cr ^^^ w.coeff[i]) >>> tz, rr ^^^ w.result[i]) }
  := by
  obtain ⟨hpos, hadv⟩ := (h.reducing k i cr rr hactive).advanced h.holds.table
    (h.tableAround_eq hi hr) hoccupied hrest
  refine ⟨hpos, h.base, h.before, h.within, h.holds, ?_, h.starts, ?_, h.failed⟩
  · apply List.Perm.trans _ h.perm
    rw [hactive]
    apply List.Perm.refl _
  · rintro x j cr' rr' heq
    rw [Option.some.injEq, Prod.mk.injEq, Prod.mk.injEq, Prod.mk.injEq] at heq
    obtain ⟨rfl, rfl, rfl, rfl⟩ := heq
    rw [← Nat.add_assoc]
    apply hadv

/-- No key leaves slices that end with the matrix. -/
theorem Invariant.lt_of_last {k : U64} {i : ℕ} {cr : U128} {rr : U32}
    (h : Invariant R n ordinal cpre [] rpre rpost held keys done w)
    (hactive : w.active = some (k, i, cr, rr)) :
  i < w.coeff.length
  := by
  have hslot := (h.reducing k i cr rr hactive).within.slot_lt
  have hlen := h.holds.shape.coeffs
  rw [List.append_nil, List.length_append] at hlen
  rw [h.base] at hslot
  omega

/-- A step does not panic, keeps the invariant, and decreases the measure of a worker that
has not returned.  No key is spilled from slices that end with the matrix. -/
theorem Invariant.step (h : Invariant R n ordinal cpre cpost rpre rpost held keys done w) :
  ∃ w' done',
    w.step (BitVec.ofNat 64 (n - W128 + 1)) ((ordinalToRawSeed ordinal).setWidth 64) = some w'
      ∧ Invariant R n ordinal cpre cpost rpre rpost held keys done' w'
      ∧ (w.halted = false → w'.measure < w.measure)
      ∧ (cpost = [] → w'.spilled = w.spilled)
  := by
  cases hfailed : w.failed with
  | true =>
      have hstep : w.step (BitVec.ofNat 64 (n - W128 + 1))
          ((ordinalToRawSeed ordinal).setWidth 64) = some w := by
        rw [RangeWorker128.step, if_pos hfailed]
      refine ⟨w, done, hstep, h, ?_, fun _ => rfl⟩
      rw [halted, hfailed]
      exact fun hfalse => nomatch hfalse
  | false =>
      have hrun : ¬ w.failed = true := by simp [hfailed]
      cases hactive : w.active with
      | none =>
          cases hpending : w.pending with
          | nil =>
              have hstep : w.step (BitVec.ofNat 64 (n - W128 + 1))
                  ((ordinalToRawSeed ordinal).setWidth 64) = some w := by
                rw [RangeWorker128.step, if_neg hrun, hactive, hpending]
              refine ⟨w, done, hstep, h, ?_, fun _ => rfl⟩
              rw [halted, hactive, hpending]
              simp
          | cons k pending =>
              obtain ⟨hstart, htaken⟩ := h.take hactive hpending
              refine ⟨_, done, step_take hfailed hactive hpending hstart, htaken, ?_,
                fun _ => rfl⟩
              intro _
              rw [measure, measure, hactive, hpending, if_neg hrun, if_neg hrun, List.length_cons,
                Nat.succ_mul]
              dsimp only
              omega
      | some a =>
          obtain ⟨k, i, cr, rr⟩ := a
          -- Once the key leaves hand, its share of the measure is gone.
          have hfinished : ∀ (coeff : List U128) (result : List U32) (spilled : List U64),
              coeff.length = w.coeff.length →
              measure { w with coeff, result, spilled, active := none } < w.measure := by
            intro coeff result spilled hlen
            rw [measure, measure, hactive, hlen, if_neg hrun, if_neg hrun]
            dsimp only
            omega
          by_cases hout : w.coeff.length ≤ i
          · refine ⟨_, done, step_spill hfailed hactive hout, h.spill hactive,
              fun _ => hfinished w.coeff w.result _ rfl, ?_⟩
            rintro rfl
            exact absurd (h.lt_of_last hactive) (Nat.not_lt.mpr hout)
          · have hi : i < w.coeff.length := Nat.not_le.mp hout
            have hr : i < w.result.length := h.within ▸ hi
            have hread : w.coeff[i]? = some w.coeff[i] := List.getElem?_eq_getElem hi
            have hread' : w.result[i]? = some w.result[i] := List.getElem?_eq_getElem hr
            by_cases hempty : w.coeff[i] = 0
            · rw [hempty] at hread
              refine ⟨_, _, step_place hfailed hactive hread hread', h.place hactive hi hempty, ?_,
                fun _ => rfl⟩
              exact fun _ => hfinished _ _ w.spilled List.length_set
            · by_cases hzero : cr ^^^ w.coeff[i] = 0
              · have hvanished := (h.reducing k i cr rr hactive).vanished
                  (h.tableAround_eq hi hr) hzero
                by_cases hrr : rr ^^^ w.result[i] = 0
                · rw [beq_iff_eq.mpr hrr] at hvanished
                  refine ⟨_, _, step_vanish hfailed hactive hread hread' hempty hzero hrr,
                    h.finish hactive rfl rfl hvanished, ?_, fun _ => rfl⟩
                  exact fun _ => hfinished w.coeff w.result w.spilled rfl
                · rw [beq_eq_false_iff_ne.mpr hrr] at hvanished
                  refine ⟨_, _, step_fail hfailed hactive hread hread' hempty hzero hrr,
                    h.fail hactive hvanished, ?_, fun _ => rfl⟩
                  intro _
                  rw [measure, measure, hactive, if_neg hrun, if_pos rfl]
                  dsimp only
                  omega
              · obtain ⟨hpos, hmoved⟩ := h.move hactive hi hr hempty hzero
                refine ⟨_, _, step_move hfailed hactive hread hread' hempty hzero, hmoved, ?_,
                  fun _ => rfl⟩
                intro _
                rw [measure, measure, hactive, if_neg hrun, if_neg hrun]
                dsimp only
                omega

/-- A worker that has returned without a failure has banded its keys but those it has
spilled. -/
theorem Invariant.perm_of_halted
    (h : Invariant R n ordinal cpre cpost rpre rpost held keys done w) (hhalt : w.halted = true)
    (hfailed : w.failed = false) :
  (done ++ w.spilled).Perm keys
  := by
  have hperm := h.perm
  rw [halted, hfailed, Bool.false_or, Bool.and_eq_true, List.isEmpty_iff,
    Option.isNone_iff_eq_none] at hhalt
  rwa [hhalt.1, hhalt.2, Option.toList_none, List.map_nil, List.nil_append, List.append_nil]
    at hperm

/-! ### All workers -/

/-- The invariant of a worker that is about to take any step. -/
def Sound (R n : ℕ) (ordinal : U32) (held : Set U64) (w : RangeWorker128) : Prop :=
  ∃ cpre cpost rpre rpost keys done, Invariant R n ordinal cpre cpost rpre rpost held keys done w

theorem step_of_halted (numStarts raw : U64) (hhalt : w.halted = true) :
  w.step numStarts raw = some w
  := by
  rw [halted, Bool.or_eq_true, Bool.and_eq_true, List.isEmpty_iff,
    Option.isNone_iff_eq_none] at hhalt
  rcases hhalt with hfailed | ⟨hpending, hactive⟩
  · rw [step, if_pos hfailed]
  · rw [step, hactive, hpending, ite_self]

theorem terminates (R n : ℕ) (ordinal : U32) (cpre cpost : List U128) (rpre rpost : List U32)
    (held : Set U64) (keys : List U64) :
  Terminates (step (BitVec.ofNat 64 (n - W128 + 1)) ((ordinalToRawSeed ordinal).setWidth 64))
    halted measure
    (fun w => (∃ done, Invariant R n ordinal cpre cpost rpre rpost held keys done w)
      ∧ (cpost = [] → w.spilled = []))
  where
  progress w := by
    rintro ⟨⟨done, h⟩, hlast⟩
    obtain ⟨w', done', hstep, h', hlt, hspilled⟩ := h.step
    exact ⟨w', hstep, ⟨⟨done', h'⟩, fun hpost => (hspilled hpost).trans (hlast hpost)⟩, hlt⟩
  fix _ hhalt := step_of_halted _ _ hhalt

theorem terminates_sound (R n : ℕ) (ordinal : U32) (held : Set U64) :
  Terminates (step (BitVec.ofNat 64 (n - W128 + 1)) ((ordinalToRawSeed ordinal).setWidth 64))
    halted measure (Sound R n ordinal held)
  where
  progress w := by
    rintro ⟨cpre, cpost, rpre, rpost, keys, done, h⟩
    obtain ⟨w', done', hstep, h', hlt, -⟩ := h.step
    exact ⟨w', hstep, ⟨cpre, cpost, rpre, rpost, keys, done', h'⟩, hlt⟩
  fix _ hhalt := step_of_halted _ _ hhalt

theorem Invariant.spawn {coeff : List U128} {result : List U32} {base : ℕ}
    (hbase : base = cpre.length) (hbefore : rpre.length = cpre.length)
    (hwithin : result.length = coeff.length)
    (hholds : (matrix R n ordinal (cpre ++ coeff ++ cpost) (rpre ++ result ++ rpost)).Holds n
      ordinal held)
    (hkeys : ∀ k ∈ keys, base ≤ (startSlot n ordinal k).toNat) :
  Invariant R n ordinal cpre cpost rpre rpost held keys []
    (RangeWorker128.spawn coeff result base keys)
  where
  base := hbase
  before := hbefore
  within := hwithin
  holds := by
    simpa [RangeWorker128.spawn] using hholds
  perm := List.Perm.refl _
  starts := hkeys
  reducing _ _ _ _ hnone := nomatch hnone
  failed hfailed := nomatch hfailed

variable {cslices : List (ℕ × List U128)} {rslices : List (ℕ × List U32)}
  {buckets : List (List U64)}

/-- The workers of contiguous slices all start with the invariant. -/
theorem sound_spawnAll (cpre : List U128) (rpre : List U32)
    (hbuckets : List.Forall₂ (fun s bucket => ∀ k ∈ bucket,
      s.1 ≤ (startSlot n ordinal k).toNat) cslices buckets)
    (hslices : List.Forall₂ (fun c r => r.2.length = c.2.length) cslices rslices)
    (hcontig : Contiguous cpre.length cslices) (hbefore : rpre.length = cpre.length)
    (hholds : (matrix R n ordinal (cpre ++ (cslices.map Prod.snd).flatten)
      (rpre ++ (rslices.map Prod.snd).flatten)).Holds n ordinal held) :
  ∀ w ∈ spawnAll cslices rslices buckets, Sound R n ordinal held w
  := by
  induction hbuckets generalizing cpre rpre rslices with
  | nil =>
      intro w hw
      rw [spawnAll] at hw
      · nomatch hw
      · intro _ _ _ _ _ _ hnil
        nomatch hnil
  | @cons c bucket cslices buckets hbucket _ ih =>
      cases hslices with
      | @cons _ r _ rslices hlen hslices =>
          obtain ⟨hbase, hrest⟩ := hcontig
          rw [List.map_cons, List.map_cons, List.flatten_cons, List.flatten_cons,
            ← List.append_assoc, ← List.append_assoc] at hholds
          intro w hw
          rcases List.mem_cons.mp hw with rfl | hw
          · exact ⟨_, _, _, _, _, _, Invariant.spawn hbase hbefore hlen hholds hbucket⟩
          · rw [← List.length_append] at hrest
            apply ih _ _ hslices hrest _ hholds w hw
            rw [List.length_append, List.length_append, hbefore, hlen]

/-- Joined in turn, the workers of contiguous slices have banded keys of theirs into the
matrix: all but those they spilled if none failed; and if one failed, the system of the
keys held before and of theirs is inconsistent. -/
theorem exists_join_spawnAll (cpre : List U128) (rpre : List U32)
    (hbuckets : List.Forall₂ (fun s bucket => ∀ k ∈ bucket,
      s.1 ≤ (startSlot n ordinal k).toNat) cslices buckets)
    (hslices : List.Forall₂ (fun c r => r.2.length = c.2.length) cslices rslices)
    (hcontig : Contiguous cpre.length cslices) (hbefore : rpre.length = cpre.length)
    (hholds : (matrix R n ordinal (cpre ++ (cslices.map Prod.snd).flatten)
      (rpre ++ (rslices.map Prod.snd).flatten)).Holds n ordinal held) :
  ∃ workers done,
    ((spawnAll cslices rslices buckets).map fun w =>
        join (step (BitVec.ofNat 64 (n - W128 + 1)) ((ordinalToRawSeed ordinal).setWidth 64))
          halted fuel (some w)).mapM id = some workers
      ∧ (matrix R n ordinal (cpre ++ (workers.map coeff).flatten)
          (rpre ++ (workers.map result).flatten)).Holds n ordinal (held ∪ {k | k ∈ done})
      ∧ (∀ k ∈ done, k ∈ buckets.flatten)
      ∧ (workers.any failed = false →
          (done ++ (workers.map spilled).flatten).Perm buckets.flatten)
      ∧ (workers.any failed = true →
          ¬ Consistent (system n ordinal (held ∪ {k | k ∈ buckets.flatten})))
  := by
  induction hbuckets generalizing cpre rpre rslices held with
  | nil =>
      cases hslices
      use [], [], rfl, by simpa using hholds, fun _ hk => (nomatch hk)
      constructor
      · exact fun _ => List.Perm.refl _
      · exact fun hfalse => nomatch hfalse
  | @cons c bucket cslices buckets hbucket _ ih =>
      cases hslices with
      | @cons _ r _ rslices hlen hslices =>
          obtain ⟨hbase, hrest⟩ := hcontig
          rw [List.map_cons, List.map_cons, List.flatten_cons, List.flatten_cons,
            ← List.append_assoc, ← List.append_assoc] at hholds
          -- The first worker bands into the matrix as it is; the others then find its slices
          -- banded, and their own as they were.
          have hspawn := Invariant.spawn hbase hbefore hlen hholds hbucket
          obtain ⟨w, hjoin, ⟨⟨done, hw⟩, -⟩, hhalt⟩ :=
            (terminates R n ordinal cpre (cslices.map Prod.snd).flatten rpre
              (rslices.map Prod.snd).flatten held bucket).exists_join measure_le_fuel
              ⟨⟨[], hspawn⟩, fun _ => rfl⟩
          have hwlen : w.coeff.length = c.2.length := by
            have h₁ := hholds.shape.coeffs
            have h₂ := hw.holds.shape.coeffs
            rw [List.length_append, List.length_append] at h₁ h₂
            omega
          rw [← List.length_append, List.length_append, ← hwlen, ← List.length_append] at hrest
          have hbefore' : (rpre ++ w.result).length = (cpre ++ w.coeff).length := by
            rw [List.length_append, List.length_append, hbefore, hw.within]
          obtain ⟨workers, done', hmap, hholds', hsub, hok, hfail⟩ :=
            ih _ _ hslices hrest hbefore' hw.holds
          have hdone : ∀ k ∈ done, k ∈ bucket := by
            intro k hk
            rw [← hw.perm.mem_iff]
            apply List.mem_append_left _ hk
          refine ⟨w :: workers, done ++ done', ?_, ?_, ?_, ?_, ?_⟩
          · rw [spawnAll, List.map_cons, List.mapM_cons, id, hjoin, Option.bind_eq_bind,
              Option.bind_some, hmap]
            rfl
          · rw [List.map_cons, List.map_cons, List.flatten_cons, List.flatten_cons,
              ← List.append_assoc, ← List.append_assoc, ← union_union_mem]
            apply hholds'
          · intro k hk
            rw [List.flatten_cons, List.mem_append]
            rcases List.mem_append.mp hk with hk | hk
            · apply Or.inl (hdone k hk)
            · apply Or.inr (hsub k hk)
          · intro hnone
            rw [List.any_cons, Bool.or_eq_false_iff] at hnone
            rw [List.map_cons, List.flatten_cons, List.flatten_cons]
            apply List.Perm.trans _ ((hw.perm_of_halted hhalt hnone.1).append (hok hnone.2))
            rw [List.perm_iff_count]
            intro k
            simp only [List.count_append]
            omega
          · intro hsome
            rw [List.any_cons, Bool.or_eq_true] at hsome
            rw [List.flatten_cons, ← union_union_mem]
            rcases hsome with hfailed | hsome
            · apply not_consistent_mono Set.subset_union_left (hw.failed hfailed)
            · apply not_consistent_mono _ (hfail hsome)
              apply Set.union_subset_union_left _ (Set.union_subset_union_right held hdone)

/-- In whatever order the workers take their steps, they end as when each runs alone. -/
theorem exists_scope
    (hbuckets : List.Forall₂ (fun s bucket => ∀ k ∈ bucket,
      s.1 ≤ (startSlot n ordinal k).toNat) cslices buckets)
    (hslices : List.Forall₂ (fun c r => r.2.length = c.2.length) cslices rslices)
    (hcontig : Contiguous 0 cslices)
    (hholds : (matrix R n ordinal (cslices.map Prod.snd).flatten
      (rslices.map Prod.snd).flatten).Holds n ordinal held)
    (schedule : List ℕ) :
  ∃ workers done,
    scope (BitVec.ofNat 64 (n - W128 + 1)) ((ordinalToRawSeed ordinal).setWidth 64) schedule
        (spawnAll cslices rslices buckets) = some workers
      ∧ (matrix R n ordinal (workers.map coeff).flatten (workers.map result).flatten).Holds n
          ordinal (held ∪ {k | k ∈ done})
      ∧ (workers.any failed = false →
          (done ++ (workers.map spilled).flatten).Perm buckets.flatten)
      ∧ (workers.any failed = true →
          ¬ Consistent (system n ordinal (held ∪ {k | k ∈ buckets.flatten})))
  := by
  have hsound := sound_spawnAll [] [] hbuckets hslices hcontig rfl hholds
  obtain ⟨workers, done, hjoin, hheld, -, hok, hfail⟩ :=
    exists_join_spawnAll [] [] hbuckets hslices hcontig rfl hholds
  refine ⟨workers, done, ?_, hheld, hok, hfail⟩
  rw [scope, (terminates_sound R n ordinal held).scope_eq measure_le_fuel schedule hsound]
  apply hjoin

end RangeWorker128

end Pleat
