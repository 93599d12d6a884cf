import Pleat.Data.Interleaving
import Pleat.Homogeneous.Banding
import Pleat.Ranges

/-!
# Range workers of the homogeneous build

A thread of the parallel build bands the keys of one range against its own slice of the
matrix (`band_slice` in `filter/parallel.rs`).  It is a machine whose steps are the turns
of the two loops; a key whose reduction leaves the slice is spilled and changes nothing.

Whatever steps it has taken, a worker has banded some of its keys as insertions into the
whole matrix, and still has each of the others once: spilled, in hand or not yet taken.
-/

namespace Pleat

open Bits Linear Banding Interleaving

/-- A thread of the parallel build: its slice of the rows, which starts at slot `base`, the
keys it has not yet taken, the key in hand with its slot in the slice and what is left of
its row, and the keys that left the slice. -/
structure RangeWorker where
  slice : List U64
  base : ℕ
  pending : List U64
  active : Option (U64 × ℕ × U64)
  spilled : List U64
  deriving DecidableEq

namespace RangeWorker

/-- A worker before its first step. -/
def spawn (slice : List U64) (base : ℕ) (keys : List U64) : RangeWorker where
  slice := slice
  base := base
  pending := keys
  active := none
  spilled := []

/-- One turn: take the next key, or move the key in hand by one stored row.  A key that
starts before the slice makes the local slot underflow. -/
def step (numStarts rawSeed : U64) (w : RangeWorker) : Option RangeWorker :=
  match w.active with
  | none =>
      match w.pending with
      | [] => some w
      | k :: pending =>
          let h := ribbonHash k rawSeed
          let s := (start h numStarts).toNat
          if w.base ≤ s then
            some { w with pending, active := some (k, s - w.base, coeffRow h) }
          else
            none
  | some (k, i, cr) =>
      if w.slice.length ≤ i then
        -- The reduction crossed the boundary of the range.
        some { w with active := none, spilled := w.spilled ++ [k] }
      else do
        let crAtI ← w.slice[i]?
        if crAtI = 0 then
          some { w with slice := w.slice.set i cr, active := none }
        else
          let cr := cr ^^^ crAtI
          if cr = 0 then
            some { w with active := none }
          else
            let tz := cr.ctz.toNat
            some { w with active := some (k, i + tz, cr >>> tz) }

/-- The worker has returned. -/
def halted (w : RangeWorker) : Bool :=
  w.pending.isEmpty && w.active.isNone

/-- A bound on the steps that are left: each key takes at most one for every slot of the
slice, one to be taken and one to be spilled. -/
def fuel (w : RangeWorker) : ℕ :=
  (w.pending.length + 1) * (w.slice.length + 2)

/-- Let the workers run in the order of the schedule, which names the worker of each step,
then join them in turn. -/
def scope (numStarts rawSeed : U64) (schedule : List ℕ) (workers : List RangeWorker) :
    Option (List RangeWorker) :=
  Interleaving.scope (step numStarts rawSeed) halted fuel schedule workers

/-- The workers of the slices of the ranges, each with its bucket of keys. -/
def spawnAll (slices : List (ℕ × List U64)) (buckets : List (List U64)) : List RangeWorker :=
  List.zipWith (fun s bucket => spawn s.2 s.1 bucket) slices buckets

/-! ### The steps -/

section Steps

variable {numStarts seed : U64} {w : RangeWorker} {k : U64} {i : ℕ} {cr : U64}

/-- The next key is taken. -/
theorem step_take {pending : List U64} (hactive : w.active = none)
    (hpending : w.pending = k :: pending)
    (hstart : w.base ≤ (start (ribbonHash k seed) numStarts).toNat) :
  w.step numStarts seed = some { w with
    pending
    active := some (k, (start (ribbonHash k seed) numStarts).toNat - w.base,
      coeffRow (ribbonHash k seed)) }
  := by
  rw [step, hactive, hpending]
  apply if_pos hstart

/-- Past the slice the key in hand is spilled. -/
theorem step_spill (hactive : w.active = some (k, i, cr)) (hout : w.slice.length ≤ i) :
  w.step numStarts seed = some { w with active := none, spilled := w.spilled ++ [k] }
  := by
  rw [step, hactive]
  apply if_pos hout

/-- At an empty slot what is left of the key in hand is placed. -/
theorem step_place (hactive : w.active = some (k, i, cr)) (hread : w.slice[i]? = some 0) :
  w.step numStarts seed = some { w with slice := w.slice.set i cr, active := none }
  := by
  have hi := (List.getElem?_eq_some_iff.mp hread).1
  rw [step, hactive]
  simp only [if_neg (Nat.not_le.mpr hi), hread, Option.bind_eq_bind, Option.bind_some, if_true]

/-- A key in hand of which nothing is left is dropped. -/
theorem step_vanish (hactive : w.active = some (k, i, cr)) {crAtI : U64}
    (hread : w.slice[i]? = some crAtI) (hne : crAtI ≠ 0) (hzero : cr ^^^ crAtI = 0) :
  w.step numStarts seed = some { w with active := none }
  := by
  have hi := (List.getElem?_eq_some_iff.mp hread).1
  rw [step, hactive]
  simp only [if_neg (Nat.not_le.mpr hi), hread, Option.bind_eq_bind, Option.bind_some, if_neg hne]
  apply if_pos hzero

/-- Otherwise the key in hand moves on. -/
theorem step_move (hactive : w.active = some (k, i, cr)) {crAtI : U64}
    (hread : w.slice[i]? = some crAtI) (hne : crAtI ≠ 0) (hrest : cr ^^^ crAtI ≠ 0) :
  w.step numStarts seed = some { w with
    active := some (k, i + (cr ^^^ crAtI).ctz.toNat, (cr ^^^ crAtI) >>> (cr ^^^ crAtI).ctz.toNat) }
  := by
  have hi := (List.getElem?_eq_some_iff.mp hread).1
  rw [step, hactive]
  simp only [if_neg (Nat.not_le.mpr hi), hread, Option.bind_eq_bind, Option.bind_some, if_neg hne]
  apply if_neg hrest

end Steps

/-! ### The invariant -/

/-- The matrix of the given rows. -/
abbrev matrix (R : ℕ) (numStarts rawSeed : U64) (coeffRows : List U64) : Banding R where
  coeffRows := coeffRows
  numStarts := numStarts
  rawSeed := rawSeed

variable {R n : ℕ} {numStarts seed : U64} {pre post : List U64} {held : Set U64}
  {keys done : List U64} {w : RangeWorker}

/-- Between the rows `pre` and `post` of a matrix that held the keys `held`, the worker has
banded the keys `done` of its `keys`. -/
structure Invariant (R n : ℕ) (numStarts seed : U64) (pre post : List U64) (held : Set U64)
    (keys done : List U64) (w : RangeWorker) : Prop where
  base : w.base = pre.length
  holds : (matrix R numStarts seed (pre ++ w.slice ++ post)).Holds n seed (held ∪ {k | k ∈ done})
  perm : (done ++ (w.spilled ++ (w.active.toList.map Prod.fst ++ w.pending))).Perm keys
  starts : ∀ k ∈ w.pending, w.base ≤ (start (ribbonHash k seed) numStarts).toNat
  reducing : ∀ k i cr, w.active = some (k, i, cr) →
    Reducing (rowsTable (pre ++ w.slice ++ post)) n (keyEquation numStarts seed k)
      (w.base + i) cr (0 : BitVec 0)

/-- A measure that decreases with every step. -/
def measure (w : RangeWorker) : ℕ :=
  w.pending.length * (w.slice.length + 2)
    + match w.active with
      | none => 0
      | some (_, i, _) => w.slice.length - i + 1

theorem measure_le_fuel (w : RangeWorker) :
  w.measure ≤ w.fuel
  := by
  rw [measure, fuel, Nat.add_mul, Nat.one_mul]
  apply Nat.add_le_add_left
  split
  · apply Nat.zero_le _
  · omega

/-! ### The steps keep the invariant -/

/-- The next key is taken: it starts in the slice or after it. -/
theorem Invariant.take {k : U64} {pending : List U64}
    (h : Invariant R n numStarts seed pre post held keys done w) (hactive : w.active = none)
    (hpending : w.pending = k :: pending) :
  let s := (start (ribbonHash k seed) numStarts).toNat
  w.base ≤ s
    ∧ Invariant R n numStarts seed pre post held keys done
        { w with pending, active := some (k, s - w.base, coeffRow (ribbonHash k seed)) }
  := by
  intro s
  have hstart : w.base ≤ s := h.starts k (by simp [hpending])
  refine ⟨hstart, h.base, h.holds, ?_, ?_, ?_⟩
  · apply List.Perm.trans _ h.perm
    rw [hactive, hpending]
    apply List.Perm.refl _
  · exact fun x hx => h.starts x (by simp [hpending, hx])
  · rintro x i cr heq
    rw [Option.some.injEq, Prod.mk.injEq, Prod.mk.injEq] at heq
    obtain ⟨rfl, rfl, rfl⟩ := heq
    have hslots := h.holds.wellFormed.slots
    rw [h.holds.slots] at hslots
    rw [Nat.add_sub_cancel' hstart]
    apply Reducing.refl
    rw [show numStarts = BitVec.ofNat 64 (n - W + 1) from h.holds.numStarts_eq]
    apply within_start hslots _ (coeffRow_odd _)

/-- The key in hand is spilled. -/
theorem Invariant.spill {k : U64} {i : ℕ} {cr : U64}
    (h : Invariant R n numStarts seed pre post held keys done w)
    (hactive : w.active = some (k, i, cr)) :
  Invariant R n numStarts seed pre post held keys done
    { w with active := none, spilled := w.spilled ++ [k] }
  := by
  refine ⟨h.base, h.holds, ?_, h.starts, fun _ _ _ hnone => nomatch hnone⟩
  apply List.Perm.trans _ h.perm
  rw [hactive, List.append_assoc]
  apply List.Perm.refl _

/-- The key in hand has been inserted. -/
theorem Invariant.finish {k : U64} {i : ℕ} {cr : U64}
    (h : Invariant R n numStarts seed pre post held keys done w)
    (hactive : w.active = some (k, i, cr)) {slice : List U64}
    (hlen : slice.length = w.slice.length)
    (hins : Insertion (rowsTable (pre ++ w.slice ++ post)) n (keyEquation numStarts seed k)
      (rowsTable (pre ++ slice ++ post)) true) :
  Invariant R n numStarts seed pre post held keys (done ++ [k]) { w with slice, active := none }
  where
  base := h.base
  holds := by
    rw [← insert_union_mem]
    apply h.holds.inserted _ hins
    rw [← h.holds.slots, numSlots, List.length_append, List.length_append, List.length_append,
      List.length_append, hlen]
  perm := by
    have hmiddle : (done ++ k :: (w.spilled ++ w.pending)).Perm
        (done ++ (w.spilled ++ k :: w.pending)) := List.perm_middle.symm.append_left done
    apply List.Perm.trans _ h.perm
    rw [hactive, List.append_assoc]
    apply hmiddle
  starts := h.starts
  reducing _ _ _ hnone := nomatch hnone

/-- What is left of the key in hand is placed at an empty slot of the slice. -/
theorem Invariant.place {k : U64} {i : ℕ} {cr : U64}
    (h : Invariant R n numStarts seed pre post held keys done w)
    (hactive : w.active = some (k, i, cr)) (hi : i < w.slice.length) (hempty : w.slice[i] = 0) :
  Invariant R n numStarts seed pre post held keys (done ++ [k])
    { w with slice := w.slice.set i cr, active := none }
  := by
  have hrow := rowsTable_of_getElem? (getElem?_between pre post hi)
  rw [← h.base] at hrow
  have hplaced := (h.reducing k i cr hactive).placed (by rw [hrow]; exact hempty)
  have hlen : pre.length + i < (pre ++ w.slice ++ post).length := by
    rw [List.length_append, List.length_append]
    omega
  have hset := rowsTable_set hlen cr
  rw [← set_between pre post hi, ← h.base] at hset
  rw [← hset] at hplaced
  apply h.finish hactive List.length_set hplaced

/-- The key in hand moves on, with the row stored at its slot added to what is left. -/
theorem Invariant.move {k : U64} {i : ℕ} {cr : U64}
    (h : Invariant R n numStarts seed pre post held keys done w)
    (hactive : w.active = some (k, i, cr)) (hi : i < w.slice.length) (hoccupied : w.slice[i] ≠ 0)
    (hrest : cr ^^^ w.slice[i] ≠ 0) :
  let tz := (cr ^^^ w.slice[i]).ctz.toNat
  0 < tz
    ∧ Invariant R n numStarts seed pre post held keys done
        { w with active := some (k, i + tz, (cr ^^^ w.slice[i]) >>> tz) }
  := by
  have ht := h.holds.wellFormed.table
  rw [h.holds.slots] at ht
  have hrow := rowsTable_of_getElem? (getElem?_between pre post hi)
  rw [← h.base] at hrow
  obtain ⟨hpos, hadv⟩ := (h.reducing k i cr hactive).advanced ht hrow hoccupied hrest
  refine ⟨hpos, h.base, h.holds, ?_, h.starts, ?_⟩
  · apply List.Perm.trans _ h.perm
    rw [hactive]
    apply List.Perm.refl _
  · rintro x j cr' heq
    rw [Option.some.injEq, Prod.mk.injEq, Prod.mk.injEq] at heq
    obtain ⟨rfl, rfl, rfl⟩ := heq
    rw [← Nat.add_assoc]
    apply hadv

/-- No key leaves a slice that ends with the matrix. -/
theorem Invariant.lt_of_last {k : U64} {i : ℕ} {cr : U64}
    (h : Invariant R n numStarts seed pre [] held keys done w)
    (hactive : w.active = some (k, i, cr)) :
  i < w.slice.length
  := by
  have hslot := (h.reducing k i cr hactive).within.slot_lt
  have hlen := h.holds.slots
  rw [numSlots, List.append_nil, List.length_append] at hlen
  rw [h.base] at hslot
  omega

/-- A step does not panic, keeps the invariant, and decreases the measure of a worker that
has not returned.  No key is spilled from a slice that ends with the matrix. -/
theorem Invariant.step (h : Invariant R n numStarts seed pre post held keys done w) :
  ∃ w' done', w.step numStarts seed = some w'
    ∧ Invariant R n numStarts seed pre post held keys done' w'
    ∧ (w.halted = false → w'.measure < w.measure)
    ∧ (post = [] → w'.spilled = w.spilled)
  := by
  cases hactive : w.active with
  | none =>
      cases hpending : w.pending with
      | nil =>
          have hstep : w.step numStarts seed = some w := by
            rw [RangeWorker.step, hactive, hpending]
          refine ⟨w, done, hstep, h, ?_, fun _ => rfl⟩
          rw [halted, hactive, hpending]
          exact fun hfalse => nomatch hfalse
      | cons k pending =>
          obtain ⟨hstart, htaken⟩ := h.take hactive hpending
          refine ⟨_, done, step_take hactive hpending hstart, htaken, ?_, fun _ => rfl⟩
          intro _
          rw [measure, measure, hactive, hpending, List.length_cons, Nat.succ_mul]
          dsimp only
          omega
  | some a =>
      obtain ⟨k, i, cr⟩ := a
      -- Once the key leaves hand, its share of the measure is gone.
      have hfinished : ∀ (slice spilled : List U64), slice.length = w.slice.length →
          measure { w with slice, spilled, active := none } < w.measure := by
        intro slice spilled hlen
        rw [measure, measure, hactive, hlen]
        dsimp only
        omega
      by_cases hout : w.slice.length ≤ i
      · refine ⟨_, done, step_spill hactive hout, h.spill hactive,
          fun _ => hfinished w.slice _ rfl, ?_⟩
        rintro rfl
        exact absurd (h.lt_of_last hactive) (Nat.not_lt.mpr hout)
      · have hi : i < w.slice.length := Nat.not_le.mp hout
        have hread : w.slice[i]? = some w.slice[i] := List.getElem?_eq_getElem hi
        by_cases hempty : w.slice[i] = 0
        · rw [hempty] at hread
          refine ⟨_, _, step_place hactive hread, h.place hactive hi hempty, ?_, fun _ => rfl⟩
          exact fun _ => hfinished _ w.spilled List.length_set
        · by_cases hzero : cr ^^^ w.slice[i] = 0
          · have hrow := rowsTable_of_getElem? (getElem?_between pre post hi)
            rw [← h.base] at hrow
            have hvanished := (h.reducing k i cr hactive).vanished hrow hzero
            refine ⟨_, _, step_vanish hactive hread hempty hzero, h.finish hactive rfl hvanished,
              ?_, fun _ => rfl⟩
            exact fun _ => hfinished w.slice w.spilled rfl
          · obtain ⟨hpos, hmoved⟩ := h.move hactive hi hempty hzero
            refine ⟨_, _, step_move hactive hread hempty hzero, hmoved, ?_, fun _ => rfl⟩
            intro _
            rw [measure, measure, hactive]
            dsimp only
            omega

/-- A worker that has returned has banded its keys but those it has spilled. -/
theorem Invariant.perm_of_halted (h : Invariant R n numStarts seed pre post held keys done w)
    (hhalt : w.halted = true) :
  (done ++ w.spilled).Perm keys
  := by
  have hperm := h.perm
  rw [halted, Bool.and_eq_true, List.isEmpty_iff, Option.isNone_iff_eq_none] at hhalt
  rwa [hhalt.1, hhalt.2, Option.toList_none, List.map_nil, List.nil_append, List.append_nil]
    at hperm

/-! ### All workers -/

/-- The invariant of a worker that is about to take any step. -/
def Sound (R n : ℕ) (numStarts seed : U64) (held : Set U64) (w : RangeWorker) : Prop :=
  ∃ pre post keys done, Invariant R n numStarts seed pre post held keys done w

theorem step_of_halted (numStarts seed : U64) (hhalt : w.halted = true) :
  w.step numStarts seed = some w
  := by
  rw [halted, Bool.and_eq_true, List.isEmpty_iff, Option.isNone_iff_eq_none] at hhalt
  rw [step, hhalt.2, hhalt.1]

theorem terminates (R n : ℕ) (numStarts seed : U64) (pre post : List U64) (held : Set U64)
    (keys : List U64) :
  Terminates (step numStarts seed) halted measure
    (fun w => (∃ done, Invariant R n numStarts seed pre post held keys done w)
      ∧ (post = [] → w.spilled = []))
  where
  progress w := by
    rintro ⟨⟨done, h⟩, hlast⟩
    obtain ⟨w', done', hstep, h', hlt, hspilled⟩ := h.step
    exact ⟨w', hstep, ⟨⟨done', h'⟩, fun hpost => (hspilled hpost).trans (hlast hpost)⟩, hlt⟩
  fix _ hhalt := step_of_halted _ _ hhalt

theorem terminates_sound (R n : ℕ) (numStarts seed : U64) (held : Set U64) :
  Terminates (step numStarts seed) halted measure (Sound R n numStarts seed held)
  where
  progress w := by
    rintro ⟨pre, post, keys, done, h⟩
    obtain ⟨w', done', hstep, h', hlt, -⟩ := h.step
    exact ⟨w', hstep, ⟨pre, post, keys, done', h'⟩, hlt⟩
  fix _ hhalt := step_of_halted _ _ hhalt

theorem Invariant.spawn {slice : List U64} {base : ℕ} (hbase : base = pre.length)
    (hholds : (matrix R numStarts seed (pre ++ slice ++ post)).Holds n seed held)
    (hkeys : ∀ k ∈ keys, base ≤ (start (ribbonHash k seed) numStarts).toNat) :
  Invariant R n numStarts seed pre post held keys [] (RangeWorker.spawn slice base keys)
  where
  base := hbase
  holds := by
    simpa [RangeWorker.spawn] using hholds
  perm := List.Perm.refl _
  starts := hkeys
  reducing _ _ _ hnone := nomatch hnone

/-- The workers of contiguous slices all start with the invariant. -/
theorem sound_spawnAll {slices : List (ℕ × List U64)} {buckets : List (List U64)}
    (hbuckets : List.Forall₂ (fun s bucket => ∀ k ∈ bucket,
      s.1 ≤ (start (ribbonHash k seed) numStarts).toNat) slices buckets)
    (pre : List U64) (hcontig : Contiguous pre.length slices)
    (hholds : (matrix R numStarts seed (pre ++ (slices.map Prod.snd).flatten)).Holds n seed held) :
  ∀ w ∈ spawnAll slices buckets, Sound R n numStarts seed held w
  := by
  induction hbuckets generalizing pre with
  | nil => exact fun w hw => nomatch hw
  | @cons s bucket slices buckets hbucket _ ih =>
      obtain ⟨hbase, hrest⟩ := hcontig
      rw [List.map_cons, List.flatten_cons, ← List.append_assoc] at hholds
      intro w hw
      rcases List.mem_cons.mp hw with rfl | hw
      · exact ⟨_, _, _, _, Invariant.spawn hbase hholds hbucket⟩
      · rw [← List.length_append] at hrest
        apply ih _ hrest hholds w hw

/-- Joined in turn, the workers of contiguous slices have banded into the matrix all their
keys but those they spilled. -/
theorem exists_join_spawnAll {slices : List (ℕ × List U64)} {buckets : List (List U64)}
    (hbuckets : List.Forall₂ (fun s bucket => ∀ k ∈ bucket,
      s.1 ≤ (start (ribbonHash k seed) numStarts).toNat) slices buckets)
    (pre : List U64) (hcontig : Contiguous pre.length slices)
    (hholds : (matrix R numStarts seed (pre ++ (slices.map Prod.snd).flatten)).Holds n seed held) :
  ∃ workers done,
    ((spawnAll slices buckets).map fun w =>
        join (step numStarts seed) halted fuel (some w)).mapM id = some workers
      ∧ (matrix R numStarts seed (pre ++ (workers.map slice).flatten)).Holds n seed
          (held ∪ {k | k ∈ done})
      ∧ (done ++ (workers.map spilled).flatten).Perm buckets.flatten
  := by
  induction hbuckets generalizing pre held with
  | nil => exact ⟨[], [], rfl, by simpa using hholds, List.Perm.refl _⟩
  | @cons s bucket slices buckets hbucket _ ih =>
      obtain ⟨hbase, hrest⟩ := hcontig
      rw [List.map_cons, List.flatten_cons, ← List.append_assoc] at hholds
      -- The first worker bands into the matrix as it is; the others then find its slice
      -- banded, and their own as it was.
      have hspawn := Invariant.spawn hbase hholds hbucket
      obtain ⟨w, hjoin, ⟨⟨done, hw⟩, -⟩, hhalt⟩ :=
        (terminates R n numStarts seed pre (slices.map Prod.snd).flatten held bucket).exists_join
          measure_le_fuel ⟨⟨[], hspawn⟩, fun _ => rfl⟩
      have hlen : w.slice.length = s.2.length := by
        have h₁ := hholds.slots
        have h₂ := hw.holds.slots
        rw [numSlots, List.length_append, List.length_append] at h₁ h₂
        omega
      rw [← List.length_append, List.length_append, ← hlen, ← List.length_append] at hrest
      obtain ⟨workers, done', hmap, hholds', hperm⟩ := ih _ hrest hw.holds
      refine ⟨w :: workers, done ++ done', ?_, ?_, ?_⟩
      · rw [spawnAll, List.zipWith_cons_cons, List.map_cons, List.mapM_cons]
        rw [id, hjoin, Option.bind_eq_bind, Option.bind_some]
        rw [spawnAll] at hmap
        rw [hmap]
        rfl
      · rw [List.map_cons, List.flatten_cons, ← List.append_assoc, ← union_union_mem]
        apply hholds'
      · rw [List.map_cons, List.flatten_cons, List.flatten_cons]
        apply List.Perm.trans _ ((hw.perm_of_halted hhalt).append hperm)
        rw [List.perm_iff_count]
        intro k
        simp only [List.count_append]
        omega

/-- In whatever order the workers take their steps, they end with all their keys banded into
the matrix but those they spilled. -/
theorem exists_scope {slices : List (ℕ × List U64)} {buckets : List (List U64)}
    (hbuckets : List.Forall₂ (fun s bucket => ∀ k ∈ bucket,
      s.1 ≤ (start (ribbonHash k seed) numStarts).toNat) slices buckets)
    (hcontig : Contiguous 0 slices)
    (hholds : (matrix R numStarts seed (slices.map Prod.snd).flatten).Holds n seed held)
    (schedule : List ℕ) :
  ∃ workers done, scope numStarts seed schedule (spawnAll slices buckets) = some workers
    ∧ (matrix R numStarts seed (workers.map slice).flatten).Holds n seed (held ∪ {k | k ∈ done})
    ∧ (done ++ (workers.map spilled).flatten).Perm buckets.flatten
  := by
  have hsound := sound_spawnAll hbuckets [] hcontig hholds
  rw [scope, (terminates_sound R n numStarts seed held).scope_eq measure_le_fuel schedule hsound]
  apply exists_join_spawnAll hbuckets [] hcontig hholds

end RangeWorker

end Pleat
