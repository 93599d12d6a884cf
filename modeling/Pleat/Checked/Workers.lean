import Pleat.Checked.Banding
import Pleat.Checked.Buckets
import Pleat.Margin

/-!
# Range workers with arithmetic that can fail

The split of the rows and the turns of the threads of the parallel builds with every
operation of the machine written out.  A thread reads its slice before it moves on, and a
slice is no longer than the matrix; and no thread of a build spills a key, so that the vector
it spills to never grows.  So the threads take the steps they take in the arithmetic of the
numbers, whatever the schedule.
-/

namespace Pleat.Checked

open Bits Format Interleaving

/-- Split rows into the slices between successive boundaries. -/
def splitSlices (T : Target) {α : Type} :
    List ℕ → ℕ → List α → Option (List (ℕ × List α) × List α)
  | lo :: hi :: bounds, consumed, rest => do
      let len ← checkedSub hi lo
      if len ≤ rest.length then do
        let next ← T.add consumed len
        let (slices, rest') ← splitSlices T (hi :: bounds) next (rest.drop len)
        some ((consumed, rest.take len) :: slices, rest')
      else
        none
  | _, _, rest => some ([], rest)

/-- One turn of a thread of the homogeneous build. -/
def workerStep (T : Target) (numStarts rawSeed : U64) (w : RangeWorker) : Option RangeWorker :=
  match w.active with
  | none =>
      match w.pending with
      | [] => some w
      | k :: pending => do
          let h := ribbonHash k rawSeed
          let s ← start h numStarts
          let i ← checkedSub (T.cast s) w.base
          some { w with pending, active := some (k, i, coeffRow h) }
  | some (k, i, cr) =>
      if w.slice.length ≤ i then do
        let spilled ← pushSpilled T w.spilled k
        some { w with active := none, spilled }
      else do
        let crAtI ← w.slice[i]?
        if crAtI = 0 then
          some { w with slice := w.slice.set i cr, active := none }
        else
          let cr := cr ^^^ crAtI
          if cr = 0 then
            some { w with active := none }
          else do
            let tz := cr.ctz.toNat
            let i ← T.add i tz
            let cr ← wordShr cr tz
            some { w with active := some (k, i, cr) }

/-- Let the workers run in the order of the schedule, then join them in turn. -/
def scope (T : Target) (numStarts rawSeed : U64) (schedule : List ℕ) (workers : List RangeWorker) :
    Option (List RangeWorker) :=
  Interleaving.scope (workerStep T numStarts rawSeed) RangeWorker.halted RangeWorker.fuel schedule
    workers

/-- One turn of a thread of the standard build. -/
def workerStep128 (T : Target) (numStarts raw : U64) (w : RangeWorker128) :
    Option RangeWorker128 :=
  if w.failed then
    some w
  else
    match w.active with
    | none =>
        match w.pending with
        | [] => some w
        | k :: pending => do
            let h := ribbonHash k raw
            let s ← start h numStarts
            let i ← checkedSub (T.cast s) w.base
            some { w with pending, active := some (k, i, coeffRow128 h, resultRow h) }
    | some (k, i, cr, rr) =>
        if w.coeff.length ≤ i then do
          let spilled ← pushSpilled T w.spilled k
          some { w with active := none, spilled }
        else do
          let crAtI ← w.coeff[i]?
          let rrAtI ← w.result[i]?
          if crAtI = 0 then
            some { w with coeff := w.coeff.set i cr, result := w.result.set i rr, active := none }
          else
            let cr := cr ^^^ crAtI
            let rr := rr ^^^ rrAtI
            if cr = 0 then
              some (if rr ≠ 0 then { w with failed := true } else { w with active := none })
            else do
              let tz := cr.ctz.toNat
              let i ← T.add i tz
              let cr ← wordShr cr tz
              some { w with active := some (k, i, cr, rr) }

/-- Let the workers run in the order of the schedule, then join them in turn. -/
def scope128 (T : Target) (numStarts raw : U64) (schedule : List ℕ)
    (workers : List RangeWorker128) : Option (List RangeWorker128) :=
  Interleaving.scope (workerStep128 T numStarts raw) RangeWorker128.halted RangeWorker128.fuel
    schedule workers

/-! ### The split -/

variable {T : Target} {n : ℕ}

/-- What has been split off is counted as long as all of the rows are. -/
theorem splitSlices_eq {α : Type} (bounds : List ℕ) {consumed : ℕ} {rest : List α}
    (h : consumed + rest.length ≤ T.usizeMax) :
  splitSlices T bounds consumed rest = Pleat.splitSlices bounds consumed rest
  := by
  induction bounds generalizing consumed rest with
  | nil => rfl
  | cons lo bounds ih =>
      cases bounds with
      | nil => rfl
      | cons hi bounds =>
          rw [splitSlices, Pleat.splitSlices, checkedSub]
          by_cases hle : lo ≤ hi
          · by_cases hlen : hi - lo ≤ rest.length
            · have hnext : consumed + (hi - lo) + (rest.drop (hi - lo)).length ≤ T.usizeMax := by
                rw [List.length_drop]
                omega
              rw [if_pos hle, if_pos ⟨hle, hlen⟩, Option.bind_eq_bind, Option.bind_some,
                if_pos hlen, Target.add_eq (by omega), Option.bind_eq_bind, Option.bind_some,
                ih hnext, Option.map_eq_bind]
              rfl
            · rw [if_pos hle, if_neg (fun hboth => hlen hboth.2), Option.bind_eq_bind,
                Option.bind_some, if_neg hlen]
          · rw [if_neg hle, if_neg (fun hboth => hle hboth.1)]
            rfl

/-! ### The turns -/

/-- A thread that spills no key keeps the length of its slice, and takes the same steps. -/
theorem workerStep_agree (h : Room T W n) (seed : U64) :
  Agree (RangeWorker.step (BitVec.ofNat 64 (n - W + 1)) seed)
    (workerStep T (BitVec.ofNat 64 (n - W + 1)) seed)
    (fun w => w.slice.length + W ≤ T.usizeMax
      ∧ w.Contained (BitVec.ofNat 64 (n - W + 1)) seed)
  := by
  rintro w ⟨hw, hcontained⟩
  change w.slice.length + 64 ≤ T.usizeMax at hw
  constructor
  · have hactive := hcontained.active
    obtain ⟨slice, base, pending, active, spilled⟩ := w
    rw [workerStep, RangeWorker.step]
    cases active with
    | none =>
        cases pending with
        | nil => rfl
        | cons k pending =>
            dsimp only
            rw [start_eq, Option.bind_eq_bind, Option.bind_some, h.cast_start, checkedSub]
            split
            · rfl
            · rfl
    | some a =>
        obtain ⟨k, i, cr⟩ := a
        dsimp only at hw hactive ⊢
        have hin := (hactive k i cr rfl).slot_lt
        rw [if_neg (not_le.mpr hin), if_neg (not_le.mpr hin)]
        apply Option.bind_congr
        intro crAtI _
        split
        · rfl
        · split
          · rfl
          · rename_i hrest
            obtain ⟨hle, hshift⟩ := wordShr_ctz hrest
            rw [Target.add_eq (by omega), Option.bind_eq_bind, Option.bind_some, hshift]
            rfl
  · intro w' hstep
    refine ⟨?_, hcontained.step hstep⟩
    rcases RangeWorker.step_cases hstep with rfl | ⟨k, pending, -, -, -, rfl⟩
      | ⟨k, i, cr, -, ⟨-, rfl⟩ | ⟨-, rfl⟩ | rfl | ⟨crAtI, -, -, -, rfl⟩⟩
    · apply hw
    · apply hw
    · apply hw
    · dsimp only
      rw [List.length_set]
      apply hw
    · apply hw
    · apply hw

/-- The threads of slices of a matrix that spill no key return the same. -/
theorem scope_eq (h : Room T W n) (seed : U64) (schedule : List ℕ) {workers : List RangeWorker}
    (hworkers : ∀ w ∈ workers, w.slice.length ≤ n
      ∧ w.Contained (BitVec.ofNat 64 (n - W + 1)) seed) :
  scope T (BitVec.ofNat 64 (n - W + 1)) seed schedule workers
    = RangeWorker.scope (BitVec.ofNat 64 (n - W + 1)) seed schedule workers
  := by
  apply (workerStep_agree h seed).scope_eq
  intro w hw
  have hroom := h.le_usizeMax
  obtain ⟨hlen, hcontained⟩ := hworkers w hw
  exact ⟨by omega, hcontained⟩

theorem workerStep128_agree (h : Room T W128 n) (raw : U64) :
  Agree (RangeWorker128.step (BitVec.ofNat 64 (n - W128 + 1)) raw)
    (workerStep128 T (BitVec.ofNat 64 (n - W128 + 1)) raw)
    (fun w => w.coeff.length + W128 ≤ T.usizeMax
      ∧ w.Contained (BitVec.ofNat 64 (n - W128 + 1)) raw)
  := by
  rintro w ⟨hw, hcontained⟩
  change w.coeff.length + 128 ≤ T.usizeMax at hw
  constructor
  · have hactive := hcontained.active
    obtain ⟨coeff, result, base, pending, active, spilled, failed⟩ := w
    rw [workerStep128, RangeWorker128.step]
    cases failed with
    | true => rw [if_pos rfl, if_pos rfl]
    | false =>
        rw [if_neg Bool.false_ne_true, if_neg Bool.false_ne_true]
        cases active with
        | none =>
            cases pending with
            | nil => rfl
            | cons k pending =>
                dsimp only
                rw [start_eq, Option.bind_eq_bind, Option.bind_some, h.cast_start, checkedSub]
                split
                · rfl
                · rfl
        | some a =>
            obtain ⟨k, i, cr, rr⟩ := a
            dsimp only at hw hactive ⊢
            have hin := (hactive k i cr rr rfl).slot_lt
            rw [if_neg (not_le.mpr hin), if_neg (not_le.mpr hin)]
            apply Option.bind_congr
            intro crAtI _
            apply Option.bind_congr
            intro rrAtI _
            split
            · rfl
            · split
              · rfl
              · rename_i hrest
                obtain ⟨hle, hshift⟩ := wordShr_ctz hrest
                rw [Target.add_eq (by omega), Option.bind_eq_bind, Option.bind_some, hshift]
                rfl
  · intro w' hstep
    refine ⟨?_, hcontained.step hstep⟩
    rcases RangeWorker128.step_cases hcontained.within hstep with rfl | rfl
      | ⟨k, pending, -, -, -, rfl⟩
      | ⟨k, i, cr, rr, -, ⟨-, rfl⟩ | ⟨-, rfl⟩ | rfl | ⟨crAtI, rrAtI, -, -, -, rfl⟩⟩
    · apply hw
    · apply hw
    · apply hw
    · apply hw
    · dsimp only
      rw [List.length_set]
      apply hw
    · apply hw
    · apply hw

theorem scope128_eq (h : Room T W128 n) (raw : U64) (schedule : List ℕ)
    {workers : List RangeWorker128}
    (hworkers : ∀ w ∈ workers, w.coeff.length ≤ n
      ∧ w.Contained (BitVec.ofNat 64 (n - W128 + 1)) raw) :
  scope128 T (BitVec.ofNat 64 (n - W128 + 1)) raw schedule workers
    = RangeWorker128.scope (BitVec.ofNat 64 (n - W128 + 1)) raw schedule workers
  := by
  apply (workerStep128_agree h raw).scope_eq
  intro w hw
  have hroom := h.le_usizeMax
  obtain ⟨hlen, hcontained⟩ := hworkers w hw
  exact ⟨by omega, hcontained⟩

end Pleat.Checked
