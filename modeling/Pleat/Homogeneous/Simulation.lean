import Pleat.Data.Deferral
import Pleat.Elimination
import Pleat.Homogeneous.Worker

/-!
# Homogeneous range workers simulate insertions

A worker has a copy of the loop of an insertion, with slots local to its range and an exit
at the end of the range.  For each key it walks the slots that an insertion into the whole
matrix would visit.  If they all are in its range it leaves in the slice what the insertion
leaves in the matrix; if not it has written nothing when it reaches the end of the range,
and spills the key.
-/

namespace Pleat

open Bits Interleaving StateTransition

/-- Inserting the key would step to a slot at or past `bound`. -/
def Banding.StepsPast {R : ℕ} (bound : ℕ) (b : Banding R) (key : U64) : Prop :=
  let h := ribbonHash key b.rawSeed
  ∃ slots, Visits b.coeffRows (start h b.numStarts).toNat (coeffRow h) slots
    ∧ ∃ i ∈ slots, bound ≤ i

/-- Band keys into the slice of the slots from `base` on, and return the keys spilled: a worker
that runs alone until it has returned. -/
def bandSlice (slice : List U64) (base : ℕ) (numStarts seed : U64) (keys : List U64) :
    Option (List U64 × List U64) := do
  let w ← join (RangeWorker.step numStarts seed) RangeWorker.halted RangeWorker.fuel
    (some (RangeWorker.spawn slice base keys))
  some (w.slice, w.spilled)

namespace RangeWorker

variable {pre post : List U64} {w : RangeWorker}

/-- The worker takes the key in hand through the slots that an insertion into the whole matrix
visits.  Either one of them is past the slice, and the worker spills the key, or none is, and
it leaves in the slice what the insertion leaves in the matrix. -/
theorem reaches_of_visits (numStarts seed k : U64) {j : ℕ} {cr : U64} {slots : List ℕ}
    (hvisits : Visits (pre ++ w.slice ++ post) j cr slots) {i : ℕ} (hj : j = pre.length + i) :
  ((∃ s ∈ slots, pre.length + w.slice.length ≤ s)
    ∧ Reaches (step numStarts seed) { w with active := some (k, i, cr) }
        { w with active := none, spilled := w.spilled ++ [k] })
  ∨ ((∀ s ∈ slots, s < pre.length + w.slice.length)
    ∧ ∃ slice, slice.length = w.slice.length
      ∧ (∀ fuel, slots.length ≤ fuel →
          Banding.addLoop (pre ++ w.slice ++ post) fuel j cr = some (pre ++ slice ++ post, true))
      ∧ Reaches (step numStarts seed) { w with active := some (k, i, cr) }
          { w with slice, active := none })
  := by
  -- A turn of the loop is a step of the worker; the slot is compared with the end of the range
  -- before anything is written.
  induction hvisits generalizing i with
  | @placed j cr hread =>
      obtain rfl := hj
      by_cases hout : w.slice.length ≤ i
      · left
        exact ⟨⟨_, List.mem_singleton_self _, by omega⟩, .single (step_spill rfl hout)⟩
      · have hi : i < w.slice.length := Nat.not_le.mp hout
        have hslot := getElem?_of_between hi hread
        right
        refine ⟨?_, w.slice.set i cr, List.length_set, ?_, .single (step_place rfl hslot)⟩
        · rw [List.forall_mem_singleton]
          omega
        · intro fuel hfuel
          obtain ⟨fuel, rfl⟩ := Nat.exists_eq_add_of_le' hfuel
          rw [set_between pre post hi]
          apply Banding.addLoop_placed hread
  | @vanished j cr crAtI hread hne hzero =>
      obtain rfl := hj
      by_cases hout : w.slice.length ≤ i
      · left
        exact ⟨⟨_, List.mem_singleton_self _, by omega⟩, .single (step_spill rfl hout)⟩
      · have hi : i < w.slice.length := Nat.not_le.mp hout
        have hslot := getElem?_of_between hi hread
        right
        refine ⟨?_, w.slice, rfl, ?_, .single (step_vanish rfl hslot hne hzero)⟩
        · rw [List.forall_mem_singleton]
          omega
        · intro fuel hfuel
          obtain ⟨fuel, rfl⟩ := Nat.exists_eq_add_of_le' hfuel
          apply Banding.addLoop_vanished hread hne hzero
  | @advanced j cr crAtI slots hread hne hrest _ ih =>
      obtain rfl := hj
      by_cases hout : w.slice.length ≤ i
      · left
        exact ⟨⟨_, List.mem_cons_self .., by omega⟩, .single (step_spill rfl hout)⟩
      · have hi : i < w.slice.length := Nat.not_le.mp hout
        have hslot := getElem?_of_between hi hread
        have hmove : Reaches (step numStarts seed) { w with active := some (k, i, cr) } _ :=
          .single (step_move rfl hslot hne hrest)
        rcases ih (Nat.add_assoc ..) with
          ⟨⟨s, hs, hpast⟩, hreach⟩ | ⟨hbelow, slice, hlen, hloop, hreach⟩
        · left
          exact ⟨⟨s, List.mem_cons_of_mem _ hs, hpast⟩, hmove.trans hreach⟩
        · right
          refine ⟨?_, slice, hlen, ?_, hmove.trans hreach⟩
          · rw [List.forall_mem_cons]
            use by omega
          · intro fuel hfuel
            obtain ⟨fuel, rfl⟩ := Nat.exists_eq_add_of_le' hfuel
            rw [List.length_cons, ← Nat.add_assoc, Banding.addLoop_advanced hread hne hrest]
            apply hloop _ (by omega)

/-- A worker on a slice of a reachable matrix runs until it has returned, and defers the keys
whose insertion would step past the slice; the others it inserts. -/
theorem exists_run {R n : ℕ} {seed : U64} {held : List U64} {b : Banding R}
    (hb : Banding.Reachable R n seed held b) (hrows : b.coeffRows = pre ++ w.slice ++ post)
    (hbase : w.base = pre.length) (hactive : w.active = none)
    (hstart : ∀ k ∈ w.pending, w.base ≤ (start (ribbonHash k b.rawSeed) b.numStarts).toNat) :
  ∃ slice kept spilled, slice.length = w.slice.length
    ∧ Deferral.Run (Banding.StepsPast (pre.length + w.slice.length)) Banding.add b w.pending kept
        (some spilled) { b with coeffRows := pre ++ slice ++ post }
    ∧ Reaches (step b.numStarts b.rawSeed) w
        { w with slice, pending := [], active := none, spilled := w.spilled ++ spilled }
  := by
  -- Between two keys the rows around the worker's own are those of the matrix so far.
  induction hpending : w.pending generalizing w b held with
  | nil =>
      refine ⟨w.slice, [], [], rfl, ?_, ?_⟩
      · rw [← hrows]
        apply Deferral.Run.nil
      · rw [List.append_nil, ← hpending, ← hactive]
        apply Relation.ReflTransGen.refl
  | cons k pending ih =>
      rw [hpending] at hstart
      have htake : Reaches (step b.numStarts b.rawSeed) w _ :=
        .single (step_take hactive hpending (hstart k (List.mem_cons_self ..)))
      have hrest : ∀ x ∈ pending, w.base ≤ (start (ribbonHash x b.rawSeed) b.numStarts).toNat :=
        fun x hx => hstart x (List.mem_cons_of_mem k hx)
      have hwf := hb.holds.wellFormed
      obtain ⟨slots, hvisits, -, -, hcount⟩ :=
        (inReach_of_wellFormed hwf.table).exists_walk (hwf.within_start k)
      have hslot : (start (ribbonHash k b.rawSeed) b.numStarts).toNat
          = pre.length + ((start (ribbonHash k b.rawSeed) b.numStarts).toNat - w.base) := by
        rw [← hbase, Nat.add_sub_cancel' (hstart k (List.mem_cons_self ..))]
      have hmatrix := hvisits
      rw [hrows] at hmatrix
      rcases reaches_of_visits b.numStarts b.rawSeed k (w := { w with pending }) hmatrix hslot with
        ⟨hpast, hreach⟩ | ⟨hbelow, slice, hlen, hloop, hreach⟩
      · obtain ⟨slice, kept, spilled, hlen, hrun, hreach'⟩ :=
          ih (w := { w with pending, active := none, spilled := w.spilled ++ [k] }) hb hrows hbase
            rfl hrest rfl
        refine ⟨slice, kept, k :: spilled, hlen, .deferred ⟨slots, hvisits, hpast⟩ hrun, ?_⟩
        rw [List.append_cons]
        exact htake.trans (hreach.trans hreach')
      · have hadd : b.add k = some ({ b with coeffRows := pre ++ slice ++ post }, true) := by
          rw [Banding.add, Banding.numSlots, hrows, hloop _ (hrows ▸ hcount)]
          rfl
        have hnot : ¬ Banding.StepsPast (pre.length + w.slice.length) b k := by
          rintro ⟨slots', hvisits', i, hi, hpast⟩
          rw [hvisits.unique hvisits'] at hbelow
          exact absurd (hbelow i hi) (Nat.not_lt.mpr hpast)
        obtain ⟨slice', kept, spilled, hlen', hrun, hreach'⟩ :=
          ih (w := { w with slice, pending, active := none }) (hb.add hadd) rfl hbase rfl hrest rfl
        rw [hlen] at hlen' hrun
        refine ⟨slice', k :: kept, spilled, hlen', .inserted hnot hadd hrun, ?_⟩
        exact htake.trans (hreach.trans hreach')

end RangeWorker

/-- The keys that a run has inserted can be inserted without the others. -/
theorem Banding.addAll_of_run {R : ℕ} {defers : Banding R → U64 → Prop} {b b' : Banding R}
    {keys kept : List U64} {result : Option (List U64)}
    (h : Deferral.Run defers Banding.add b keys kept result b') :
  b.addAll kept = some b'
  := by
  induction h with
  | nil => rfl
  | deferred _ _ ih => exact ih
  | inserted _ hinsert _ ih =>
      rw [Banding.addAll, hinsert]
      apply ih
  | failed => rfl

/-- A worker on a range of a reachable matrix leaves in its slice what the insertion of the keys
that it does not spill leaves in the matrix, and spills the keys whose insertion would step
past the range.  Its keys start in the range or after it. -/
theorem Banding.Reachable.exists_bandSlice {R n : ℕ} {seed : U64} {held : List U64} {b : Banding R}
    (hb : Banding.Reachable R n seed held b) {base len : ℕ} (hrange : base + len ≤ n)
    {keys : List U64}
    (hkeys : ∀ k ∈ keys, base ≤ (start (ribbonHash k b.rawSeed) b.numStarts).toNat) :
  ∃ slice spilled kept,
    bandSlice ((b.coeffRows.drop base).take len) base b.numStarts b.rawSeed keys
        = some (slice, spilled)
      ∧ slice.length = len
      ∧ Deferral.Run (Banding.StepsPast (base + len)) Banding.add b keys kept (some spilled)
          { b with coeffRows := splice b.coeffRows base slice }
  := by
  have hslots : b.coeffRows.length = n := hb.holds.slots
  obtain ⟨hpre, hlen⟩ := length_slice (hslots.symm ▸ hrange)
  have hrows := take_append_slice b.coeffRows base len
  obtain ⟨slice, kept, spilled, hslice, hrun, hreach⟩ :=
    RangeWorker.exists_run (w := RangeWorker.spawn ((b.coeffRows.drop base).take len) base keys) hb
      hrows.symm hpre.symm rfl hkeys
  obtain rfl := hb.holds.rawSeed
  have hholds : (RangeWorker.matrix R b.numStarts b.rawSeed (b.coeffRows.take base
      ++ (b.coeffRows.drop base).take len ++ b.coeffRows.drop (base + len))).Holds n b.rawSeed
      {k | k ∈ held} := by
    rw [hrows]
    apply hb.holds
  have hspawn := RangeWorker.Invariant.spawn hpre.symm hholds hkeys
  have hjoin := (RangeWorker.terminates R n b.numStarts b.rawSeed _ _ _ keys).join_of_reaches
    RangeWorker.measure_le_fuel ⟨⟨[], hspawn⟩, fun _ => rfl⟩ hreach rfl
  have hlen' : slice.length = len := hslice.trans hlen
  refine ⟨slice, spilled, kept, ?_, hlen', ?_⟩
  · rw [bandSlice, hjoin]
    rfl
  · rw [splice, hlen']
    rw [hpre] at hrun
    simpa only [RangeWorker.spawn, hlen] using hrun

/-- In whatever order the workers of a build take their steps, each returns what it returns when
it bands its slice alone. -/
theorem RangeWorker.map_scope_spawnAll {R n : ℕ} {numStarts seed : U64} {held : Set U64}
    {slices : List (ℕ × List U64)} {buckets : List (List U64)}
    (hbuckets : List.Forall₂ (fun s bucket => ∀ k ∈ bucket,
      s.1 ≤ (start (ribbonHash k seed) numStarts).toNat) slices buckets)
    (hcontig : Contiguous 0 slices)
    (hholds : (matrix R numStarts seed (slices.map Prod.snd).flatten).Holds n seed held)
    (schedule : List ℕ) :
  (scope numStarts seed schedule (spawnAll slices buckets)).map
      (List.map fun w => (w.slice, w.spilled))
    = (List.zipWith (fun s bucket => bandSlice s.2 s.1 numStarts seed bucket) slices
        buckets).mapM id
  := by
  have hsound := sound_spawnAll hbuckets [] hcontig hholds
  rw [scope, (terminates_sound R n numStarts seed held).map_scope_eq measure_le_fuel schedule
    hsound, spawnAll, List.map_zipWith]
  congr 2
  funext s bucket
  rw [bandSlice]
  cases join (step numStarts seed) halted fuel (some (spawn s.2 s.1 bucket)) with
  | none => rfl
  | some _ => rfl

end Pleat
