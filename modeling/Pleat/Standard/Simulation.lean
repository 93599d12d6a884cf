import Pleat.Data.Deferral
import Pleat.Elimination
import Pleat.Standard.Worker

/-!
# Standard range workers simulate insertions

As in the homogeneous build, but a key can also be inconsistent with the rows it meets.  The
worker then fails, with its slices as they were before the key; and the insertion of the key
into the whole matrix is rejected, which leaves the matrix as it was.
-/

namespace Pleat

open Bits Interleaving StateTransition

/-- Inserting the key would step to a slot at or past `bound`. -/
def Banding128.StepsPast {R : ℕ} (bound : ℕ) (b : Banding128 R) (key : U64) : Prop :=
  let h := ribbonHash key (b.rawSeed.setWidth 64)
  ∃ slots, Visits b.coeffRows (start h b.numStarts).toNat (coeffRow128 h) slots
    ∧ ∃ i ∈ slots, bound ≤ i

/-- What a worker returns: none for a failure, otherwise the keys spilled. -/
def RangeWorker128.returned (w : RangeWorker128) : Option (List U64) :=
  if w.failed then none else some w.spilled

/-- Band keys into the slices of the slots from `base` on, and return them with what the worker
returns, which runs alone until then. -/
def bandRange128 (coeff : List U128) (result : List U32) (base : ℕ) (numStarts raw : U64)
    (keys : List U64) : Option (List U128 × List U32 × Option (List U64)) := do
  let w ← join (RangeWorker128.step numStarts raw) RangeWorker128.halted RangeWorker128.fuel
    (some (RangeWorker128.spawn coeff result base keys))
  some (w.coeff, w.result, w.returned)

namespace RangeWorker128

variable {cpre cpost : List U128} {rpre rpost : List U32}
  {w : RangeWorker128}

/-- The worker takes the key in hand through the slots that an insertion into the whole matrix
visits.  Either one of them is past the slices, and the worker spills the key, or none is, and
it leaves in the slices what the insertion leaves in the matrix, and fails if the insertion is
rejected. -/
theorem reaches_of_visits (numStarts raw k : U64) {j : ℕ} {cr : U128} {slots : List ℕ}
    (hvisits : Visits (cpre ++ w.coeff ++ cpost) j cr slots) (hbefore : rpre.length = cpre.length)
    (hwithin : w.result.length = w.coeff.length) (hrun : w.failed = false) {i : ℕ} (rr : U32)
    (hj : j = cpre.length + i) :
  ((∃ s ∈ slots, cpre.length + w.coeff.length ≤ s)
    ∧ Reaches (step numStarts raw) { w with active := some (k, i, cr, rr) }
        { w with active := none, spilled := w.spilled ++ [k] })
  ∨ ((∀ s ∈ slots, s < cpre.length + w.coeff.length)
    ∧ ∃ coeff result ok active, coeff.length = w.coeff.length ∧ result.length = w.result.length
      ∧ (∀ fuel, slots.length ≤ fuel →
          Banding128.addLoop (cpre ++ w.coeff ++ cpost) (rpre ++ w.result ++ rpost) fuel j cr rr
            = some (cpre ++ coeff ++ cpost, rpre ++ result ++ rpost, ok))
      ∧ Reaches (step numStarts raw) { w with active := some (k, i, cr, rr) }
          { w with coeff, result, active, failed := !ok }
      ∧ (ok = true → active = none)
      ∧ (ok = false → coeff = w.coeff ∧ result = w.result))
  := by
  have hread' : ∀ {i : ℕ} (hi : i < w.coeff.length), ∃ rrAtI, w.result[i]? = some rrAtI
      ∧ (rpre ++ w.result ++ rpost)[cpre.length + i]? = some rrAtI := by
    intro i hi
    rw [← hwithin] at hi
    have hbetween := getElem?_between rpre rpost hi
    rw [hbefore] at hbetween
    exact ⟨_, List.getElem?_eq_getElem hi, hbetween⟩
  -- A turn of the loop is a step of the worker; the slot is compared with the end of the range
  -- before anything is written.
  induction hvisits generalizing i rr with
  | @placed j cr hread =>
      obtain rfl := hj
      by_cases hout : w.coeff.length ≤ i
      · left
        exact ⟨⟨_, List.mem_singleton_self _, by omega⟩, .single (step_spill hrun rfl hout)⟩
      · have hi : i < w.coeff.length := Nat.not_le.mp hout
        have hslot := getElem?_of_between hi hread
        obtain ⟨rrAtI, hresult, hresult'⟩ := hread' hi
        right
        refine ⟨?_, w.coeff.set i cr, w.result.set i rr, true, none, List.length_set,
          List.length_set, ?_, ?_, fun _ => rfl, fun hfalse => Bool.noConfusion hfalse⟩
        · rw [List.forall_mem_singleton]
          omega
        · intro fuel hfuel
          obtain ⟨fuel, rfl⟩ := Nat.exists_eq_add_of_le' hfuel
          rw [set_between cpre cpost hi, set_between rpre rpost (hwithin ▸ hi), hbefore]
          apply Banding128.addLoop_placed hread hresult'
        · rw [Bool.not_true, ← hrun]
          exact .single (step_place hrun rfl hslot hresult)
  | @vanished j cr crAtI hread hne hzero =>
      obtain rfl := hj
      by_cases hout : w.coeff.length ≤ i
      · left
        exact ⟨⟨_, List.mem_singleton_self _, by omega⟩, .single (step_spill hrun rfl hout)⟩
      · have hi : i < w.coeff.length := Nat.not_le.mp hout
        have hslot := getElem?_of_between hi hread
        obtain ⟨rrAtI, hresult, hresult'⟩ := hread' hi
        have hloop : ∀ fuel, [cpre.length + i].length ≤ fuel →
            Banding128.addLoop (cpre ++ w.coeff ++ cpost) (rpre ++ w.result ++ rpost) fuel
                (cpre.length + i) cr rr
              = some (cpre ++ w.coeff ++ cpost, rpre ++ w.result ++ rpost, rr ^^^ rrAtI == 0) := by
          intro fuel hfuel
          obtain ⟨fuel, rfl⟩ := Nat.exists_eq_add_of_le' hfuel
          apply Banding128.addLoop_vanished hread hresult' hne hzero
        right
        refine ⟨?_, w.coeff, w.result, rr ^^^ rrAtI == 0, ?_⟩
        · rw [List.forall_mem_singleton]
          omega
        · by_cases hrr : rr ^^^ rrAtI = 0
          · rw [beq_iff_eq.mpr hrr] at hloop ⊢
            refine ⟨none, rfl, rfl, hloop, ?_, fun _ => rfl, fun _ => ⟨rfl, rfl⟩⟩
            rw [Bool.not_true, ← hrun]
            exact .single (step_vanish hrun rfl hslot hresult hne hzero hrr)
          · rw [beq_eq_false_iff_ne.mpr hrr] at hloop ⊢
            refine ⟨some (k, i, cr, rr), rfl, rfl, hloop, ?_, fun hfalse => Bool.noConfusion hfalse,
              fun _ => ⟨rfl, rfl⟩⟩
            exact .single (step_fail hrun rfl hslot hresult hne hzero hrr)
  | @advanced j cr crAtI slots hread hne hrest _ ih =>
      obtain rfl := hj
      by_cases hout : w.coeff.length ≤ i
      · left
        exact ⟨⟨_, List.mem_cons_self .., by omega⟩, .single (step_spill hrun rfl hout)⟩
      · have hi : i < w.coeff.length := Nat.not_le.mp hout
        have hslot := getElem?_of_between hi hread
        obtain ⟨rrAtI, hresult, hresult'⟩ := hread' hi
        have hmove : Reaches (step numStarts raw) { w with active := some (k, i, cr, rr) } _ :=
          .single (step_move hrun rfl hslot hresult hne hrest)
        rcases ih (rr ^^^ rrAtI) (Nat.add_assoc ..) with
          ⟨⟨s, hs, hpast⟩, hreach⟩
            | ⟨hbelow, coeff, result, ok, active, hc, hr, hloop, hreach, hends⟩
        · left
          exact ⟨⟨s, List.mem_cons_of_mem _ hs, hpast⟩, hmove.trans hreach⟩
        · right
          refine ⟨?_, coeff, result, ok, active, hc, hr, ?_, hmove.trans hreach, hends⟩
          · rw [List.forall_mem_cons]
            use by omega
          · intro fuel hfuel
            obtain ⟨fuel, rfl⟩ := Nat.exists_eq_add_of_le' hfuel
            rw [List.length_cons, ← Nat.add_assoc,
              Banding128.addLoop_advanced hread hresult' hne hrest]
            apply hloop _ (by omega)

/-- A worker on slices of a reachable matrix runs until it has returned, and defers the keys
whose insertion would step past the slices; the others it inserts, until one is rejected. -/
theorem exists_run {R n : ℕ} {b : Banding128 R} (hb : Banding128.Reachable R n b)
    (hcoeffs : b.coeffRows = cpre ++ w.coeff ++ cpost)
    (hresults : b.resultRows = rpre ++ w.result ++ rpost) (hbefore : rpre.length = cpre.length)
    (hwithin : w.result.length = w.coeff.length) (hbase : w.base = cpre.length)
    (hrun : w.failed = false) (hactive : w.active = none)
    (hstart : ∀ k ∈ w.pending,
      w.base ≤ (start (ribbonHash k (b.rawSeed.setWidth 64)) b.numStarts).toNat) :
  ∃ w' kept result, Reaches (step b.numStarts (b.rawSeed.setWidth 64)) w w' ∧ w'.halted = true
    ∧ w'.coeff.length = w.coeff.length ∧ w'.result.length = w.result.length
    ∧ w'.returned = result.map (w.spilled ++ ·)
    ∧ Deferral.Run (Banding128.StepsPast (cpre.length + w.coeff.length)) Banding128.add b w.pending
        kept result
        { b with
          coeffRows := cpre ++ w'.coeff ++ cpost
          resultRows := rpre ++ w'.result ++ rpost }
  := by
  -- Between two keys the rows around the worker's own are those of the matrix so far.
  induction hpending : w.pending generalizing w b with
  | nil =>
      refine ⟨w, [], some [], .refl, ?_, rfl, rfl, ?_, ?_⟩
      · rw [halted, hpending, hactive, hrun]
        rfl
      · rw [returned, hrun, if_neg Bool.false_ne_true, Option.map_some, List.append_nil]
      · rw [← hcoeffs, ← hresults]
        apply Deferral.Run.nil
  | cons k pending ih =>
      rw [hpending] at hstart
      have hk := hstart k (List.mem_cons_self ..)
      have htake : Reaches (step b.numStarts (b.rawSeed.setWidth 64)) w _ :=
        .single (step_take hrun hactive hpending hk)
      have hrest : ∀ x ∈ pending,
          w.base ≤ (start (ribbonHash x (b.rawSeed.setWidth 64)) b.numStarts).toNat :=
        fun x hx => hstart x (List.mem_cons_of_mem k hx)
      have hsound := hb.sound
      obtain ⟨slots, hvisits, -, -, hcount⟩ := hsound.exists_walk k
      have hslot : (start (ribbonHash k (b.rawSeed.setWidth 64)) b.numStarts).toNat
          = cpre.length
            + ((start (ribbonHash k (b.rawSeed.setWidth 64)) b.numStarts).toNat - w.base) := by
        rw [← hbase, Nat.add_sub_cancel' hk]
      have hmatrix := hvisits
      rw [hcoeffs] at hmatrix
      rcases reaches_of_visits b.numStarts (b.rawSeed.setWidth 64) k (w := { w with pending })
          hmatrix hbefore hwithin hrun (resultRow (ribbonHash k (b.rawSeed.setWidth 64))) hslot with
        ⟨hpast, hreach⟩ | ⟨hbelow, coeff, result, ok, active, hc, hr, hloop, hreach, hok, hfail⟩
      · obtain ⟨w', kept, res, hreach', hhalt, hc', hr', hreturned, hrun'⟩ :=
          ih (w := { w with pending, active := none, spilled := w.spilled ++ [k] }) hb hcoeffs
            hresults hwithin hbase hrun rfl hrest rfl
        refine ⟨w', kept, res.map (k :: ·), htake.trans (hreach.trans hreach'), hhalt, hc', hr', ?_,
          .deferred ⟨slots, hvisits, hpast⟩ hrun'⟩
        rw [hreturned, Option.map_map]
        congr 1
        funext spilled
        rw [Function.comp_apply, ← List.append_cons]
      · have hadd : b.add k = some ({ b with
            coeffRows := cpre ++ coeff ++ cpost
            resultRows := rpre ++ result ++ rpost }, ok) := by
          rw [Banding128.add, Banding128.numSlots, hsound.shape.coeffs, hcoeffs, hresults,
            hloop n hcount]
          rfl
        have hnot : ¬ Banding128.StepsPast (cpre.length + w.coeff.length) b k := by
          rintro ⟨slots', hvisits', i, hi, hpast⟩
          rw [hvisits.unique hvisits'] at hbelow
          exact absurd (hbelow i hi) (Nat.not_lt.mpr hpast)
        cases ok with
        | true =>
            obtain rfl := hok rfl
            obtain ⟨w', kept, res, hreach', hhalt, hc', hr', hreturned, hrun'⟩ :=
              ih (w := { w with coeff, result, pending, active := none, failed := false })
                (hb.add hadd) rfl rfl (by rw [hc, hr, hwithin]) hbase rfl rfl hrest rfl
            rw [hc] at hc' hrun'
            exact ⟨w', k :: kept, res, htake.trans (hreach.trans hreach'), hhalt, hc', hr'.trans hr,
              hreturned, .inserted hnot hadd hrun'⟩
        | false =>
            obtain ⟨rfl, rfl⟩ := hfail rfl
            refine ⟨_, [], none, htake.trans hreach, rfl, rfl, rfl, rfl, ?_⟩
            dsimp only
            rw [← hcoeffs, ← hresults]
            exact .failed hnot hadd

end RangeWorker128

/-- The keys that a run has inserted can be inserted without the others, and none is rejected. -/
theorem Banding128.addEach_of_run {R : ℕ} {defers : Banding128 R → U64 → Prop}
    {b b' : Banding128 R} {keys kept : List U64} {result : Option (List U64)}
    (h : Deferral.Run defers Banding128.add b keys kept result b') :
  b.addEach kept = some (b', true)
  := by
  induction h with
  | nil => rfl
  | deferred _ _ ih => exact ih
  | inserted _ hinsert _ ih =>
      rw [Banding128.addEach, hinsert]
      apply ih
  | failed => rfl

/-- A worker on a range of a reachable matrix leaves in its slices what the insertion of the keys
that it does not spill leaves in the matrix, and spills the keys whose insertion would step
past the range; it returns none at the first key that is rejected.  Its keys start in the
range or after it. -/
theorem Banding128.Reachable.exists_bandRange128 {R n : ℕ} {b : Banding128 R}
    (hb : Banding128.Reachable R n b) {base len : ℕ} (hrange : base + len ≤ n) {keys : List U64}
    (hkeys : ∀ k ∈ keys,
      base ≤ (start (ribbonHash k (b.rawSeed.setWidth 64)) b.numStarts).toNat) :
  ∃ coeff result returned kept,
    bandRange128 ((b.coeffRows.drop base).take len) ((b.resultRows.drop base).take len) base
        b.numStarts (b.rawSeed.setWidth 64) keys = some (coeff, result, returned)
      ∧ coeff.length = len ∧ result.length = len
      ∧ Deferral.Run (Banding128.StepsPast (base + len)) Banding128.add b keys kept returned
          { b with
            coeffRows := splice b.coeffRows base coeff
            resultRows := splice b.resultRows base result }
  := by
  have hshape := hb.sound.shape
  obtain ⟨hcpre, hclen⟩ := length_slice (hshape.coeffs.symm ▸ hrange)
  obtain ⟨hrpre, hrlen⟩ := length_slice (hshape.results.symm ▸ hrange)
  have hcoeffs := take_append_slice b.coeffRows base len
  have hresults := take_append_slice b.resultRows base len
  obtain ⟨w, kept, returned, hreach, hhalt, hc, hr, hreturned, hrun⟩ :=
    RangeWorker128.exists_run
      (w := RangeWorker128.spawn ((b.coeffRows.drop base).take len)
        ((b.resultRows.drop base).take len) base keys)
      hb hcoeffs.symm hresults.symm (hrpre.trans hcpre.symm) (hrlen.trans hclen.symm) hcpre.symm
      rfl rfl hkeys
  obtain ⟨ordinal, held, hheld⟩ := hb.exists_holds
  have hholds : (RangeWorker128.matrix R n ordinal (b.coeffRows.take base
      ++ (b.coeffRows.drop base).take len ++ b.coeffRows.drop (base + len))
      (b.resultRows.take base ++ (b.resultRows.drop base).take len
        ++ b.resultRows.drop (base + len))).Holds n ordinal held := by
    have hmatrix : RangeWorker128.matrix R n ordinal b.coeffRows b.resultRows = b := by
      rw [RangeWorker128.matrix, ← hheld.shape.starts, ← hheld.rawSeed, ← hheld.ordinalSeed]
    rw [hcoeffs, hresults, hmatrix]
    apply hheld
  rw [hheld.rawSeed, hheld.shape.starts] at hkeys hreach
  have hspawn := RangeWorker128.Invariant.spawn hcpre.symm (hrpre.trans hcpre.symm)
    (hrlen.trans hclen.symm) hholds hkeys
  have hjoin := (RangeWorker128.terminates R n ordinal _ _ _ _ held keys).join_of_reaches
    RangeWorker128.measure_le_fuel ⟨⟨[], hspawn⟩, fun _ => rfl⟩ hreach hhalt
  have hc' : w.coeff.length = len := hc.trans hclen
  have hr' : w.result.length = len := hr.trans hrlen
  refine ⟨w.coeff, w.result, returned, kept, ?_, hc', hr', ?_⟩
  · have hspilled : w.returned = returned := hreturned.trans Option.map_id'
    rw [bandRange128, hheld.rawSeed, hheld.shape.starts, hjoin, ← hspilled]
    rfl
  · rw [splice, splice, hc', hr']
    rw [hcpre] at hrun
    simpa only [RangeWorker128.spawn, hclen] using hrun

namespace RangeWorker128

variable {cslices : List (ℕ × List U128)} {rslices : List (ℕ × List U32)}
  {buckets : List (List U64)}

theorem eq_spawn_of_mem_spawnAll {w : RangeWorker128} (hw : w ∈ spawnAll cslices rslices buckets) :
  w = spawn w.coeff w.result w.base w.pending
  := by
  fun_induction spawnAll cslices rslices buckets with
  | case1 c cslices r rslices bucket buckets ih =>
      rcases List.mem_cons.mp hw with rfl | hw
      · rfl
      · apply ih hw
  | case2 => cases hw

/-- In whatever order the workers of a build take their steps, each returns what it returns when
it bands its slices alone. -/
theorem map_scope_spawnAll {R n : ℕ} {ordinal : U32} {held : Set U64}
    (hbuckets : List.Forall₂ (fun s bucket => ∀ k ∈ bucket,
      s.1 ≤ (startSlot n ordinal k).toNat) cslices buckets)
    (hslices : List.Forall₂ (fun c r => r.2.length = c.2.length) cslices rslices)
    (hcontig : Contiguous 0 cslices)
    (hholds : (matrix R n ordinal (cslices.map Prod.snd).flatten
      (rslices.map Prod.snd).flatten).Holds n ordinal held)
    (schedule : List ℕ) :
  let numStarts := BitVec.ofNat 64 (n - W128 + 1)
  let raw := (ordinalToRawSeed ordinal).setWidth 64
  (scope numStarts raw schedule (spawnAll cslices rslices buckets)).map
      (List.map fun w => (w.coeff, w.result, w.returned))
    = ((spawnAll cslices rslices buckets).map fun w =>
        bandRange128 w.coeff w.result w.base numStarts raw w.pending).mapM id
  := by
  intro numStarts raw
  have hsound := sound_spawnAll [] [] hbuckets hslices hcontig rfl hholds
  rw [scope, (terminates_sound R n ordinal held).map_scope_eq measure_le_fuel schedule hsound]
  congr 1
  apply List.map_congr_left
  intro w hw
  rw [bandRange128, ← eq_spawn_of_mem_spawnAll hw]
  cases join (step numStarts raw) halted fuel (some w) with
  | none => rfl
  | some _ => rfl

end RangeWorker128

end Pleat
