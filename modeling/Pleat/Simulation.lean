import Pleat.Homogeneous.Simulation
import Pleat.Standard.Simulation

/-!
# Range workers simulate insertions

In both families a worker on a range of slots of a reachable matrix does what insertions into
the whole matrix would do, on the slots of its range alone.
-/

namespace Pleat

/-- On every range of a reachable matrix of either family, with keys that start in it or after
it, a worker leaves in its slices what inserting in order the keys that it has not spilled
leaves in the matrix, which is otherwise as it was.  A key is spilled exactly when its insertion
at that moment would step past the range, and then nothing changes; and the standard worker
returns none exactly when an insertion that stays in the range would be rejected. -/
theorem range_worker_simulates (R n base len : ℕ) (hrange : base + len ≤ n) :
  (∀ (seed : U64) (held : List U64) (b : Banding R), Banding.Reachable R n seed held b →
    ∀ keys : List U64,
      (∀ k ∈ keys, base ≤ (start (ribbonHash k b.rawSeed) b.numStarts).toNat) →
      ∃ slice spilled kept,
        let b' : Banding R := { b with coeffRows := splice b.coeffRows base slice }
        bandSlice ((b.coeffRows.drop base).take len) base b.numStarts b.rawSeed keys
            = some (slice, spilled)
          ∧ slice.length = len
          ∧ Deferral.Run (Banding.StepsPast (base + len)) Banding.add b keys kept (some spilled) b'
          ∧ b.addAll kept = some b'
          ∧ kept.Sublist keys ∧ (kept ++ spilled).Perm keys)
  ∧ (∀ b : Banding128 R, Banding128.Reachable R n b →
    ∀ keys : List U64,
      (∀ k ∈ keys, base ≤ (start (ribbonHash k (b.rawSeed.setWidth 64)) b.numStarts).toNat) →
      ∃ coeff result returned kept,
        let b' : Banding128 R := { b with
          coeffRows := splice b.coeffRows base coeff
          resultRows := splice b.resultRows base result }
        bandRange128 ((b.coeffRows.drop base).take len) ((b.resultRows.drop base).take len) base
            b.numStarts (b.rawSeed.setWidth 64) keys = some (coeff, result, returned)
          ∧ coeff.length = len ∧ result.length = len
          ∧ Deferral.Run (Banding128.StepsPast (base + len)) Banding128.add b keys kept returned b'
          ∧ b.addEach kept = some (b', true)
          ∧ kept.Sublist keys
          ∧ (∀ spilled, returned = some spilled → (kept ++ spilled).Perm keys)
          ∧ (returned = none
            ↔ ∃ before k after kept' spilled b₁ b₂, keys = before ++ k :: after
                ∧ Deferral.Run (Banding128.StepsPast (base + len)) Banding128.add b before kept'
                    (some spilled) b₁
                ∧ ¬ Banding128.StepsPast (base + len) b₁ k ∧ b₁.add k = some (b₂, false)))
  := by
  constructor
  · intro seed held b hb keys hkeys
    obtain ⟨slice, spilled, kept, hband, hlen, hrun⟩ := hb.exists_bandSlice hrange hkeys
    exact ⟨slice, spilled, kept, hband, hlen, hrun, Banding.addAll_of_run hrun, hrun.sublist,
      hrun.perm⟩
  · intro b hb keys hkeys
    obtain ⟨coeff, result, returned, kept, hband, hc, hr, hrun⟩ :=
      hb.exists_bandRange128 hrange hkeys
    refine ⟨coeff, result, returned, kept, hband, hc, hr, hrun, Banding128.addEach_of_run hrun,
      hrun.sublist, ?_, hrun.eq_none_iff⟩
    rintro spilled rfl
    apply hrun.perm

/-- Matrices of 256 slots that hold a key of the range of the slots 64 to 127, and two keys that
start at the last slot of the range: the first is kept and the second is spilled. -/
theorem range_worker_simulates_last_slot :
  (∃ (b : Banding 3) (slice : List U64), Banding.Reachable 3 256 0 [219] b
    ∧ bandSlice ((b.coeffRows.drop 64).take 64) 64 b.numStarts b.rawSeed [287, 427]
        = some (slice, [427])
    ∧ slice.length = 64
    ∧ b.addAll [287] = some { b with coeffRows := splice b.coeffRows 64 slice })
  ∧ ∃ (b b₁ : Banding128 3) (coeff : List U128) (result : List U32), Banding128.Reachable 3 256 b
    ∧ b.addEach [23] = some (b₁, true)
    ∧ bandRange128 ((b₁.coeffRows.drop 64).take 64) ((b₁.resultRows.drop 64).take 64) 64
        b₁.numStarts (b₁.rawSeed.setWidth 64) [41, 338] = some (coeff, result, some [338])
    ∧ coeff.length = 64 ∧ result.length = 64
    ∧ b₁.addEach [41] = some ({ b₁ with
        coeffRows := splice b₁.coeffRows 64 coeff
        resultRows := splice b₁.resultRows 64 result }, true)
  := by
  obtain ⟨hhomog, hstd⟩ := range_worker_simulates 3 256 64 64 (by decide)
  have hkept : ∀ {kept : List U64} {k k' : U64}, (kept ++ [k']).Perm [k, k'] → kept = [k] := by
    intro kept k k' h
    apply List.perm_singleton.mp
    apply (List.perm_append_right_iff [k']).mp h
  constructor
  · obtain ⟨b, hnew, hb⟩ := Banding.exists_new 3 0 (show 256 % W = 0 by decide) (by decide)
    obtain ⟨b₁, hadd, hb₁⟩ := hb.add 219
    have hreach : Banding.Reachable 3 256 0 [219] b₁ := .add (.new hnew) hadd
    have hstart : ∀ k ∈ [287, 427], 64 ≤ (start (ribbonHash k b₁.rawSeed) b₁.numStarts).toNat := by
      rw [hb₁.rawSeed, hb₁.numStarts_eq]
      have hall : ([287, 427].all fun k =>
          64 ≤ (start (ribbonHash k 0) (BitVec.ofNat 64 (256 - W + 1))).toNat) = true := by
        decide
      exact fun k hk => of_decide_eq_true (List.all_eq_true.mp hall k hk)
    have hrun : ((Banding.new 3 256 0).bind fun b => (b.add 219).bind fun (b, _) =>
        (bandSlice ((b.coeffRows.drop 64).take 64) 64 b.numStarts b.rawSeed [287, 427]).map
          Prod.snd) = some [427] := by
      decide +kernel
    rw [hnew, Option.bind_some, hadd, Option.bind_some] at hrun
    obtain ⟨slice, spilled, kept, hband, hlen, -, hadd, -, hperm⟩ :=
      hhomog 0 [219] b₁ hreach [287, 427] hstart
    dsimp only at hrun
    rw [hband, Option.map_some, Option.some.injEq] at hrun
    obtain rfl := hrun
    obtain rfl := hkept hperm
    exact ⟨b₁, slice, hreach, hband, hlen, hadd⟩
  · have hrun : ((Banding128.new 3 256).bind fun b => ((b.reset 0).addEach [23]).bind fun (b, ok) =>
        (bandRange128 ((b.coeffRows.drop 64).take 64) ((b.resultRows.drop 64).take 64) 64
          b.numStarts (b.rawSeed.setWidth 64) [41, 338]).map fun result =>
          (ok, result.2.2)) = some (true, some [338]) := by
      decide +kernel
    have hstart : ((Banding128.new 3 256).bind fun b => ((b.reset 0).addEach [23]).map
        fun (b, _) => [41, 338].all fun k =>
          64 ≤ (start (ribbonHash k (b.rawSeed.setWidth 64)) b.numStarts).toNat) = some true := by
      decide +kernel
    obtain ⟨b, hnew, hrun⟩ := Option.bind_eq_some_iff.mp hrun
    obtain ⟨⟨b₁, ok⟩, hheld, hrun⟩ := Option.bind_eq_some_iff.mp hrun
    obtain ⟨⟨coeff, result, returned⟩, hband, hreturned⟩ := Option.map_eq_some_iff.mp hrun
    obtain ⟨rfl, rfl⟩ := Prod.mk.inj hreturned
    rw [hnew, Option.bind_some, hheld, Option.map_some, Option.some.injEq] at hstart
    have hb : Banding128.Reachable 3 256 (b.reset 0) := .reset (.new hnew) 0
    obtain ⟨coeff', result', returned', kept, hband', hc, hr, -, hadd, -, hperm, -⟩ :=
      hstd b₁ (hb.addEach hheld) [41, 338] (fun k hk =>
        of_decide_eq_true (List.all_eq_true.mp hstart k hk))
    rw [hband, Option.some.injEq, Prod.mk.injEq, Prod.mk.injEq] at hband'
    obtain ⟨rfl, rfl, rfl⟩ := hband'
    obtain rfl := hkept (hperm _ rfl)
    exact ⟨b.reset 0, b₁, coeff, result, hb, hheld, hband, hc, hr, hadd⟩

end Pleat
