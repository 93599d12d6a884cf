import Pleat.Assignment
import Pleat.Split

/-!
# The safety margin of the ranges

A key that starts within the margin `G` of the end of its range is deferred, unless the range
is the last one (`filter/parallel.rs`, `banding128.rs`).  The margin is wider than a row, and
no row reaches past the end of the matrix, so the row of every key of a bucket ends in the
range of the bucket.  A sum of two such rows does so too, and dropping zeros from its low end
does not move the other end.  So the reduction of a key never leaves the slice of its worker:
the builds provide for keys that are spilled, but no worker of a build spills one.
-/

namespace Pleat

open Bits Linear Interleaving

/-! ### Rows that end in a slice -/

section Rows

variable {w : ℕ} {rows : List (BitVec w)} {i : ℕ} {c : BitVec w}

theorem inReach_replicate (m : ℕ) :
  InReach (List.replicate m (0 : BitVec w))
  := by
  intro i c hc hne
  exact absurd (List.eq_of_mem_replicate (List.mem_of_getElem? hc)) hne

/-- Storing a row that ends in the slice. -/
theorem InReach.set (h : InReach rows) (hc : Within rows.length i c) :
  InReach (rows.set i c)
  := by
  intro k d hd hne
  rw [List.length_set]
  by_cases hki : k = i
  · subst hki
    rw [List.getElem?_set_self hc.slot_lt, Option.some.injEq] at hd
    rw [← hd]
    apply within_iff.mp hc
  · rw [List.getElem?_set_ne (Ne.symm hki)] at hd
    apply h k d hd hne

/-- A row with room for its whole width ends in the slice. -/
theorem within_of_room {len : ℕ} (hc : c.getLsbD 0 = true) (h : i + w ≤ len) :
  Within len i c
  := by
  use hc
  intro k hk
  have hkw : k < w := BitVec.lt_of_getLsbD hk
  omega

end Rows

/-! ### The keys of the buckets -/

/-- The keys of the buckets but the last start before the margin. -/
def OffMargin (bounds : List ℕ) (nt : ℕ) (startOf : U64 → U64) (buckets : List (List U64)) : Prop :=
  ∀ t bucket hi, t + 1 < nt → bounds[t + 1]? = some hi → buckets[t]? = some bucket →
    ∀ k ∈ bucket, (startOf k).toNat + boundaryMargin < hi

theorem bucketLoop_offMargin {bounds : List ℕ} {nt : ℕ} {startOf : U64 → U64} {keys : List U64}
    {buckets buckets' : List (List U64)} {deferred deferred' : List U64}
    (h : bucketLoop bounds nt startOf keys buckets deferred = some (buckets', deferred'))
    (hbuckets : OffMargin bounds nt startOf buckets) :
  OffMargin bounds nt startOf buckets'
  := by
  induction keys generalizing buckets deferred with
  | nil =>
      obtain ⟨rfl, -⟩ := Prod.mk.inj (Option.some_injective _ h)
      apply hbuckets
  | cons k keys ih =>
      rw [bucketLoop] at h
      dsimp only at h
      split at h
      · cases h
      · obtain ⟨hi, hhi, h⟩ := Option.bind_eq_some_iff.mp h
        split at h
        · apply ih h hbuckets
        · rename_i hfar
          obtain ⟨bucket, hbucket, h⟩ := Option.bind_eq_some_iff.mp h
          apply ih h
          intro t bucket' hi' ht hhi' hbucket' x hx
          by_cases htk : t = partitionPoint bounds (startOf k).toNat - 1
          · subst htk
            rw [List.getElem?_set_self (List.getElem?_eq_some_iff.mp hbucket).1,
              Option.some.injEq] at hbucket'
            subst hbucket'
            rcases List.mem_append.mp hx with hx | hx
            · apply hbuckets _ bucket hi' ht hhi' hbucket x hx
            · obtain rfl := List.mem_singleton.mp hx
              obtain rfl := Option.some_injective _ (hhi.symm.trans hhi')
              exact Nat.lt_of_not_le (fun hle => hfar ⟨ht, hle⟩)
          · rw [List.getElem?_set_ne (Ne.symm htk)] at hbucket'
            apply hbuckets t bucket' hi' ht hhi' hbucket' x hx

/-- A row is narrower than the margin, so the row of every key of a bucket ends in the range of
the bucket. -/
theorem IsBounds.row_end {bounds : List ℕ} {n w : ℕ} (hbounds : IsBounds bounds n) (hn : 0 < n)
    (hpos : 0 < w) (hw : w ≤ boundaryMargin) {startOf : U64 → U64} {keys deferred : List U64}
    {buckets : List (List U64)} (hkeys : ∀ k ∈ keys, (startOf k).toNat + w ≤ n)
    (heq : bucketKeys bounds startOf keys = some (buckets, deferred)) {t hi : ℕ}
    {bucket : List U64} (hhi : bounds[t + 1]? = some hi) (hbucket : buckets[t]? = some bucket)
    {k : U64} (hk : k ∈ bucket) :
  (startOf k).toNat + w ≤ hi
  := by
  have hlen := (List.getElem?_eq_some_iff.mp hhi).1
  obtain ⟨buckets', deferred', heq', hbucketed⟩ := bucketKeys_eq_some hbounds hn
    (fun x hx => Nat.lt_of_lt_of_le (Nat.lt_add_of_pos_right hpos) (hkeys x hx))
  obtain ⟨rfl, rfl⟩ := Prod.mk.inj (Option.some_injective _ (heq.symm.trans heq'))
  have hend : (startOf k).toNat + w ≤ n := by
    apply hkeys
    apply hbucketed.perm.mem_iff.mp
    apply List.mem_append_left
    exact List.mem_flatten_of_mem (List.mem_of_getElem? hbucket) hk
  by_cases hlast : t + 2 = bounds.length
  · rw [hbounds.eq_of_last hhi hlast]
    apply hend
  · rw [bucketKeys] at heq
    split at heq
    · cases heq
    · have hempty : OffMargin bounds (bounds.length - 1) startOf
          (List.replicate (bounds.length - 1) []) := by
        intro t bucket hi _ _ hbucket k hk
        obtain rfl := List.eq_of_mem_replicate (List.mem_of_getElem? hbucket)
        cases hk
      have hlt := bucketLoop_offMargin heq hempty t bucket hi (by omega) hhi hbucket k hk
      omega

theorem SplitKeys.bucketKeys_eq {T : Target} {n window threads : ℕ} {startOf : U64 → U64}
    {keys deferred : List U64} {bounds : List ℕ} {buckets : List (List U64)}
    (h : SplitKeys T n window threads startOf keys bounds buckets deferred) (hmax : n ≤ T.usizeMax)
    (hn : 0 < n) (hkeys : ∀ k ∈ keys, (startOf k).toNat < n) :
  bucketKeys bounds startOf keys = some (buckets, deferred)
  := by
  rw [← Checked.bucketKeys_eq h.isBounds hn hmax hkeys, h.buckets_eq]

/-! ### Workers of the homogeneous build -/

namespace RangeWorker

variable {R n : ℕ} {numStarts seed : U64} {held : Set U64} {w w' : RangeWorker}

/-- What a step does. -/
theorem step_cases (h : w.step numStarts seed = some w') :
  w' = w
  ∨ (∃ k pending, w.active = none ∧ w.pending = k :: pending
      ∧ w.base ≤ (start (ribbonHash k seed) numStarts).toNat
      ∧ w' = { w with
          pending
          active := some (k, (start (ribbonHash k seed) numStarts).toNat - w.base,
            coeffRow (ribbonHash k seed)) })
  ∨ ∃ k i cr, w.active = some (k, i, cr)
    ∧ ((w.slice.length ≤ i ∧ w' = { w with active := none, spilled := w.spilled ++ [k] })
      ∨ (w.slice[i]? = some 0 ∧ w' = { w with slice := w.slice.set i cr, active := none })
      ∨ w' = { w with active := none }
      ∨ ∃ crAtI, w.slice[i]? = some crAtI ∧ crAtI ≠ 0 ∧ cr ^^^ crAtI ≠ 0
        ∧ w' = { w with
            active := some (k, i + (cr ^^^ crAtI).ctz.toNat,
              (cr ^^^ crAtI) >>> (cr ^^^ crAtI).ctz.toNat) })
  := by
  cases hactive : w.active with
  | none =>
      cases hpending : w.pending with
      | nil =>
          left
          rw [step, hactive, hpending] at h
          apply (Option.some_injective _ h).symm
      | cons k pending =>
          right; left
          by_cases hstart : w.base ≤ (start (ribbonHash k seed) numStarts).toNat
          · rw [step_take hactive hpending hstart] at h
            exact ⟨k, pending, rfl, rfl, hstart, (Option.some_injective _ h).symm⟩
          · rw [step, hactive, hpending] at h
            dsimp only at h
            rw [if_neg hstart] at h
            cases h
  | some a =>
      obtain ⟨k, i, cr⟩ := a
      right; right
      refine ⟨k, i, cr, rfl, ?_⟩
      by_cases hout : w.slice.length ≤ i
      · left
        rw [step_spill hactive hout] at h
        exact ⟨hout, (Option.some_injective _ h).symm⟩
      · right
        have hread := List.getElem?_eq_getElem (Nat.not_le.mp hout)
        by_cases hempty : w.slice[i] = 0
        · left
          rw [hempty] at hread
          rw [step_place hactive hread] at h
          exact ⟨hread, (Option.some_injective _ h).symm⟩
        · right
          by_cases hzero : cr ^^^ w.slice[i] = 0
          · left
            rw [step_vanish hactive hread hempty hzero] at h
            apply (Option.some_injective _ h).symm
          · right
            rw [step_move hactive hread hempty hzero] at h
            exact ⟨_, hread, hempty, hzero, (Option.some_injective _ h).symm⟩

/-- No key has left the slice, and none will: the rows stored in it and what is left of the key
in hand end in it, and so do the rows of the keys that are still to be taken. -/
structure Contained (numStarts seed : U64) (w : RangeWorker) : Prop where
  rows : InReach w.slice
  pending : ∀ k ∈ w.pending,
    (start (ribbonHash k seed) numStarts).toNat + W ≤ w.base + w.slice.length
  active : ∀ k i cr, w.active = some (k, i, cr) → Within w.slice.length i cr
  spilled : w.spilled = []

theorem contained_spawn {m base : ℕ} {bucket : List U64}
    (hbucket : ∀ k ∈ bucket, (start (ribbonHash k seed) numStarts).toNat + W ≤ base + m) :
  (spawn (List.replicate m 0) base bucket).Contained numStarts seed
  where
  rows := inReach_replicate m
  pending := by
    change ∀ k ∈ bucket, _ ≤ base + (List.replicate m (0 : U64)).length
    rw [List.length_replicate]
    apply hbucket
  active _ _ _ hnone := by cases hnone
  spilled := rfl

theorem Contained.step (h : w.Contained numStarts seed) (hstep : w.step numStarts seed = some w') :
  w'.Contained numStarts seed
  := by
  rcases step_cases hstep with rfl | ⟨k, pending, hactive, hpending, hstart, rfl⟩
    | ⟨k, i, cr, hactive, hcases⟩
  · apply h
  · have hk := h.pending k (by rw [hpending]; apply List.mem_cons_self)
    refine ⟨h.rows, fun x hx => h.pending x (by rw [hpending]; apply List.mem_cons_of_mem _ hx),
      ?_, h.spilled⟩
    rintro _ _ _ ⟨⟩
    apply within_of_room (coeffRow_odd _)
    rw [W] at hk
    dsimp only
    omega
  · have hwithin := h.active k i cr hactive
    rcases hcases with ⟨hout, rfl⟩ | ⟨hread, rfl⟩ | rfl | ⟨crAtI, hread, hne, hrest, rfl⟩
    · exact absurd hwithin.slot_lt (Nat.not_lt.mpr hout)
    · refine ⟨h.rows.set hwithin, ?_, fun _ _ _ hnone => (nomatch hnone), h.spilled⟩
      dsimp only
      rw [List.length_set]
      apply h.pending
    · exact ⟨h.rows, h.pending, fun _ _ _ hnone => (nomatch hnone), h.spilled⟩
    · have hstored := within_iff.mpr (h.rows i _ hread hne)
      refine ⟨h.rows, h.pending, ?_, h.spilled⟩
      rintro _ _ _ ⟨⟩
      apply (hwithin.advance hstored hrest).2

/-- The workers of an empty matrix start with what they keep. -/
theorem contained_spawnAll {bounds : List ℕ} (hbounds : IsBounds bounds n) (hslots : W ≤ n)
    {keys deferred : List U64} {buckets : List (List U64)}
    (heq : bucketKeys bounds
      (fun k => start (ribbonHash k seed) (BitVec.ofNat 64 (n - W + 1))) keys
      = some (buckets, deferred))
    {slices : List (ℕ × List U64)} (hsliced : Sliced bounds (List.replicate n 0) slices) :
  ∀ p ∈ spawnAll slices buckets, p.Contained (BitVec.ofNat 64 (n - W + 1)) seed
  := by
  have hpos : 0 < n := lt_of_lt_of_le (by decide) hslots
  intro p hp
  obtain ⟨t, ht⟩ := List.mem_iff_getElem?.mp hp
  obtain ⟨s, bucket, hs, hbucket, rfl⟩ := getElem?_spawnAll.mp ht
  obtain ⟨-, hhi⟩ := hsliced.boundaries t s hs
  rw [hsliced.eq_replicate (List.mem_of_getElem? hs)]
  apply contained_spawn
  intro k hk
  apply hbounds.row_end hpos (by decide) (by decide)
    (fun x _ => start_add_le hslots (ribbonHash x seed)) heq hhi hbucket hk

/-- In whatever order the workers of an empty matrix take their steps, none spills a key. -/
theorem exists_scope_contained
    (hempty : (matrix R (BitVec.ofNat 64 (n - W + 1)) seed (List.replicate n 0)).Holds n seed ∅)
    {bounds : List ℕ} {keys deferred : List U64} {buckets : List (List U64)}
    (hbucketed : Bucketed bounds (fun k => start (ribbonHash k seed) (BitVec.ofNat 64 (n - W + 1)))
      keys buckets deferred)
    {slices : List (ℕ × List U64)} (hsliced : Sliced bounds (List.replicate n 0) slices)
    (hcontained : ∀ p ∈ spawnAll slices buckets,
      p.Contained (BitVec.ofNat 64 (n - W + 1)) seed) (schedule : List ℕ) :
  ∃ workers,
    scope (BitVec.ofNat 64 (n - W + 1)) seed schedule (spawnAll slices buckets) = some workers
      ∧ workers.length = buckets.length ∧ ∀ w ∈ workers, w.spilled = []
  := by
  have hslices := hsliced.length
  have hbuckets := hbucketed.length
  have hforall := (hbucketed.forall₂ hsliced).imp fun _ _ hb k hk => (hb k hk).1
  rw [← hsliced.flatten] at hempty
  have hsound := sound_spawnAll hforall [] hsliced.contiguous hempty
  obtain ⟨workers, hscope, hlen, hall⟩ :=
    ((terminates_sound R n (BitVec.ofNat 64 (n - W + 1)) seed ∅).and
      fun _ _ h hstep => Contained.step h hstep).exists_scope_inv measure_le_fuel schedule
        (fun p hp => ⟨hsound p hp, hcontained p hp⟩)
  refine ⟨workers, hscope, ?_, fun w hw => (hall w hw).2.spilled⟩
  rw [hlen, spawnAll, List.length_zipWith]
  omega

end RangeWorker

/-! ### Workers of the standard build -/

namespace RangeWorker128

variable {R n : ℕ} {numStarts raw : U64} {w w' : RangeWorker128}

/-- What a step does to slices of one length. -/
theorem step_cases (hwithin : w.result.length = w.coeff.length)
    (h : w.step numStarts raw = some w') :
  w' = w ∨ w' = { w with failed := true }
  ∨ (∃ k pending, w.active = none ∧ w.pending = k :: pending
      ∧ w.base ≤ (start (ribbonHash k raw) numStarts).toNat
      ∧ w' = { w with
          pending
          active := some (k, (start (ribbonHash k raw) numStarts).toNat - w.base,
            coeffRow128 (ribbonHash k raw), resultRow (ribbonHash k raw)) })
  ∨ ∃ k i cr rr, w.active = some (k, i, cr, rr)
    ∧ ((w.coeff.length ≤ i ∧ w' = { w with active := none, spilled := w.spilled ++ [k] })
      ∨ (w.coeff[i]? = some 0
        ∧ w' = { w with coeff := w.coeff.set i cr, result := w.result.set i rr, active := none })
      ∨ w' = { w with active := none }
      ∨ ∃ crAtI rrAtI, w.coeff[i]? = some crAtI ∧ crAtI ≠ 0 ∧ cr ^^^ crAtI ≠ 0
        ∧ w' = { w with
            active := some (k, i + (cr ^^^ crAtI).ctz.toNat,
              (cr ^^^ crAtI) >>> (cr ^^^ crAtI).ctz.toNat, rr ^^^ rrAtI) })
  := by
  rcases Bool.eq_false_or_eq_true w.failed with hrun | hrun
  · left
    rw [step, hrun, if_pos rfl] at h
    apply (Option.some_injective _ h).symm
  · cases hactive : w.active with
    | none =>
        cases hpending : w.pending with
        | nil =>
            left
            rw [step, hrun, if_neg Bool.false_ne_true, hactive, hpending] at h
            apply (Option.some_injective _ h).symm
        | cons k pending =>
            right; right; left
            by_cases hstart : w.base ≤ (start (ribbonHash k raw) numStarts).toNat
            · rw [step_take hrun hactive hpending hstart] at h
              exact ⟨k, pending, rfl, rfl, hstart, (Option.some_injective _ h).symm⟩
            · rw [step, hrun, if_neg Bool.false_ne_true, hactive, hpending] at h
              dsimp only at h
              rw [if_neg hstart] at h
              cases h
    | some a =>
        obtain ⟨k, i, cr, rr⟩ := a
        by_cases hout : w.coeff.length ≤ i
        · right; right; right
          rw [step_spill hrun hactive hout] at h
          exact ⟨k, i, cr, rr, rfl, .inl ⟨hout, (Option.some_injective _ h).symm⟩⟩
        · have hi := Nat.not_le.mp hout
          have hread := List.getElem?_eq_getElem hi
          obtain ⟨rrAtI, hread'⟩ : ∃ rrAtI, w.result[i]? = some rrAtI :=
            ⟨_, List.getElem?_eq_getElem (hwithin ▸ hi)⟩
          by_cases hempty : w.coeff[i] = 0
          · right; right; right
            rw [hempty] at hread
            rw [step_place hrun hactive hread hread'] at h
            exact ⟨k, i, cr, rr, rfl, .inr (.inl ⟨hread, (Option.some_injective _ h).symm⟩)⟩
          · by_cases hzero : cr ^^^ w.coeff[i] = 0
            · by_cases hrr : rr ^^^ rrAtI = 0
              · right; right; right
                rw [step_vanish hrun hactive hread hread' hempty hzero hrr] at h
                exact ⟨k, i, cr, rr, rfl, .inr (.inr (.inl (Option.some_injective _ h).symm))⟩
              · right; left
                rw [step_fail hrun hactive hread hread' hempty hzero hrr, hactive] at h
                apply (Option.some_injective _ h).symm
            · right; right; right
              rw [step_move hrun hactive hread hread' hempty hzero] at h
              exact ⟨k, i, cr, rr, rfl, .inr (.inr (.inr
                ⟨_, _, hread, hempty, hzero, (Option.some_injective _ h).symm⟩))⟩

/-- No key has left the slices, and none will: the rows stored in them and what is left of the
key in hand end in them, and so do the rows of the keys that are still to be taken. -/
structure Contained (numStarts raw : U64) (w : RangeWorker128) : Prop where
  within : w.result.length = w.coeff.length
  rows : InReach w.coeff
  pending : ∀ k ∈ w.pending,
    (start (ribbonHash k raw) numStarts).toNat + W128 ≤ w.base + w.coeff.length
  active : ∀ k i cr rr, w.active = some (k, i, cr, rr) → Within w.coeff.length i cr
  spilled : w.spilled = []

theorem contained_spawn {m base : ℕ} {bucket : List U64}
    (hbucket : ∀ k ∈ bucket, (start (ribbonHash k raw) numStarts).toNat + W128 ≤ base + m) :
  (spawn (List.replicate m 0) (List.replicate m 0) base bucket).Contained numStarts raw
  where
  within := by
    change (List.replicate m (0 : U32)).length = (List.replicate m (0 : U128)).length
    rw [List.length_replicate, List.length_replicate]
  rows := inReach_replicate m
  pending := by
    change ∀ k ∈ bucket, _ ≤ base + (List.replicate m (0 : U128)).length
    rw [List.length_replicate]
    apply hbucket
  active _ _ _ _ hnone := by cases hnone
  spilled := rfl

theorem Contained.step (h : w.Contained numStarts raw) (hstep : w.step numStarts raw = some w') :
  w'.Contained numStarts raw
  := by
  rcases step_cases h.within hstep with rfl | rfl | ⟨k, pending, hactive, hpending, hstart, rfl⟩
    | ⟨k, i, cr, rr, hactive, hcases⟩
  · apply h
  · exact ⟨h.within, h.rows, h.pending, h.active, h.spilled⟩
  · have hk := h.pending k (by rw [hpending]; apply List.mem_cons_self)
    refine ⟨h.within, h.rows,
      fun x hx => h.pending x (by rw [hpending]; apply List.mem_cons_of_mem _ hx), ?_, h.spilled⟩
    rintro _ _ _ _ ⟨⟩
    apply within_of_room (coeffRow128_odd _)
    rw [W128] at hk
    dsimp only
    omega
  · have hwithin := h.active k i cr rr hactive
    rcases hcases with ⟨hout, rfl⟩ | ⟨hread, rfl⟩ | rfl | ⟨crAtI, rrAtI, hread, hne, hrest, rfl⟩
    · exact absurd hwithin.slot_lt (Nat.not_lt.mpr hout)
    · refine ⟨?_, h.rows.set hwithin, ?_, fun _ _ _ _ hnone => (nomatch hnone), h.spilled⟩
      · rw [List.length_set, List.length_set, h.within]
      · dsimp only
        rw [List.length_set]
        apply h.pending
    · exact ⟨h.within, h.rows, h.pending, fun _ _ _ _ hnone => (nomatch hnone), h.spilled⟩
    · have hstored := within_iff.mpr (h.rows i _ hread hne)
      refine ⟨h.within, h.rows, h.pending, ?_, h.spilled⟩
      rintro _ _ _ _ ⟨⟩
      apply (hwithin.advance hstored hrest).2

/-- The workers of an empty matrix start with what they keep. -/
theorem contained_spawnAll {bounds : List ℕ} (hbounds : IsBounds bounds n) (hslots : W128 ≤ n)
    {keys deferred : List U64} {buckets : List (List U64)}
    (heq : bucketKeys bounds
      (fun k => start (ribbonHash k raw) (BitVec.ofNat 64 (n - W128 + 1))) keys
      = some (buckets, deferred))
    {cslices : List (ℕ × List U128)} {rslices : List (ℕ × List U32)}
    (hcsliced : Sliced bounds (List.replicate n 0) cslices)
    (hrsliced : Sliced bounds (List.replicate n 0) rslices) :
  ∀ p ∈ spawnAll cslices rslices buckets, p.Contained (BitVec.ofNat 64 (n - W128 + 1)) raw
  := by
  have hpos : 0 < n := lt_of_lt_of_le (by decide) hslots
  intro p hp
  obtain ⟨t, ht⟩ := List.mem_iff_getElem?.mp hp
  obtain ⟨c, r, bucket, hc, hr, hbucket, rfl⟩ := getElem?_spawnAll.mp ht
  obtain ⟨-, hhi⟩ := hcsliced.boundaries t c hc
  have hrzero := hrsliced.eq_replicate (List.mem_of_getElem? hr)
  rw [hcsliced.length_eq hrsliced hc hr] at hrzero
  rw [hcsliced.eq_replicate (List.mem_of_getElem? hc), hrzero]
  apply contained_spawn
  intro k hk
  apply hbounds.row_end hpos (by decide) (by decide)
    (fun x _ => start_add_le hslots (ribbonHash x raw)) heq hhi hbucket hk

/-- In whatever order the workers of an empty matrix take their steps, none spills a key. -/
theorem exists_scope_contained {ordinal : U32}
    (hempty : (matrix R n ordinal (List.replicate n 0) (List.replicate n 0)).Holds n ordinal ∅)
    {bounds : List ℕ} {keys deferred : List U64} {buckets : List (List U64)}
    (hbucketed : Bucketed bounds (startSlot n ordinal) keys buckets deferred)
    {cslices : List (ℕ × List U128)} {rslices : List (ℕ × List U32)}
    (hcsliced : Sliced bounds (List.replicate n 0) cslices)
    (hrsliced : Sliced bounds (List.replicate n 0) rslices)
    (hcontained : ∀ p ∈ spawnAll cslices rslices buckets,
      p.Contained (BitVec.ofNat 64 (n - W128 + 1)) ((ordinalToRawSeed ordinal).setWidth 64))
    (schedule : List ℕ) :
  ∃ workers,
    scope (BitVec.ofNat 64 (n - W128 + 1)) ((ordinalToRawSeed ordinal).setWidth 64) schedule
        (spawnAll cslices rslices buckets) = some workers
      ∧ workers.length = buckets.length ∧ ∀ w ∈ workers, w.spilled = []
  := by
  have hcslices := hcsliced.length
  have hrslices := hrsliced.length
  have hbuckets := hbucketed.length
  have hforall := (hbucketed.forall₂ hcsliced).imp fun _ _ hb k hk => (hb k hk).1
  rw [← hcsliced.flatten, ← hrsliced.flatten] at hempty
  have hsound := sound_spawnAll [] [] hforall (hcsliced.forall₂_length hrsliced)
    hcsliced.contiguous rfl hempty
  obtain ⟨workers, hscope, hlen, hall⟩ :=
    ((terminates_sound R n ordinal ∅).and
      fun _ _ h hstep => Contained.step h hstep).exists_scope_inv measure_le_fuel schedule
        (fun p hp => ⟨hsound p hp, hcontained p hp⟩)
  refine ⟨workers, hscope, ?_, fun w hw => (hall w hw).2.spilled⟩
  rw [hlen]
  apply length_spawnAll
  · omega
  · omega

end RangeWorker128

/-! ### Both builds -/

/-- Whatever the number of slots, the size of a window, the number of threads that takes the
parallel path, the seed, the keys and the order of the steps: no worker spills a key. -/
theorem no_worker_spills (T : Target) (R : ℕ) {n windowShift : ℕ} (hmax : n ≤ T.usizeMax)
    (hshift : windowShift < T.usizeBits) (keys : List U64) (schedule : List ℕ) :
  (∀ (seed : U64) (threads : ℕ), n % W = 0 → 1 < min (max threads 1) (n / W) →
    ∃ band window bounds buckets deferred slices workers,
      Banding.new R n seed = some band ∧ windowSize T windowShift = some window
      ∧ SplitKeys T n window (min (max threads 1) (n / W))
          (fun k => start (ribbonHash k seed) band.numStarts) keys bounds buckets deferred
      ∧ splitSlices bounds 0 band.coeffRows = some (slices, [])
      ∧ RangeWorker.scope band.numStarts seed schedule (RangeWorker.spawnAll slices buckets)
          = some workers
      ∧ workers.length = buckets.length ∧ ∀ w ∈ workers, w.spilled = [])
  ∧ (∀ (b : Banding128 R) (ordinal : U32) (threads : ℕ), b.Shape n → 1 < threads →
      2 ≤ n / W128 →
    let raw : U64 := (b.reset ordinal).rawSeed.setWidth 64
    ∃ window bounds buckets deferred cslices rslices workers,
      windowSize T windowShift = some window
      ∧ SplitKeys T n window (min threads (divCeil n window))
          (fun k => start (ribbonHash k raw) b.numStarts) keys bounds buckets deferred
      ∧ splitSlices bounds 0 (b.reset ordinal).coeffRows = some (cslices, [])
      ∧ splitSlices bounds 0 (b.reset ordinal).resultRows = some (rslices, [])
      ∧ RangeWorker128.scope b.numStarts raw schedule
          (RangeWorker128.spawnAll cslices rslices buckets) = some workers
      ∧ workers.length = buckets.length ∧ ∀ w ∈ workers, w.spilled = [])
  := by
  have hwindow := window_pos windowShift
  constructor
  · intro seed threads hblocks hpar
    have hslots : W ≤ n := by
      by_contra hfew
      rw [Nat.div_eq_of_lt (Nat.lt_of_not_le hfew)] at hpar
      omega
    have hpos : 0 < n := lt_of_lt_of_le (by decide) hslots
    have hempty := RangeWorker.matrix_empty_holds R seed hblocks hslots
    have hstart := fun k (_ : k ∈ keys) =>
      start_lt_slots (by decide) hslots (ribbonHash k seed)
    obtain ⟨bounds, buckets, deferred, hsplit⟩ := exists_splitKeys hmax hpos hwindow
      (show 0 < min (max threads 1) (n / W) by omega) hstart
    have hlen : (List.replicate n (0 : U64)).length = n := List.length_replicate
    obtain ⟨slices, hslices, hsliced⟩ := hsplit.isBounds.exists_sliced hlen
    have hcontained := RangeWorker.contained_spawnAll hsplit.isBounds hslots
      (hsplit.bucketKeys_eq hmax hpos hstart) hsliced
    obtain ⟨workers, hscope, hworkers, hspilled⟩ :=
      RangeWorker.exists_scope_contained hempty hsplit.bucketed hsliced hcontained schedule
    exact ⟨_, _, bounds, buckets, deferred, slices, workers, Banding.new_eq_some hblocks hslots,
      if_pos hshift, hsplit, hslices, hscope, hworkers, hspilled⟩
  · intro b ordinal threads hshape hpar hblocks
    have hpos : 0 < n := lt_of_lt_of_le (by decide) hshape.slots
    have hempty := hshape.reset ordinal
    rw [hshape.reset_eq] at hempty ⊢
    rw [hshape.starts]
    have hwindows := divCeil_pos hpos hwindow
    have hstart := fun k (_ : k ∈ keys) => start_lt_slots (by decide) hshape.slots
      (ribbonHash k ((ordinalToRawSeed ordinal).setWidth 64))
    obtain ⟨bounds, buckets, deferred, hsplit⟩ := exists_splitKeys hmax hpos hwindow
      (show 0 < min threads (divCeil n (1 <<< windowShift)) by omega) hstart
    have hclen : (List.replicate n (0 : U128)).length = n := List.length_replicate
    have hrlen : (List.replicate n (0 : U32)).length = n := List.length_replicate
    obtain ⟨cslices, hcslices, hcsliced⟩ := hsplit.isBounds.exists_sliced hclen
    obtain ⟨rslices, hrslices, hrsliced⟩ := hsplit.isBounds.exists_sliced hrlen
    have hcontained := RangeWorker128.contained_spawnAll hsplit.isBounds hshape.slots
      (hsplit.bucketKeys_eq hmax hpos hstart) hcsliced hrsliced
    obtain ⟨workers, hscope, hworkers, hspilled⟩ := RangeWorker128.exists_scope_contained hempty
      hsplit.bucketed hcsliced hrsliced hcontained schedule
    exact ⟨_, bounds, buckets, deferred, cslices, rslices, workers, if_pos hshift, hsplit,
      hcslices, hrslices, hscope, hworkers, hspilled⟩

/-- Five keys in matrices of `2 ^ 16` slots, in two threads that take turns: each thread has two
keys, and spills none. -/
theorem no_worker_spills_two :
  let T : Target := ⟨64, le_refl 64⟩
  let n := 2 ^ 16
  let keys : List U64 := [5, 7, 2, 1, 3]
  (∃ band bounds slices workers, Banding.new 7 n 0 = some band
    ∧ SplitKeys T n (2 ^ 15) 2 (fun k => start (ribbonHash k 0) band.numStarts) keys bounds
        [[2, 3], [5, 1]] [7]
    ∧ splitSlices bounds 0 band.coeffRows = some (slices, [])
    ∧ RangeWorker.scope band.numStarts 0 [0, 1, 0, 1, 0]
        (RangeWorker.spawnAll slices [[2, 3], [5, 1]]) = some workers
    ∧ workers.length = 2 ∧ ∀ w ∈ workers, w.spilled = [])
  ∧ ∃ (b : Banding128 7) (bounds : List ℕ) (cslices : List (ℕ × List U128))
      (rslices : List (ℕ × List U32)) (workers : List RangeWorker128), b.Shape n
    ∧ SplitKeys T n (2 ^ 15) 2
        (fun k => start (ribbonHash k ((b.reset 0).rawSeed.setWidth 64)) b.numStarts) keys bounds
        [[2, 3], [5, 1]] [7]
    ∧ splitSlices bounds 0 (b.reset 0).coeffRows = some (cslices, [])
    ∧ splitSlices bounds 0 (b.reset 0).resultRows = some (rslices, [])
    ∧ RangeWorker128.scope b.numStarts ((b.reset 0).rawSeed.setWidth 64) [0, 1, 0, 1, 0]
        (RangeWorker128.spawnAll cslices rslices [[2, 3], [5, 1]]) = some workers
    ∧ workers.length = 2 ∧ ∀ w ∈ workers, w.spilled = []
  := by
  intro T n keys
  have hmax : n ≤ T.usizeMax := by
    change 2 ^ 16 ≤ 2 ^ 64 - 1
    norm_num
  have hshift : 15 < T.usizeBits := by decide
  have hsize : windowSize T 15 = some (2 ^ 15) := by decide
  obtain ⟨hhomog, hstd⟩ := no_worker_spills T 7 hmax hshift keys [0, 1, 0, 1, 0]
  constructor
  · obtain ⟨band, window, bounds, buckets, deferred, slices, workers, hnew, hwindow, hsplit,
      hslices, hscope, hworkers, hspilled⟩ := hhomog 0 2 (by decide) (by decide)
    obtain rfl := Option.some_injective _ (hsize.symm.trans hwindow)
    rw [show min (max 2 1) (n / W) = 2 by decide] at hsplit
    have hstarts : band.numStarts = BitVec.ofNat 64 (n - W + 1) := by
      rw [Banding.new_eq_some (by decide) (by decide), Option.some.injEq] at hnew
      rw [← hnew]
    obtain ⟨rfl, rfl⟩ := hsplit.eq_of_bucketKeys (by rw [hstarts]; apply bucketKeys_halves)
    exact ⟨band, bounds, slices, workers, hnew, hsplit, hslices, hscope, hworkers, hspilled⟩
  · obtain ⟨b, -, hshape⟩ :=
      Banding128.exists_new 7 (show n % W128 = 0 by decide) (show W128 ≤ n by decide)
    obtain ⟨window, bounds, buckets, deferred, cslices, rslices, workers, hwindow, hsplit,
      hcslices, hrslices, hscope, hworkers, hspilled⟩ := hstd b 0 2 hshape (by decide) (by decide)
    obtain rfl := Option.some_injective _ (hsize.symm.trans hwindow)
    rw [show min 2 (divCeil n (2 ^ 15)) = 2 by decide] at hsplit
    obtain ⟨rfl, rfl⟩ := hsplit.eq_of_bucketKeys (by
      rw [hshape.starts]
      apply bucketKeys_halves128)
    exact ⟨b, bounds, cslices, rslices, workers, hshape, hsplit, hcslices, hrslices, hscope,
      hworkers, hspilled⟩

end Pleat
