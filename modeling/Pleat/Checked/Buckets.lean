import Pleat.Checked.Encode
import Pleat.Checked.Ranges

/-!
# Buckets that grow

The parallel builds push each key to the vector of its range or to that of the deferred keys
(`filter/parallel.rs`, `banding128.rs`).  The vectors are made for an even share of the keys,
and one that gets more of them doubles.  A build panics when such a vector cannot be doubled,
which takes keys of more than half of what can be allocated; otherwise the keys end in the
vectors as they do in lists.
-/

namespace Pleat.Checked

open Capacity Format

/-- A vector of keys, which take eight bytes each. -/
abbrev KeyVec (T : Target) : Type :=
  Vec U64 (T.isizeMax / 8)

/-- `push` -/
def pushKey {T : Target} (v : KeyVec T) (k : U64) : Option (KeyVec T) :=
  v.push (minNonZeroCap 8) k

/-- Push each key to the bucket of its range or to the deferred keys. -/
def pushLoop (T : Target) (bounds : List ℕ) (nt : ℕ) (startOf : U64 → U64) :
    List U64 → List (KeyVec T) → KeyVec T → Option (List (KeyVec T) × KeyVec T)
  | [], buckets, deferred => some (buckets, deferred)
  | k :: keys, buckets, deferred => do
      let s := T.cast (startOf k)
      let t ← checkedSub (partitionPoint bounds s) 1
      let hi ← bounds[t + 1]?
      if t + 1 < nt ∧ hi ≤ T.saturatingAdd s boundaryMargin then do
        let deferred ← pushKey deferred k
        pushLoop T bounds nt startOf keys buckets deferred
      else do
        let bucket ← buckets[t]?
        let bucket ← pushKey bucket k
        pushLoop T bounds nt startOf keys (buckets.set t bucket) deferred

/-- The buckets and the deferred keys, in vectors that grow. -/
def pushKeys (T : Target) (bounds : List ℕ) (startOf : U64 → U64) (keys : List U64) :
    Option (List (List U64) × List U64) := do
  let nt ← checkedSub bounds.length 1
  let _ ← checkedDiv keys.length nt
  let bucket ← Vec.withCapacity U64 (T.isizeMax / 8) (divCeil keys.length nt)
  let deferred ← Vec.withCapacity U64 (T.isizeMax / 8) (keys.length / 4)
  let (buckets, deferred) ← pushLoop T bounds nt startOf keys (List.replicate nt bucket) deferred
  some (buckets.map Vec.elems, deferred.elems)

/-- Push a key to the keys that a worker has spilled, in a vector that is empty at first. -/
def pushSpilled (T : Target) (spilled : List U64) (k : U64) : Option (List U64) := do
  let v ← Vec.withCapacity U64 (T.isizeMax / 8) 0
  let v ← (spilled ++ [k]).foldlM pushKey v
  some v.elems

variable {T : Target} {m : ℕ}

/-- Pushing one of `m` keys fails only if they take up more than half of what can be
allocated. -/
theorem pushKey_cases (hT : 32 ≤ T.isizeMax) {v : KeyVec T} (hm : v.elems.length + 1 ≤ m)
    (k : U64) :
  (∃ v', pushKey v k = some v' ∧ v'.elems = v.elems ++ [k])
    ∨ T.isizeMax < m * 16 ∧ pushKey v k = none
  := by
  rw [pushKey]
  cases hpush : v.push (minNonZeroCap 8) k with
  | some v' => exact .inl ⟨v', rfl, Vec.elems_of_push hpush⟩
  | none =>
      right
      refine ⟨?_, rfl⟩
      by_contra hfew
      have hleast : minNonZeroCap 8 ≤ T.isizeMax / 8 := by
        change 4 ≤ _
        omega
      obtain ⟨v', hsome, -⟩ := Vec.exists_push (v := v) hleast (by omega) k
      rw [hpush] at hsome
      cases hsome

/-- The vectors hold the keys that the lists hold, if there is room. -/
theorem pushLoop_sameUnless (hT : 32 ≤ T.isizeMax) (bounds : List ℕ) (nt : ℕ) (startOf : U64 → U64)
    {keys : List U64} {buckets : List (KeyVec T)} {deferred : KeyVec T}
    (hbuckets : ∀ v ∈ buckets, v.elems.length + keys.length ≤ m)
    (hdeferred : deferred.elems.length + keys.length ≤ m) :
  SameUnless (T.isizeMax < m * 16)
    ((pushLoop T bounds nt startOf keys buckets deferred).map
      fun r => (r.1.map Vec.elems, r.2.elems))
    (bucketLoop T bounds nt startOf keys (buckets.map Vec.elems) deferred.elems)
  := by
  induction keys generalizing buckets deferred with
  | nil => apply SameUnless.refl
  | cons k keys ih =>
      rw [List.length_cons] at hdeferred
      have hkept : ∀ v ∈ buckets, v.elems.length + keys.length ≤ m := by
        intro v hv
        have := hbuckets v hv
        rw [List.length_cons] at this
        omega
      simp only [pushLoop, bucketLoop, Option.bind_eq_bind, Option.map_bind]
      apply SameUnless.bind (.refl ..)
      intro t _
      rw [Function.comp_apply, Option.map_bind]
      apply SameUnless.bind (.refl ..)
      intro hi _
      rw [Function.comp_apply]
      split
      · rcases pushKey_cases hT (show deferred.elems.length + 1 ≤ m by omega) k with
          ⟨v, hv, helems⟩ | ⟨hmany, hnone⟩
        · have hlen : v.elems.length + keys.length ≤ m := by
            rw [helems, List.length_append, List.length_singleton]
            omega
          rw [hv, ← helems]
          apply ih hkept hlen
        · rw [hnone]
          exact .inr ⟨hmany, rfl⟩
      · rw [List.getElem?_map]
        cases hbucket : buckets[t]? with
        | none => apply SameUnless.refl
        | some bucket =>
            have hroom := hbuckets bucket (List.mem_of_getElem? hbucket)
            rw [List.length_cons] at hroom
            rcases pushKey_cases hT (show bucket.elems.length + 1 ≤ m by omega) k with
              ⟨v, hv, helems⟩ | ⟨hmany, hnone⟩
            · have hset : ∀ v' ∈ buckets.set t v, v'.elems.length + keys.length ≤ m := by
                intro v' hv'
                rcases List.mem_or_eq_of_mem_set hv' with hv' | rfl
                · apply hkept v' hv'
                · rw [helems, List.length_append, List.length_singleton]
                  omega
              rw [Option.bind_some, hv, Option.bind_some, Option.map_some, Option.bind_some,
                ← helems, ← List.map_set]
              apply ih hset (by omega)
            · rw [Option.bind_some, hnone]
              exact .inr ⟨hmany, rfl⟩

theorem divCeil_le {a b : ℕ} (hb : 0 < b) :
  divCeil a b ≤ a
  := by
  rcases Nat.eq_zero_or_pos a with rfl | ha
  · rw [divCeil, Nat.div_eq_of_lt (by omega)]
  · rw [divCeil, Nat.div_le_iff_le_mul_add_pred hb]
    have hmul : a ≤ b * a := Nat.le_mul_of_pos_left a hb
    omega

/-- The keys are distributed as in lists, if there is room. -/
theorem pushKeys_sameUnless (hT : 32 ≤ T.isizeMax) {keys : List U64}
    (hkeys : keys.length * 8 ≤ T.isizeMax) (bounds : List ℕ) (startOf : U64 → U64) :
  SameUnless (T.isizeMax < keys.length * 16) (pushKeys T bounds startOf keys)
    (bucketKeys T bounds startOf keys)
  := by
  rw [pushKeys, bucketKeys]
  apply SameUnless.bind (.refl ..)
  intro nt _
  apply SameUnless.bind (.refl ..)
  intro share hdiv
  have hnt : 0 < nt := by
    apply Nat.pos_of_ne_zero
    rintro rfl
    cases hdiv
  have hshare := divCeil_le (a := keys.length) hnt
  obtain ⟨bucket, hbucket⟩ :
      ∃ v, Vec.withCapacity U64 (T.isizeMax / 8) (divCeil keys.length nt) = some v :=
    ⟨_, dif_pos (by omega)⟩
  obtain ⟨deferred, hdeferred⟩ :
      ∃ v, Vec.withCapacity U64 (T.isizeMax / 8) (keys.length / 4) = some v :=
    ⟨_, dif_pos (by omega)⟩
  obtain ⟨-, hbucketEmpty⟩ := Vec.doubled_withCapacity hbucket
  obtain ⟨-, hdeferredEmpty⟩ := Vec.doubled_withCapacity hdeferred
  have hbuckets : ∀ v ∈ List.replicate nt bucket, v.elems.length + keys.length ≤ keys.length := by
    intro v hv
    rw [List.eq_of_mem_replicate hv, hbucketEmpty, List.length_nil, Nat.zero_add]
  have hnone : deferred.elems.length + keys.length ≤ keys.length := by
    rw [hdeferredEmpty, List.length_nil, Nat.zero_add]
  have hloop := pushLoop_sameUnless hT bounds nt startOf hbuckets hnone
  rw [List.map_replicate, hbucketEmpty, hdeferredEmpty, Option.map_eq_bind] at hloop
  rw [hbucket, hdeferred]
  apply hloop

end Pleat.Checked
