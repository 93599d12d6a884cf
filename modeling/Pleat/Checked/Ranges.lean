import Pleat.Checked.Arithmetic
import Pleat.Ranges

/-!
# Ranges with arithmetic that can fail

The boundaries of the ranges with the products as the source takes them, which saturate, and
the distribution of the keys with its subtraction and its saturating sum.  For a number of
slots that is a `usize` they are the boundaries and the distribution in the arithmetic of
the numbers: a product that saturates is at least the number of slots, to which it is
clamped, and a sum that does is at least every boundary.

The buckets are lists here, which take any number of keys; `pushKeys` is the same distribution
with vectors, which may not be able to grow.
-/

namespace Pleat

namespace Target

/-- `a.saturating_mul(b)` -/
def saturatingMul (T : Target) (a b : ℕ) : ℕ :=
  min (a * b) T.usizeMax

/-- `a.saturating_add(b)` -/
def saturatingAdd (T : Target) (a b : ℕ) : ℕ :=
  min (a + b) T.usizeMax

/-- Clamped to a `usize`, a product of three does not depend on where it saturates. -/
theorem min_saturatingMul {T : Target} (a b : ℕ) {c n : ℕ} (hc : 0 < c) (hn : n ≤ T.usizeMax) :
  min (T.saturatingMul (T.saturatingMul a b) c) n = min (a * b * c) n
  := by
  rw [saturatingMul, saturatingMul, min_assoc, min_eq_right hn]
  by_cases h : a * b ≤ T.usizeMax
  · rw [min_eq_left h]
  · have hlarge : T.usizeMax ≤ a * b := (Nat.lt_of_not_le h).le
    rw [min_eq_right hlarge, min_eq_right, min_eq_right]
    · calc n ≤ a * b := le_trans hn hlarge
        _ ≤ a * b * c := Nat.le_mul_of_pos_right _ hc
    · calc n ≤ T.usizeMax := hn
        _ ≤ T.usizeMax * c := Nat.le_mul_of_pos_right _ hc

end Target

namespace Checked

/-- The boundaries of the ranges. -/
def rangeBounds (T : Target) (numSlots window threads : ℕ) : List ℕ :=
  let nWindows := divCeil numSlots window
  let per := divCeil nWindows threads
  ((List.range (threads + 1)).map fun t =>
    min (T.saturatingMul (T.saturatingMul t per) window) numSlots).destutter (· ≠ ·)

/-- Put each key into the bucket of its range or defer it. -/
def bucketLoop (T : Target) (bounds : List ℕ) (nt : ℕ) (startOf : U64 → U64) :
    List U64 → List (List U64) → List U64 → Option (List (List U64) × List U64)
  | [], buckets, deferred => some (buckets, deferred)
  | k :: keys, buckets, deferred => do
      let s := T.cast (startOf k)
      let t ← checkedSub (partitionPoint bounds s) 1
      let hi ← bounds[t + 1]?
      if t + 1 < nt ∧ hi ≤ T.saturatingAdd s boundaryMargin then
        bucketLoop T bounds nt startOf keys buckets (deferred ++ [k])
      else do
        let bucket ← buckets[t]?
        bucketLoop T bounds nt startOf keys (buckets.set t (bucket ++ [k])) deferred

/-- The buckets and the deferred keys. -/
def bucketKeys (T : Target) (bounds : List ℕ) (startOf : U64 → U64) (keys : List U64) :
    Option (List (List U64) × List U64) := do
  let nt ← checkedSub bounds.length 1
  let _ ← checkedDiv keys.length nt
  bucketLoop T bounds nt startOf keys (List.replicate nt []) []

variable {T : Target} {n : ℕ}

theorem rangeBounds_eq (hn : n ≤ T.usizeMax) {window : ℕ} (hwindow : 0 < window) (threads : ℕ) :
  rangeBounds T n window threads = Pleat.rangeBounds n window threads
  := by
  rw [rangeBounds, Pleat.rangeBounds]
  congr 1
  apply List.map_congr_left
  intro t _
  apply Target.min_saturatingMul t _ hwindow hn

theorem bucketLoop_eq {bounds : List ℕ} (hbounds : ∀ b ∈ bounds, b ≤ T.usizeMax)
    (hn : n ≤ T.usizeMax) (nt : ℕ) {startOf : U64 → U64} {keys : List U64}
    (hkeys : ∀ k ∈ keys, (startOf k).toNat < n) (buckets : List (List U64)) (deferred : List U64) :
  bucketLoop T bounds nt startOf keys buckets deferred
    = Pleat.bucketLoop bounds nt startOf keys buckets deferred
  := by
  induction keys generalizing buckets deferred with
  | nil => rfl
  | cons k keys ih =>
      have hk := hkeys k (List.mem_cons_self ..)
      have hcast : T.cast (startOf k) = (startOf k).toNat := Target.cast_eq (by omega)
      have ih' := ih fun x hx => hkeys x (List.mem_cons_of_mem k hx)
      rw [bucketLoop, Pleat.bucketLoop, hcast]
      by_cases hzero : partitionPoint bounds (startOf k).toNat = 0
      · simp only [hzero, if_true]
        rfl
      · rw [checkedSub_eq (Nat.pos_of_ne_zero hzero)]
        simp only [hzero, if_false, Option.bind_eq_bind, Option.bind_some]
        apply Option.bind_congr
        intro hi hhi
        have hle := hbounds hi (List.mem_of_getElem? hhi)
        have hmargin : hi ≤ T.saturatingAdd (startOf k).toNat boundaryMargin
            ↔ hi ≤ (startOf k).toNat + boundaryMargin := by
          rw [Target.saturatingAdd, le_min_iff, and_iff_left hle]
        simp only [hmargin, ih']

/-- For boundaries of a number of slots that is a `usize`, the keys are distributed as in the
arithmetic of the numbers. -/
theorem bucketKeys_eq {bounds : List ℕ} (hbounds : IsBounds bounds n) (hpos : 0 < n)
    (hn : n ≤ T.usizeMax) {startOf : U64 → U64} {keys : List U64}
    (hkeys : ∀ k ∈ keys, (startOf k).toNat < n) :
  bucketKeys T bounds startOf keys = Pleat.bucketKeys bounds startOf keys
  := by
  obtain ⟨t, _, _, -, -, hhi, -, -⟩ := hbounds.exists_range hpos
  obtain ⟨ht, -⟩ := List.getElem?_eq_some_iff.mp hhi
  have hmax : ∀ b ∈ bounds, b ≤ T.usizeMax := by
    intro b hb
    apply le_trans (hbounds.le_of_mem hb) hn
  rw [bucketKeys, Pleat.bucketKeys, checkedSub_eq (by omega)]
  simp only [Option.bind_eq_bind, Option.bind_some]
  rw [checkedDiv_eq (by omega), Option.bind_some, if_neg (by omega)]
  apply bucketLoop_eq hmax hn _ hkeys

end Checked

end Pleat
