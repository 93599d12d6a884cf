import Pleat.Checked.Arithmetic
import Pleat.Plan

/-!
# Pleating with arithmetic that can fail

The counting pass with every operation of the machine written out.  It is the pass with the
arithmetic of the numbers as long as the vector of offsets can be allocated: then the number
of windows fits, and no count exceeds the number of keys.

For any starts below the number of starts the pass then returns the stable sort of the keys
by window and the offsets of the windows.  A number of starts so large that the number of
windows overflows makes it fail.
-/

namespace Pleat

open StablePartition Format

/-- `size_of::<usize>()` -/
def Target.usizeBytes (T : Target) : ℕ :=
  divCeil T.usizeBits 8

namespace Checked

/-- `vec![x; n]` of elements of `size` bytes. -/
def vec {α : Type*} (T : Target) (size : ℕ) (x : α) (n : ℕ) : Option (List α) :=
  if n * size ≤ T.isizeMax then some (List.replicate n x) else none

def numWindows (T : Target) (p : PleatPlan) : Option ℕ := do
  let full ← wordShr p.numStarts p.shift
  let windows ← wordAdd full 2
  some (T.cast windows)

/-- The window of a key. -/
def windowOf (T : Target) (p : PleatPlan) (startOf : U64 → U64) (k : U64) : Option ℕ := do
  let w ← wordShr (startOf k) p.shift
  some (T.cast w)

/-- Count each key at the position after its window. -/
def countLoop (T : Target) (win : U64 → Option ℕ) : List U64 → List ℕ → Option (List ℕ)
  | [], counts => some counts
  | k :: keys, counts => do
      let w ← win k
      let position ← T.add w 1
      let c ← counts[position]?
      let c ← T.add c 1
      countLoop T win keys (counts.set position c)

/-- Add to each count, in the order of the positions given, the one before it. -/
def prefixLoop (T : Target) : List ℕ → List ℕ → Option (List ℕ)
  | [], counts => some counts
  | w :: ws, counts => do
      let last ← checkedSub w 1
      let before ← counts[last]?
      let c ← counts[w]?
      let c ← T.add c before
      prefixLoop T ws (counts.set w c)

/-- Write each key at the cursor of its window and move the cursor on. -/
def scatterLoop (T : Target) (win : U64 → Option ℕ) :
    List U64 → List U64 → List ℕ → Option (List U64)
  | [], out, _ => some out
  | k :: keys, out, cursor => do
      let w ← win k
      let c ← cursor[w]?
      if c < out.length then do
        let next ← T.add c 1
        scatterLoop T win keys (out.set c k) (cursor.set w next)
      else
        none

/-- Fold into the caller's buffer; returns the buffer and the offsets of the windows. -/
def pleatInto (T : Target) (p : PleatPlan) (keys : List U64) (startOf : U64 → U64)
    (out : List U64) : Option (List U64 × List ℕ) :=
  if keys.length = out.length then do
    let nw ← numWindows T p
    let len ← T.add nw 1
    let counts ← vec T T.usizeBytes 0 len
    let counts ← countLoop T (windowOf T p startOf) keys counts
    let counts ← prefixLoop T (List.range' 1 nw) counts
    let cursor ← slice counts 0 nw
    let out ← scatterLoop T (windowOf T p startOf) keys out cursor
    some (out, counts)
  else
    none

/-! ### The three loops -/

variable {T : Target}

/-- Raising a value raises a bound of a list. -/
theorem bounded_of_set {counts : List ℕ} {i c d m : ℕ} (hc : counts[i]? = some c)
    (hcd : c ≤ d) (h : ∀ x ∈ counts.set i d, x ≤ m) :
  d ≤ m ∧ ∀ x ∈ counts, x ≤ m
  := by
  obtain ⟨hi, hci⟩ := List.getElem?_eq_some_iff.mp hc
  have hd : d ≤ m := h d (List.mem_set hi d)
  use hd
  intro x hx
  obtain ⟨j, hj⟩ := List.mem_iff_getElem?.mp hx
  by_cases hij : i = j
  · subst hij
    rw [hc] at hj
    obtain rfl := Option.some_injective _ hj
    omega
  · apply h x
    apply List.mem_iff_getElem?.mpr
    use j
    rw [List.getElem?_set_ne hij, hj]

theorem countLoop_bounded {win : U64 → ℕ} {keys : List U64} {counts final : List ℕ} {m : ℕ}
    (h : PleatPlan.countLoop win keys counts = some final) (hfinal : ∀ c ∈ final, c ≤ m) :
  ∀ c ∈ counts, c ≤ m
  := by
  induction keys generalizing counts with
  | nil =>
      obtain rfl := Option.some_injective _ h
      apply hfinal
  | cons k keys ih =>
      obtain ⟨c, hc, h⟩ := Option.bind_eq_some_iff.mp h
      apply (bounded_of_set hc (Nat.le_succ c) (ih h)).2

theorem prefixLoop_bounded {ws counts final : List ℕ} {m : ℕ}
    (h : PleatPlan.prefixLoop ws counts = some final) (hfinal : ∀ c ∈ final, c ≤ m) :
  ∀ c ∈ counts, c ≤ m
  := by
  induction ws generalizing counts with
  | nil =>
      obtain rfl := Option.some_injective _ h
      apply hfinal
  | cons w ws ih =>
      obtain ⟨c, hc, h⟩ := Option.bind_eq_some_iff.mp h
      obtain ⟨before, -, h⟩ := Option.bind_eq_some_iff.mp h
      apply (bounded_of_set hc (Nat.le_add_right c before) (ih h)).2

/-- The counts stay below the counts the loop ends with, so that no sum overflows. -/
theorem countLoop_eq {win : U64 → Option ℕ} {win' : U64 → ℕ} {keys : List U64}
    {counts final : List ℕ} (hwin : ∀ k ∈ keys, win k = some (win' k))
    (h : PleatPlan.countLoop win' keys counts = some final) (hlen : counts.length ≤ T.usizeMax)
    (hfinal : ∀ c ∈ final, c ≤ T.usizeMax) :
  countLoop T win keys counts = some final
  := by
  induction keys generalizing counts with
  | nil => apply h
  | cons k keys ih =>
      obtain ⟨c, hc, h⟩ := Option.bind_eq_some_iff.mp h
      have hi := (List.getElem?_eq_some_iff.mp hc).1
      have hset := (bounded_of_set hc (Nat.le_succ c) (countLoop_bounded h hfinal)).1
      rw [countLoop, hwin k (List.mem_cons_self ..)]
      simp only [Option.bind_eq_bind, Option.bind_some]
      rw [Target.add_eq (by omega), Option.bind_some, hc, Option.bind_some, Target.add_eq hset]
      apply ih (fun x hx => hwin x (List.mem_cons_of_mem k hx)) h
      rw [List.length_set]
      apply hlen

theorem prefixLoop_eq {ws counts final : List ℕ} (hws : ∀ w ∈ ws, 1 ≤ w)
    (h : PleatPlan.prefixLoop ws counts = some final) (hfinal : ∀ c ∈ final, c ≤ T.usizeMax) :
  prefixLoop T ws counts = some final
  := by
  induction ws generalizing counts with
  | nil => apply h
  | cons w ws ih =>
      obtain ⟨c, hc, h⟩ := Option.bind_eq_some_iff.mp h
      obtain ⟨before, hbefore, h⟩ := Option.bind_eq_some_iff.mp h
      have hset :=
        (bounded_of_set hc (Nat.le_add_right c before) (prefixLoop_bounded h hfinal)).1
      rw [prefixLoop, checkedSub_eq (hws w (List.mem_cons_self ..))]
      simp only [Option.bind_eq_bind, Option.bind_some]
      rw [hbefore, Option.bind_some, hc, Option.bind_some, Target.add_eq hset]
      apply ih (fun v hv => hws v (List.mem_cons_of_mem w hv)) h

/-- The cursors point into the buffer when they move on. -/
theorem scatterLoop_eq {win : U64 → Option ℕ} {win' : U64 → ℕ} {keys out final : List U64}
    {cursor : List ℕ} (hwin : ∀ k ∈ keys, win k = some (win' k))
    (h : PleatPlan.scatterLoop win' keys out cursor = some final)
    (hlen : out.length ≤ T.usizeMax) :
  scatterLoop T win keys out cursor = some final
  := by
  induction keys generalizing out cursor with
  | nil => apply h
  | cons k keys ih =>
      obtain ⟨c, hc, h⟩ := Option.bind_eq_some_iff.mp h
      split at h
      · rename_i hlt
        rw [scatterLoop, hwin k (List.mem_cons_self ..)]
        simp only [Option.bind_eq_bind, Option.bind_some]
        rw [hc, Option.bind_some, if_pos hlt, Target.add_eq (by omega)]
        apply ih (fun x hx => hwin x (List.mem_cons_of_mem k hx)) h
        rw [List.length_set]
        apply hlen
      · nomatch h

/-! ### The pass -/

/-- The vector of the offsets of the windows can be allocated. -/
def OffsetsFit (T : Target) (p : PleatPlan) : Prop :=
  ((p.numStarts >>> p.shift).toNat + 3) * T.usizeBytes ≤ T.isizeMax

theorem vec_eq {α : Type*} {size n : ℕ} (x : α) (h : n * size ≤ T.isizeMax) :
  vec T size x n = some (List.replicate n x)
  := if_pos h

/-- When the vector of offsets can be allocated, its length is a `usize`. -/
theorem OffsetsFit.le_usizeMax {p : PleatPlan} (h : OffsetsFit T p)
    (hshift : p.shift < T.usizeBits) :
  (p.numStarts >>> p.shift).toNat + 3 ≤ T.usizeMax
  := by
  have hbytes : 0 < T.usizeBytes := by
    rw [Target.usizeBytes, divCeil]
    apply Nat.div_pos _ (by decide)
    omega
  calc (p.numStarts >>> p.shift).toNat + 3
      ≤ ((p.numStarts >>> p.shift).toNat + 3) * T.usizeBytes := Nat.le_mul_of_pos_right _ hbytes
    _ ≤ T.isizeMax := h
    _ ≤ T.usizeMax := isizeMax_le_usizeMax T

theorem OffsetsFit.numWindows_eq {p : PleatPlan} (h : OffsetsFit T p)
    (hshift : p.shift < T.usizeBits) :
  p.numWindows = (p.numStarts >>> p.shift).toNat + 2 ∧ numWindows T p = some p.numWindows
  := by
  have hfit := h.le_usizeMax hshift
  have hmax := usizeMax_lt T
  have htwo : (2 : U64).toNat = 2 := rfl
  have hbits : p.shift < 64 := lt_of_lt_of_le hshift T.usizeBits_le
  have hnum : p.numWindows = (p.numStarts >>> p.shift).toNat + 2 := by
    rw [PleatPlan.numWindows, BitVec.toNat_add, htwo]
    apply Nat.mod_eq_of_lt
    omega
  have hadd : wordAdd (p.numStarts >>> p.shift) 2 = some (p.numStarts >>> p.shift + 2) := by
    apply if_pos
    rw [htwo]
    omega
  use hnum
  rw [numWindows, wordShr_eq hbits]
  simp only [Option.bind_eq_bind, Option.bind_some]
  rw [hadd, Option.bind_some, Target.cast_eq]
  · rfl
  · change p.numWindows ≤ T.usizeMax
    omega

theorem OffsetsFit.windowOf_eq {p : PleatPlan} (h : OffsetsFit T p) (hshift : p.shift < T.usizeBits)
    {startOf : U64 → U64} {k : U64} (hstart : startOf k < p.numStarts) :
  windowOf T p startOf k = some (p.windowOf startOf k) ∧ p.windowOf startOf k < p.numWindows
  := by
  have hfit := h.le_usizeMax hshift
  have hbits : p.shift < 64 := lt_of_lt_of_le hshift T.usizeBits_le
  have hle : p.windowOf startOf k ≤ (p.numStarts >>> p.shift).toNat := by
    rw [PleatPlan.windowOf, BitVec.toNat_ushiftRight, BitVec.toNat_ushiftRight,
      Nat.shiftRight_eq_div_pow, Nat.shiftRight_eq_div_pow]
    apply Nat.div_le_div_right (BitVec.lt_def.mp hstart).le
  constructor
  · rw [windowOf, wordShr_eq hbits]
    simp only [Option.bind_eq_bind, Option.bind_some]
    rw [Target.cast_eq]
    · rfl
    · change p.windowOf startOf k ≤ T.usizeMax
      omega
  · rw [(h.numWindows_eq hshift).1]
    omega

/-- No operation fails: the pass returns the stable partition and the offsets. -/
theorem OffsetsFit.pleatInto_eq {p : PleatPlan} (h : OffsetsFit T p)
    (hshift : p.shift < T.usizeBits) {startOf : U64 → U64} {keys out : List U64}
    (hlen : keys.length ≤ T.usizeMax) (hout : out.length = keys.length)
    (hstart : ∀ k ∈ keys, startOf k < p.numStarts) :
  pleatInto T p keys startOf out
    = some (stablePartition (p.windowOf startOf) p.numWindows keys,
        tabulate (p.numWindows + 1) (offset (p.windowOf startOf) keys))
  := by
  have hfit := h.le_usizeMax hshift
  obtain ⟨hnum, hnw⟩ := h.numWindows_eq hshift
  have hwin : ∀ k ∈ keys, windowOf T p startOf k = some (p.windowOf startOf k) :=
    fun k hk => (h.windowOf_eq hshift (hstart k hk)).1
  have hlt : ∀ k ∈ keys, p.windowOf startOf k < p.numWindows :=
    fun k hk => (h.windowOf_eq hshift (hstart k hk)).2
  have hoffsets : ∀ c ∈ tabulate (p.numWindows + 1) (offset (p.windowOf startOf) keys),
      c ≤ T.usizeMax := by
    intro c hc
    obtain ⟨v, -, rfl⟩ := List.mem_map.mp hc
    apply le_trans List.countP_le_length hlen
  -- The plain pass does the same steps.
  have hplain := p.pleatInto_eq hout hlt
  rw [PleatPlan.pleatInto, if_pos hout.symm] at hplain
  obtain ⟨counts, hcount, hplain⟩ := Option.bind_eq_some_iff.mp hplain
  obtain ⟨sums, hsums, hplain⟩ := Option.bind_eq_some_iff.mp hplain
  obtain ⟨ordered, hscatter, hplain⟩ := Option.bind_eq_some_iff.mp hplain
  obtain ⟨rfl, rfl⟩ := Prod.mk.inj (Option.some_injective _ hplain)
  have hvec : vec T T.usizeBytes 0 (p.numWindows + 1)
      = some (List.replicate (p.numWindows + 1) 0) := by
    apply vec_eq
    rw [hnum]
    apply h
  have hcount' := countLoop_eq hwin hcount
    (by rw [List.length_replicate]; omega) (prefixLoop_bounded hsums hoffsets)
  have hsums' := prefixLoop_eq (fun w hw => (List.mem_range'_1.mp hw).1) hsums hoffsets
  let offsets := tabulate (p.numWindows + 1) (offset (p.windowOf startOf) keys)
  have hcursor : p.numWindows ≤ offsets.length := by
    rw [length_tabulate]
    apply Nat.le_succ
  have hslice : slice offsets 0 p.numWindows = some (offsets.take p.numWindows) :=
    slice_eq_some (Nat.zero_le _) hcursor
  have hscatter' := scatterLoop_eq (T := T) hwin hscatter (by omega)
  rw [pleatInto, if_pos hout.symm, hnw]
  simp only [Option.bind_eq_bind, Option.bind_some]
  rw [Target.add_eq (by omega), Option.bind_some, hvec, Option.bind_some, hcount', Option.bind_some,
    hsums', Option.bind_some, hslice, Option.bind_some, hscatter', Option.bind_some]

end Checked

/-- A pass over keys that start below the number of starts stays in bounds and nothing
overflows, when the offsets can be allocated.  Whatever the buffer held before, it holds the
stable sort of the keys by window, and the offsets increase from zero to the number of keys
and delimit the windows. -/
theorem PleatPlan.pleatInto_stable {T : Target} (numStarts : U64) {shift : ℕ}
    (hshift : shift < T.usizeBits) (hfit : Checked.OffsetsFit T ⟨numStarts, shift⟩)
    {startOf : U64 → U64} {keys out : List U64} (hlen : keys.length ≤ T.usizeMax)
    (hout : out.length = keys.length) (hstart : ∀ k ∈ keys, startOf k < numStarts) :
  ∃ p nw ordered counts, PleatPlan.new T numStarts shift = some p
    ∧ Checked.numWindows T p = some nw
    ∧ Checked.pleatInto T p keys startOf out = some (ordered, counts)
    ∧ p.pleatInto keys startOf out = some (ordered, counts)
    ∧ IsStableSort (fun k => (startOf k >>> shift).toNat) keys ordered
    ∧ counts.length = nw + 1 ∧ counts[0]? = some 0 ∧ counts.Pairwise (· ≤ ·)
    ∧ counts[nw]? = some keys.length
    ∧ ∀ w < nw, ∃ a b, counts[w]? = some a ∧ counts[w + 1]? = some b
        ∧ slice ordered a b = some (window (fun k => (startOf k >>> shift).toNat) keys w)
  := by
  let p : PleatPlan := ⟨numStarts, shift⟩
  have hlt : ∀ k ∈ keys, p.windowOf startOf k < p.numWindows :=
    fun k hk => (hfit.windowOf_eq hshift (hstart k hk)).2
  refine ⟨p, p.numWindows, _, _, if_pos hshift, (hfit.numWindows_eq hshift).2,
    hfit.pleatInto_eq hshift hlen hout hstart, p.pleatInto_eq hout hlt,
    isStableSort_stablePartition hlt, length_tabulate, ?_, ?_, ?_, ?_⟩
  · rw [getElem?_tabulate (Nat.succ_pos _), offset_zero]
  · rw [tabulate, List.pairwise_map]
    apply List.pairwise_lt_range.imp
    intro u v huv
    apply offset_mono _ _ huv.le
  · rw [getElem?_tabulate (Nat.lt_succ_self _), offset_eq_length hlt]
  · intro w hw
    have hw' := Nat.lt_succ_of_lt hw
    refine ⟨_, _, getElem?_tabulate hw', getElem?_tabulate (Nat.succ_lt_succ hw), ?_⟩
    have hend : offset (p.windowOf startOf) keys (w + 1)
        ≤ (stablePartition (p.windowOf startOf) p.numWindows keys).length := by
      rw [length_stablePartition]
      apply offset_mono _ _ hw
    rw [slice_eq_some (offset_mono _ _ (Nat.le_succ w)) hend, offset_succ, Nat.add_sub_cancel_left]
    apply congrArg some (take_drop_stablePartition hw)

/-- Three keys in windows of four slots, over a buffer that holds other keys. -/
theorem PleatPlan.pleatInto_stable_three :
  let T : Target := ⟨64, le_refl 64⟩
  ∃ p nw ordered counts, PleatPlan.new T 9 2 = some p ∧ Checked.numWindows T p = some nw
    ∧ Checked.pleatInto T p [8, 1, 3] id [5, 5, 5] = some (ordered, counts)
    ∧ IsStableSort (fun k : U64 => (k >>> 2).toNat) [8, 1, 3] ordered ∧ counts.length = nw + 1
  := by
  intro T
  have hshift : 2 < T.usizeBits := by decide
  have hfit : Checked.OffsetsFit T ⟨9, 2⟩ := by
    rw [Checked.OffsetsFit]
    decide
  have hlen : ([8, 1, 3] : List U64).length ≤ T.usizeMax := by
    change 3 ≤ 2 ^ 64 - 1
    norm_num
  have hout : ([5, 5, 5] : List U64).length = ([8, 1, 3] : List U64).length := rfl
  have hstart : ∀ k ∈ ([8, 1, 3] : List U64), id k < 9 := by
    intro k hk
    simp only [List.mem_cons, List.not_mem_nil, or_false] at hk
    rcases hk with rfl | rfl | rfl
    · decide
    · decide
    · decide
  obtain ⟨p, nw, ordered, counts, hnew, hnw, hrun, -, hsort, hoffsets, -⟩ :=
    PleatPlan.pleatInto_stable 9 hshift hfit hlen hout hstart
  exact ⟨p, nw, ordered, counts, hnew, hnw, hrun, hsort, hoffsets⟩

/-- With the largest number of starts the number of windows overflows, and the pass fails at a
key that starts below it, with or without a check of the sum. -/
theorem PleatPlan.pleatInto_overflows :
  let T : Target := ⟨64, le_refl 64⟩
  let p : PleatPlan := ⟨BitVec.allOnes 64, 0⟩
  let startOf : U64 → U64 := fun _ => 0xFFFFFFFFFFFFFFFE
  PleatPlan.new T (BitVec.allOnes 64) 0 = some p
    ∧ (∀ k ∈ [0], startOf k < p.numStarts)
    ∧ Checked.pleatInto T p [0] startOf [0] = none
    ∧ p.pleatInto [0] startOf [0] = none
  := by
  intro T p startOf
  refine ⟨rfl, ?_, ?_, ?_⟩
  · intro k _
    decide
  · decide
  · decide

end Pleat
