import Pleat.Hash
import Pleat.Data.StablePartition

/-!
# Pleating

The counting pass that folds a key stream into windows of consecutive start slots
(`lib.rs`).  It counts the keys of each window, turns the counts into offsets, and writes
every key at the cursor of its window.  An access out of bounds is `none`.

As long as every start lies in a window, the pass returns the stable partition of the keys
into windows, whatever the output buffer held before, and the offsets of the windows.
-/

namespace Pleat

open StablePartition

/-- How a key stream is folded: `2 ^ shift` slots make a window. -/
structure PleatPlan where
  numStarts : U64
  shift : ℕ

namespace PleatPlan

/-- The shift must be smaller than the width of a pointer. -/
def new (T : Target) (numStarts : U64) (shift : ℕ) : Option PleatPlan :=
  if shift < T.usizeBits then some ⟨numStarts, shift⟩ else none

def numWindows (p : PleatPlan) : ℕ :=
  ((p.numStarts >>> p.shift) + 2).toNat

/-- The window of a key. -/
def windowOf (p : PleatPlan) (startOf : U64 → U64) (k : U64) : ℕ :=
  (startOf k >>> p.shift).toNat

/-- Count each key at the position after its window. -/
def countLoop (win : U64 → ℕ) : List U64 → List ℕ → Option (List ℕ)
  | [], counts => some counts
  | k :: keys, counts => do
      let c ← counts[win k + 1]?
      countLoop win keys (counts.set (win k + 1) (c + 1))

/-- Add to each count, in the order of the positions given, the one before it. -/
def prefixLoop : List ℕ → List ℕ → Option (List ℕ)
  | [], counts => some counts
  | w :: ws, counts => do
      let c ← counts[w]?
      let before ← counts[w - 1]?
      prefixLoop ws (counts.set w (c + before))

/-- Write each key at the cursor of its window and move the cursor on. -/
def scatterLoop (win : U64 → ℕ) : List U64 → List U64 → List ℕ → Option (List U64)
  | [], out, _ => some out
  | k :: keys, out, cursor => do
      let c ← cursor[win k]?
      if c < out.length then
        scatterLoop win keys (out.set c k) (cursor.set (win k) (c + 1))
      else
        none

/-- Fold into the caller's buffer; returns the buffer and the offsets of the windows. -/
def pleatInto (p : PleatPlan) (keys : List U64) (startOf : U64 → U64) (out : List U64) :
    Option (List U64 × List ℕ) :=
  if keys.length = out.length then do
    let nw := p.numWindows
    let counts ← countLoop (p.windowOf startOf) keys (List.replicate (nw + 1) 0)
    let counts ← prefixLoop (List.range' 1 nw) counts
    let cursor := counts.take nw
    let out ← scatterLoop (p.windowOf startOf) keys out cursor
    some (out, counts)
  else
    none

/-- Fold into a fresh buffer. -/
def pleat (p : PleatPlan) (keys : List U64) (startOf : U64 → U64) :
    Option (List U64 × List ℕ) :=
  p.pleatInto keys startOf (List.replicate keys.length 0)

/-! ### The three loops -/

variable {win : U64 → ℕ} {nw : ℕ}

theorem countLoop_tabulate {keys : List U64} (h : ∀ k ∈ keys, win k < nw) (f : ℕ → ℕ) :
  countLoop win keys (tabulate (nw + 1) f)
    = some (tabulate (nw + 1) (fun i => f i + keys.countP (fun k => win k + 1 = i)))
  := by
  induction keys generalizing f with
  | nil => rfl
  | cons k keys ih =>
      have hk : win k + 1 < nw + 1 := Nat.succ_lt_succ (h k (List.mem_cons_self ..))
      rw [countLoop, getElem?_tabulate hk, Option.bind_eq_bind, Option.bind_some, set_tabulate,
        ih (fun x hx => h x (List.mem_cons_of_mem k hx))]
      congr 1
      apply tabulate_congr
      intro i _
      rw [List.countP_cons]
      by_cases hi : i = win k + 1
      · subst hi
        rw [Function.update_self, if_pos (by simp)]
        omega
      · rw [Function.update_of_ne hi, if_neg (by simpa using Ne.symm hi), Nat.add_zero]

/-- The first `m` turns of the prefix loop sum up the first `m + 1` positions. -/
theorem prefixLoop_tabulate {g : ℕ → ℕ} (hg : ∀ i, g (i + 1) = g i + (g (i + 1) - g i))
    (nw a m : ℕ) (ham : a + m ≤ nw) :
  prefixLoop (List.range' (a + 1) m)
      (tabulate (nw + 1) (fun i => if i ≤ a then g i else g i - g (i - 1)))
    = some (tabulate (nw + 1) (fun i => if i ≤ a + m then g i else g i - g (i - 1)))
  := by
  induction m generalizing a with
  | zero => rfl
  | succ m ih =>
      rw [List.range'_succ, prefixLoop, getElem?_tabulate (by omega), Option.bind_eq_bind,
        Option.bind_some, Nat.add_sub_cancel, getElem?_tabulate (by omega), Option.bind_some,
        set_tabulate, if_neg (by omega), if_pos le_rfl]
      have hstep : tabulate (nw + 1)
            (Function.update (fun i => if i ≤ a then g i else g i - g (i - 1)) (a + 1)
              (g (a + 1) - g a + g a))
          = tabulate (nw + 1) (fun i => if i ≤ a + 1 then g i else g i - g (i - 1)) := by
        apply tabulate_congr
        intro i _
        by_cases hi : i = a + 1
        · subst hi
          rw [Function.update_self, if_pos le_rfl]
          have := hg a
          omega
        · rw [Function.update_of_ne hi]
          have hle : i ≤ a ↔ i ≤ a + 1 := by omega
          simp only [hle]
      have hend : a + (m + 1) = a + 1 + m := by omega
      rw [hstep, hend]
      apply ih (a + 1) (by omega)

/-- The counts of the windows are the differences of their offsets. -/
theorem countP_succ_eq_offset_sub (keys : List U64) (i : ℕ) :
  keys.countP (fun k => win k + 1 = i)
    = if i ≤ 0 then offset win keys i else offset win keys i - offset win keys (i - 1)
  := by
  cases i with
  | zero => simp [offset_zero]
  | succ v =>
      rw [if_neg (by omega), Nat.add_sub_cancel, offset_succ, Nat.add_sub_cancel_left, window,
        ← List.countP_eq_length_filter]
      congr 1
      funext k
      simp

/-- Counting and summing up gives the offsets of the windows. -/
theorem prefixLoop_countLoop {keys : List U64} (h : ∀ k ∈ keys, win k < nw) :
  (countLoop win keys (List.replicate (nw + 1) 0)).bind (prefixLoop (List.range' 1 nw))
    = some (tabulate (nw + 1) (offset win keys))
  := by
  have hmono : ∀ i, offset win keys (i + 1)
      = offset win keys i + (offset win keys (i + 1) - offset win keys i) := by
    intro i
    have := offset_mono win keys (show i ≤ i + 1 by omega)
    omega
  have hcounts : tabulate (nw + 1) (fun i => 0 + keys.countP (fun k => win k + 1 = i))
      = tabulate (nw + 1) (fun i =>
          if i ≤ 0 then offset win keys i else offset win keys i - offset win keys (i - 1)) := by
    apply tabulate_congr
    intro i _
    rw [Nat.zero_add, countP_succ_eq_offset_sub]
  rw [replicate_eq_tabulate, countLoop_tabulate h, Option.bind_some, hcounts]
  have hsums := prefixLoop_tabulate hmono nw 0 nw (by omega)
  rw [Nat.zero_add] at hsums
  rw [hsums]
  congr 1
  apply tabulate_congr
  intro i hi
  rw [if_pos (by omega)]

/-- What the scatter loop has written once the keys of `done` are placed: every place of a
window up to its cursor. -/
structure Scattered (win : U64 → ℕ) (keys done out : List U64) : Prop where
  length : out.length = keys.length
  written : ∀ v, ∀ j < (window win done v).length,
    out[offset win keys v + j]? = (window win done v)[j]?

theorem Scattered.step {keys done rest out : List U64} {k : U64}
    (h : Scattered win keys done out) (hkeys : keys = done ++ k :: rest) :
  Scattered win keys (done ++ [k])
    (out.set (offset win keys (win k) + (window win done (win k)).length) k)
  := by
  have hle : ∀ v, (window win (done ++ [k]) v).length ≤ (window win keys v).length := by
    intro v
    have hsplit : keys = done ++ [k] ++ rest := by simp [hkeys]
    rw [hsplit, window, window, @List.filter_append _ _ (done ++ [k]) rest, List.length_append]
    apply Nat.le_add_right
  have hself : window win (done ++ [k]) (win k) = window win done (win k) ++ [k] := by
    simp [window]
  have hother : ∀ v, v ≠ win k → window win (done ++ [k]) v = window win done v := by
    intro v hv
    simp [window, Ne.symm hv]
  have hlast : (window win done (win k)).length < (window win keys (win k)).length := by
    have := hle (win k)
    rw [hself, List.length_append] at this
    apply this
  have hpos : offset win keys (win k) + (window win done (win k)).length < out.length := by
    rw [h.length]
    calc _ < offset win keys (win k + 1) := by rw [offset_succ]; omega
      _ ≤ keys.length := List.countP_le_length
  constructor
  · rw [List.length_set, h.length]
  · intro v j hj
    by_cases hv : v = win k
    · subst hv
      rw [hself] at hj ⊢
      rw [List.length_append, List.length_singleton] at hj
      by_cases hjl : j = (window win done (win k)).length
      · subst hjl
        rw [List.getElem?_set_self hpos, List.getElem?_append_right le_rfl, Nat.sub_self]
        rfl
      · rw [List.getElem?_set_ne (by omega), List.getElem?_append_left (by omega)]
        apply h.written _ _ (by omega)
    · rw [hother v hv] at hj ⊢
      rw [List.getElem?_set_ne]
      · apply h.written v j hj
      · apply offset_add_ne hlast
        · have := hle v
          rw [hother v hv] at this
          omega
        · apply Ne.symm hv

/-- The scatter loop writes the stable partition, whatever the buffer held before. -/
theorem scatterLoop_tabulate {keys : List U64} (h : ∀ k ∈ keys, win k < nw)
    {done rest out : List U64} (hkeys : keys = done ++ rest) (hout : Scattered win keys done out) :
  scatterLoop win rest out
      (tabulate nw (fun v => offset win keys v + (window win done v).length))
    = some (stablePartition win nw keys)
  := by
  induction rest generalizing done out with
  | nil =>
      rw [List.append_nil] at hkeys
      subst hkeys
      rw [scatterLoop]
      congr 1
      apply eq_stablePartition
      · rw [hout.length, offset_eq_length h]
      · intro v _ j hj
        apply hout.written v j hj
  | cons k rest ih =>
      have hk : win k < nw := h k (by simp [hkeys])
      have hstep := hout.step hkeys
      have hkeys' : keys = (done ++ [k]) ++ rest := by simp [hkeys]
      have hlt : offset win keys (win k) + (window win done (win k)).length < out.length := by
        have hle : offset win keys (win k + 1) ≤ keys.length := List.countP_le_length
        rw [offset_succ] at hle
        have hwin : (window win done (win k)).length < (window win keys (win k)).length := by
          simp only [hkeys, window, List.filter_append, List.length_append, List.filter_cons,
            decide_true, if_true, List.length_cons]
          omega
        rw [hout.length]
        omega
      rw [scatterLoop, getElem?_tabulate hk, Option.bind_eq_bind, Option.bind_some, if_pos hlt,
        set_tabulate]
      have hcursor : tabulate nw
            (Function.update (fun v => offset win keys v + (window win done v).length) (win k)
              (offset win keys (win k) + (window win done (win k)).length + 1))
          = tabulate nw (fun v => offset win keys v + (window win (done ++ [k]) v).length) := by
        apply tabulate_congr
        intro v _
        by_cases hv : v = win k
        · subst hv
          rw [Function.update_self]
          simp [window]
          omega
        · rw [Function.update_of_ne hv]
          simp [window, Ne.symm hv]
      rw [hcursor]
      apply ih hkeys' hstep

/-! ### The pass -/

/-- When every key starts in a window, the pass stays in bounds and returns the stable
partition of the keys and the offsets of the windows. -/
theorem pleatInto_eq (p : PleatPlan) {keys : List U64} {startOf : U64 → U64} {out : List U64}
    (hout : out.length = keys.length) (h : ∀ k ∈ keys, p.windowOf startOf k < p.numWindows) :
  p.pleatInto keys startOf out
    = some (stablePartition (p.windowOf startOf) p.numWindows keys,
        tabulate (p.numWindows + 1) (offset (p.windowOf startOf) keys))
  := by
  have hcounts := prefixLoop_countLoop h
  obtain ⟨counts, hcount, hsums⟩ := Option.bind_eq_some_iff.mp hcounts
  have htake : (tabulate (p.numWindows + 1) (offset (p.windowOf startOf) keys)).take p.numWindows
      = tabulate p.numWindows (fun v => offset (p.windowOf startOf) keys v
          + (window (p.windowOf startOf) [] v).length) := by
    rw [tabulate, ← List.map_take, List.take_range, Nat.min_eq_left (Nat.le_succ _)]
    apply tabulate_congr
    intro v _
    simp [window]
  have hempty : Scattered (p.windowOf startOf) keys [] out :=
    ⟨hout, fun v j hj => by simp [window] at hj⟩
  have hscatter := scatterLoop_tabulate h (List.nil_append keys).symm hempty
  rw [pleatInto, if_pos hout.symm]
  simp only [Option.bind_eq_bind, hcount, hsums, Option.bind_some, htake, hscatter]

/-- A start that is at most the number of starts lies in a window. -/
theorem windowOf_lt (p : PleatPlan) {startOf : U64 → U64} {k : U64}
    (hstart : (startOf k).toNat ≤ p.numStarts.toNat) (hstarts : p.numStarts.toNat + 2 < 2 ^ 64) :
  p.windowOf startOf k < p.numWindows
  := by
  have hle : (p.numStarts >>> p.shift).toNat ≤ p.numStarts.toNat := by
    rw [BitVec.toNat_ushiftRight, Nat.shiftRight_eq_div_pow]
    apply Nat.div_le_self
  have hnum : p.numWindows = (p.numStarts >>> p.shift).toNat + 2 := by
    have htwo : (2 : U64).toNat = 2 := rfl
    rw [numWindows, BitVec.toNat_add, htwo]
    apply Nat.mod_eq_of_lt
    omega
  have hmono : (startOf k >>> p.shift).toNat ≤ (p.numStarts >>> p.shift).toNat := by
    rw [BitVec.toNat_ushiftRight, BitVec.toNat_ushiftRight, Nat.shiftRight_eq_div_pow,
      Nat.shiftRight_eq_div_pow]
    apply Nat.div_le_div_right hstart
  rw [windowOf, hnum]
  omega

/-- Folding keys by the starts of their hashes stays in bounds and permutes the keys, when
the number of starts is that of a table of whole blocks: one more than a multiple of 64
leaves room for the two windows added. -/
theorem exists_pleatInto (p : PleatPlan) (hmod : p.numStarts.toNat % 64 = 1) (hash : U64 → U64)
    {keys out : List U64} (hout : out.length = keys.length) :
  ∃ ordered counts,
    p.pleatInto keys (fun k => start (hash k) p.numStarts) out = some (ordered, counts)
      ∧ ordered.Perm keys
  := by
  have hwindow : ∀ k ∈ keys,
      p.windowOf (fun k => start (hash k) p.numStarts) k < p.numWindows := by
    intro k _
    have hlt := p.numStarts.isLt
    have hstart : (start (hash k) p.numStarts).toNat < p.numStarts.toNat := start_lt (by omega)
    apply windowOf_lt
    · apply hstart.le
    · omega
  refine ⟨_, _, p.pleatInto_eq hout hwindow, ?_⟩
  apply stablePartition_perm hwindow

end PleatPlan

end Pleat
