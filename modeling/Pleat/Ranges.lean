import Pleat.Machine
import Mathlib.Data.List.Destutter
import Mathlib.Data.List.Forall2
import Mathlib.Data.Set.Insert
import Mathlib.Tactic.Common

/-!
# Ranges of slots

How the parallel builds divide the work (`filter/parallel.rs`, `banding128.rs`): the slots
are cut at window boundaries into ranges, each key is put into the bucket of the range its
start lies in or deferred if that is close to the end of the range, and the matrix is split
into one slice for each range.

The ranges cover the slots one after another, each key of a bucket starts in its own range,
and the buckets together with the deferred keys are a permutation of the keys.
-/

namespace Pleat

/-- `G`: a key that starts this close to the upper boundary of its range is deferred. -/
def boundaryMargin : ℕ := 1 <<< 14

/-- The boundaries of the ranges: as many windows as are needed for each thread, clamped to
the number of slots, and without repetitions.  A product that saturates would be clamped
to the same number as the exact one is here. -/
def rangeBounds (numSlots window threads : ℕ) : List ℕ :=
  let nWindows := divCeil numSlots window
  let per := divCeil nWindows threads
  ((List.range (threads + 1)).map fun t => min (t * per * window) numSlots).destutter (· ≠ ·)

/-- The number of boundaries that are at most `s`. -/
def partitionPoint (bounds : List ℕ) (s : ℕ) : ℕ :=
  bounds.findIdx (fun b => ¬ b ≤ s)

/-- Put each key into the bucket of its range or defer it. -/
def bucketLoop (bounds : List ℕ) (nt : ℕ) (startOf : U64 → U64) :
    List U64 → List (List U64) → List U64 → Option (List (List U64) × List U64)
  | [], buckets, deferred => some (buckets, deferred)
  | k :: keys, buckets, deferred =>
      let s := (startOf k).toNat
      if partitionPoint bounds s = 0 then
        none
      else do
        let t := partitionPoint bounds s - 1
        let hi ← bounds[t + 1]?
        if t + 1 < nt ∧ hi ≤ s + boundaryMargin then
          bucketLoop bounds nt startOf keys buckets (deferred ++ [k])
        else do
          let bucket ← buckets[t]?
          bucketLoop bounds nt startOf keys (buckets.set t (bucket ++ [k])) deferred

/-- The buckets and the deferred keys.  Without a range their capacity is a division by
zero.  It makes no difference whether the upper boundary is read before the first test, as
the homogeneous build does, or after it: it exists whenever the bucket does. -/
def bucketKeys (bounds : List ℕ) (startOf : U64 → U64) (keys : List U64) :
    Option (List (List U64) × List U64) :=
  let nt := bounds.length - 1
  if nt = 0 then none else bucketLoop bounds nt startOf keys (List.replicate nt []) []

/-- Split rows into the slices between successive boundaries, each with the number of rows
before it; what is past the last boundary remains. -/
def splitSlices {α : Type*} : List ℕ → ℕ → List α → Option (List (ℕ × List α) × List α)
  | lo :: hi :: bounds, consumed, rest =>
      if lo ≤ hi ∧ hi - lo ≤ rest.length then
        (splitSlices (hi :: bounds) (consumed + (hi - lo)) (rest.drop (hi - lo))).map
          fun (slices, rest') => ((consumed, rest.take (hi - lo)) :: slices, rest')
      else
        none
  | _, _, rest => some ([], rest)

/-! ### Boundaries -/

/-- Boundaries of ranges that cover `n` slots. -/
structure IsBounds (bounds : List ℕ) (n : ℕ) : Prop where
  sorted : bounds.Pairwise (· < ·)
  head : bounds.head? = some 0
  last : bounds.getLast? = some n

theorem getLast?_destutter' (l : List ℕ) (a : ℕ) :
  (l.destutter' (· ≠ ·) a).getLast? = (a :: l).getLast?
  := by
  induction l generalizing a with
  | nil => rfl
  | cons b l ih =>
      rw [List.destutter', List.getLast?_cons_cons]
      split
      · rw [List.getLast?_cons, ih, List.getLast?_cons]
        rfl
      · rename_i hab
        rw [not_not.mp hab, ih]

theorem getLast?_destutter (l : List ℕ) :
  (l.destutter (· ≠ ·)).getLast? = l.getLast?
  := by
  cases l with
  | nil => rfl
  | cons a l => apply getLast?_destutter' l a

theorem head?_destutter (l : List ℕ) :
  (l.destutter (· ≠ ·)).head? = l.head?
  := by
  cases l with
  | nil => rfl
  | cons a l =>
      rw [List.destutter_cons', List.head?_cons]
      induction l with
      | nil => rfl
      | cons b l ih =>
          rw [List.destutter']
          split
          · rfl
          · apply ih

/-- Without its repetitions a weakly increasing list is strictly increasing. -/
theorem pairwise_lt_destutter {l : List ℕ} (h : l.Pairwise (· ≤ ·)) :
  (l.destutter (· ≠ ·)).Pairwise (· < ·)
  := by
  have hle := h.sublist (List.destutter_sublist (· ≠ ·) l)
  have hne := List.isChain_destutter (R := (· ≠ ·)) l
  rw [← List.isChain_iff_pairwise, List.isChain_iff_getElem] at hle ⊢
  rw [List.isChain_iff_getElem] at hne
  intro i hi
  apply lt_of_le_of_ne (hle i hi) (hne i hi)

theorem le_divCeil_mul {a b : ℕ} (hb : 0 < b) :
  a ≤ divCeil a b * b
  := by
  have h := Nat.div_add_mod (a + b - 1) b
  have hlt := Nat.mod_lt (a + b - 1) hb
  rw [divCeil, Nat.mul_comm]
  omega

theorem divCeil_pos {a b : ℕ} (ha : 0 < a) (hb : 0 < b) :
  0 < divCeil a b
  := by
  have hle := le_divCeil_mul (a := a) hb
  apply Nat.pos_of_ne_zero
  intro hzero
  rw [hzero, Nat.zero_mul] at hle
  omega

/-- The boundaries of a division among at least one thread. -/
theorem isBounds_rangeBounds (numSlots : ℕ) {window threads : ℕ} (hwindow : 0 < window)
    (hthreads : 0 < threads) :
  IsBounds (rangeBounds numSlots window threads) numSlots
  := by
  constructor
  · apply pairwise_lt_destutter
    rw [List.pairwise_map]
    apply List.pairwise_lt_range.imp
    intro t u htu
    have hmul := Nat.mul_le_mul_right window
      (Nat.mul_le_mul_right (divCeil (divCeil numSlots window) threads) htu.le)
    omega
  · rw [rangeBounds, head?_destutter, List.range_succ_eq_map, List.map_cons, List.head?_cons]
    simp
  · rw [rangeBounds, getLast?_destutter, List.range_succ, List.map_append, List.map_singleton,
      List.getLast?_concat, min_eq_right]
    -- The last thread reaches past the last window, and the windows past the last slot.
    calc numSlots ≤ divCeil numSlots window * window := le_divCeil_mul hwindow
      _ ≤ divCeil (divCeil numSlots window) threads * threads * window :=
          Nat.mul_le_mul_right _ (le_divCeil_mul hthreads)
      _ = threads * divCeil (divCeil numSlots window) threads * window := by
          rw [Nat.mul_comm threads]

theorem IsBounds.le_of_mem {bounds : List ℕ} {n b : ℕ} (h : IsBounds bounds n)
    (hb : b ∈ bounds) :
  b ≤ n
  := by
  obtain ⟨before, rfl⟩ := List.getLast?_eq_some_iff.mp h.last
  rcases List.mem_append.mp hb with hb | hb
  · apply ((List.pairwise_append.mp h.sorted).2.2 b hb n (List.mem_singleton_self n)).le
  · apply (List.mem_singleton.mp hb).le

/-- The range of a slot: its boundaries are on either side of it. -/
theorem IsBounds.exists_range {bounds : List ℕ} {n : ℕ} (h : IsBounds bounds n) {s : ℕ}
    (hs : s < n) :
  ∃ t lo hi, partitionPoint bounds s = t + 1 ∧ bounds[t]? = some lo ∧ bounds[t + 1]? = some hi
    ∧ lo ≤ s ∧ s < hi
  := by
  have hlast : n ∈ bounds := List.mem_of_getLast? h.last
  have hlt : partitionPoint bounds s < bounds.length := by
    apply List.findIdx_lt_length_of_exists
    exact ⟨n, hlast, by simpa using hs⟩
  have hpos : partitionPoint bounds s ≠ 0 := by
    intro hzero
    have hhead : bounds[0]? = some 0 := by
      rw [← List.head?_eq_getElem?, h.head]
    obtain ⟨hlen, hget⟩ := List.getElem?_eq_some_iff.mp hhead
    have hfind := List.findIdx_eq (p := fun b => decide (¬ b ≤ s)) hlen
    have := (hfind.mp hzero).1
    rw [hget] at this
    simp at this
  obtain ⟨t, ht⟩ := Nat.exists_eq_succ_of_ne_zero hpos
  have htlen : t < bounds.length := by omega
  have ht1len : t + 1 < bounds.length := by omega
  refine ⟨t, bounds[t], bounds[t + 1], ht, List.getElem?_eq_getElem htlen,
    List.getElem?_eq_getElem ht1len, ?_, ?_⟩
  · have hbelow : t < bounds.findIdx (fun b => decide (¬ b ≤ s)) := by
      rw [partitionPoint] at ht
      omega
    have hle := List.not_of_lt_findIdx hbelow
    simpa using hle
  · have hgt := List.findIdx_getElem (p := fun b => decide (¬ b ≤ s)) (w := hlt)
    rw [partitionPoint] at ht
    simp only [ht] at hgt
    simpa using hgt

/-! ### Buckets -/

/-- The keys of `done` are in the buckets of their ranges or deferred, each once. -/
structure Bucketed (bounds : List ℕ) (startOf : U64 → U64) (done : List U64)
    (buckets : List (List U64)) (deferred : List U64) : Prop where
  length : buckets.length + 1 = bounds.length
  perm : (buckets.flatten ++ deferred).Perm done
  start : ∀ t lo hi bucket, bounds[t]? = some lo → bounds[t + 1]? = some hi →
    buckets[t]? = some bucket → ∀ k ∈ bucket, lo ≤ (startOf k).toNat ∧ (startOf k).toNat < hi

/-- Adding to one bucket adds to all of them together. -/
theorem flatten_set_perm {buckets : List (List U64)} {t : ℕ} {bucket : List U64}
    (h : buckets[t]? = some bucket) (k : U64) :
  (buckets.set t (bucket ++ [k])).flatten.Perm (buckets.flatten ++ [k])
  := by
  induction buckets generalizing t with
  | nil => nomatch h
  | cons b buckets ih =>
      cases t with
      | zero =>
          rw [List.getElem?_cons_zero, Option.some.injEq] at h
          subst h
          rw [List.set_cons_zero, List.flatten_cons, List.flatten_cons, List.append_assoc,
            List.append_assoc]
          apply List.perm_append_comm.append_left b
      | succ t =>
          rw [List.getElem?_cons_succ] at h
          rw [List.set_cons_succ, List.flatten_cons, List.flatten_cons, List.append_assoc]
          apply (ih h).append_left b

theorem bucketLoop_eq_some {bounds : List ℕ} {n : ℕ} (hbounds : IsBounds bounds n)
    {startOf : U64 → U64} {keys done : List U64} (hkeys : ∀ k ∈ keys, (startOf k).toNat < n)
    {buckets : List (List U64)} {deferred : List U64}
    (h : Bucketed bounds startOf done buckets deferred) :
  ∃ buckets' deferred',
    bucketLoop bounds (bounds.length - 1) startOf keys buckets deferred
        = some (buckets', deferred')
      ∧ Bucketed bounds startOf (done ++ keys) buckets' deferred'
  := by
  induction keys generalizing done buckets deferred with
  | nil => exact ⟨buckets, deferred, rfl, by rwa [List.append_nil]⟩
  | cons k keys ih =>
      obtain ⟨t, lo, hi, hpoint, hlo, hhi, hle, hlt⟩ :=
        hbounds.exists_range (hkeys k (List.mem_cons_self ..))
      have hrest : ∀ x ∈ keys, (startOf x).toNat < n :=
        fun x hx => hkeys x (List.mem_cons_of_mem k hx)
      have hdone : done ++ k :: keys = (done ++ [k]) ++ keys := by simp
      rw [bucketLoop]
      simp only [hpoint, Nat.add_sub_cancel, hhi, Option.bind_eq_bind, Option.bind_some, hdone]
      rw [if_neg (Nat.succ_ne_zero t)]
      split
      · apply ih hrest
        refine ⟨h.length, ?_, h.start⟩
        rw [← List.append_assoc]
        apply h.perm.append_right [k]
      · obtain ⟨ht, -⟩ := List.getElem?_eq_some_iff.mp hhi
        have htb : t < buckets.length := by
          have := h.length
          omega
        have hbucket : buckets[t]? = some buckets[t] := List.getElem?_eq_getElem htb
        rw [hbucket, Option.bind_some]
        apply ih hrest
        constructor
        · rw [List.length_set, h.length]
        · have hlast : (buckets.flatten ++ [k] ++ deferred).Perm
              (buckets.flatten ++ deferred ++ [k]) := by
            rw [List.append_assoc, List.append_assoc]
            apply List.perm_append_comm.append_left _
          apply ((flatten_set_perm hbucket k).append_right deferred).trans
          apply hlast.trans
          apply h.perm.append_right [k]
        · intro u lo' hi' bucket hlo' hhi' hu x hx
          by_cases hut : u = t
          · subst hut
            rw [List.getElem?_set_self htb, Option.some.injEq] at hu
            subst hu
            rcases List.mem_append.mp hx with hx | hx
            · apply h.start u lo' hi' _ hlo' hhi' hbucket x hx
            · rw [List.mem_singleton] at hx
              rw [hlo, Option.some.injEq] at hlo'
              rw [hhi, Option.some.injEq] at hhi'
              rw [hx, ← hlo', ← hhi']
              exact ⟨hle, hlt⟩
          · rw [List.getElem?_set_ne (Ne.symm hut)] at hu
            apply h.start u lo' hi' bucket hlo' hhi' hu x hx

/-- Every key finds its range, and the buckets and the deferred keys hold each key once. -/
theorem bucketKeys_eq_some {bounds : List ℕ} {n : ℕ} (hbounds : IsBounds bounds n) (hn : 0 < n)
    {startOf : U64 → U64} {keys : List U64} (hkeys : ∀ k ∈ keys, (startOf k).toNat < n) :
  ∃ buckets deferred, bucketKeys bounds startOf keys = some (buckets, deferred)
    ∧ Bucketed bounds startOf keys buckets deferred
  := by
  obtain ⟨t, _, _, -, -, hhi, -, -⟩ := hbounds.exists_range hn
  obtain ⟨ht, -⟩ := List.getElem?_eq_some_iff.mp hhi
  have hempty : Bucketed bounds startOf [] (List.replicate (bounds.length - 1) []) [] := by
    constructor
    · rw [List.length_replicate]
      omega
    · simp
    · intro u _ _ bucket _ _ hu x hx
      have hnil := List.eq_of_mem_replicate (List.mem_of_getElem? hu)
      subst hnil
      nomatch hx
  rw [bucketKeys, if_neg (by omega)]
  have hrun := bucketLoop_eq_some hbounds hkeys hempty
  rwa [List.nil_append] at hrun

/-! ### Slices -/

/-- Slices that follow one another from slot `base` on. -/
def Contiguous {α : Type*} : ℕ → List (ℕ × List α) → Prop
  | _, [] => True
  | base, s :: slices => s.1 = base ∧ Contiguous (base + s.2.length) slices

/-- Boundaries from `consumed` to the end of the rows split all of them. -/
theorem splitSlices_eq_some {α : Type*} {bounds : List ℕ} (hsorted : bounds.Pairwise (· < ·))
    {consumed : ℕ} (rest : List α) (hhead : bounds.head? = some consumed)
    (hlast : bounds.getLast? = some (consumed + rest.length)) :
  ∃ slices, splitSlices bounds consumed rest = some (slices, [])
    ∧ Contiguous consumed slices ∧ (slices.map Prod.snd).flatten = rest
    ∧ slices.length + 1 = bounds.length
    ∧ ∀ t s, slices[t]? = some s →
        bounds[t]? = some s.1 ∧ bounds[t + 1]? = some (s.1 + s.2.length)
  := by
  induction bounds generalizing consumed rest with
  | nil => nomatch hhead
  | cons lo bounds ih =>
      rw [List.head?_cons, Option.some.injEq] at hhead
      subst hhead
      cases bounds with
      | nil =>
          rw [List.getLast?_singleton, Option.some.injEq] at hlast
          have hnil : rest = [] := List.length_eq_zero_iff.mp (by omega)
          subst hnil
          use [], rfl, trivial, rfl, rfl
          intro t s hs
          nomatch hs
      | cons hi bounds =>
          obtain ⟨hlo, hsorted'⟩ := List.pairwise_cons.mp hsorted
          have hlt : lo < hi := hlo hi (List.mem_cons_self ..)
          rw [List.getLast?_cons_cons] at hlast
          have hle : lo + (hi - lo) ≤ lo + rest.length := by
            have hmem : lo + rest.length ∈ hi :: bounds := List.mem_of_getLast? hlast
            rcases List.mem_cons.mp hmem with heq | hmem
            · omega
            · have := (List.pairwise_cons.mp hsorted').1 _ hmem
              omega
          have hlen : (rest.take (hi - lo)).length = hi - lo := by
            rw [List.length_take]
            omega
          have hconsumed : lo + (hi - lo) = hi := by omega
          have hlast' : (hi :: bounds).getLast? = some (hi + (rest.drop (hi - lo)).length) := by
            rw [hlast, List.length_drop]
            congr 1
            omega
          obtain ⟨slices, hsplit, hcontig, hflat, hslen, hget⟩ := ih hsorted' _ rfl hlast'
          refine ⟨(lo, rest.take (hi - lo)) :: slices, ?_, ?_, ?_, ?_, ?_⟩
          · rw [splitSlices, if_pos ⟨by omega, by omega⟩, hconsumed, hsplit]
            rfl
          · use rfl
            rw [hlen, hconsumed]
            apply hcontig
          · rw [List.map_cons, List.flatten_cons, hflat, List.take_append_drop]
          · rw [List.length_cons, List.length_cons, hslen]
          · intro t s hs
            cases t with
            | zero =>
                rw [List.getElem?_cons_zero, Option.some.injEq] at hs
                subst hs
                use rfl
                rw [hlen, hconsumed]
                rfl
            | succ t => apply hget t s hs

/-- The rows are cut at the boundaries into slices. -/
structure Sliced {α : Type*} (bounds : List ℕ) (rows : List α) (slices : List (ℕ × List α)) :
    Prop where
  contiguous : Contiguous 0 slices
  flatten : (slices.map Prod.snd).flatten = rows
  length : slices.length + 1 = bounds.length
  boundaries : ∀ t s, slices[t]? = some s →
    bounds[t]? = some s.1 ∧ bounds[t + 1]? = some (s.1 + s.2.length)

theorem IsBounds.exists_sliced {α : Type*} {bounds : List ℕ} {n : ℕ} (h : IsBounds bounds n)
    {rows : List α} (hlen : rows.length = n) :
  ∃ slices, splitSlices bounds 0 rows = some (slices, []) ∧ Sliced bounds rows slices
  := by
  have hlast : bounds.getLast? = some (0 + rows.length) := by
    rw [Nat.zero_add, hlen, h.last]
  obtain ⟨slices, hsplit, hcontig, hflat, hslen, hget⟩ :=
    splitSlices_eq_some h.sorted rows h.head hlast
  exact ⟨slices, hsplit, hcontig, hflat, hslen, hget⟩

/-- Each slice of equal rows is of such rows. -/
theorem Sliced.eq_replicate {α : Type*} {bounds : List ℕ} {m : ℕ} {x : α}
    {slices : List (ℕ × List α)} (h : Sliced bounds (List.replicate m x) slices)
    {s : ℕ × List α} (hs : s ∈ slices) :
  s.2 = List.replicate s.2.length x
  := by
  apply List.eq_replicate_of_mem
  intro y hy
  apply List.eq_of_mem_replicate
  rw [← h.flatten, List.mem_flatten]
  exact ⟨s.2, List.mem_map_of_mem hs, hy⟩

/-- Two lists of rows cut at the same boundaries have slices of the same lengths. -/
theorem Sliced.forall₂_length {α β : Type*} {bounds : List ℕ} {rows : List α} {rows' : List β}
    {slices : List (ℕ × List α)} {slices' : List (ℕ × List β)} (h : Sliced bounds rows slices)
    (h' : Sliced bounds rows' slices') :
  List.Forall₂ (fun s s' => s'.2.length = s.2.length) slices slices'
  := by
  have hlen := h.length
  have hlen' := h'.length
  apply List.forall₂_iff_get.mpr
  use by omega
  intro t hs hs'
  obtain ⟨hlo, hhi⟩ := h.boundaries t _ (List.getElem?_eq_getElem hs)
  obtain ⟨hlo', hhi'⟩ := h'.boundaries t _ (List.getElem?_eq_getElem hs')
  rw [hlo, Option.some.injEq] at hlo'
  rw [hhi, Option.some.injEq] at hhi'
  change slices'[t].2.length = slices[t].2.length
  omega

theorem Sliced.length_eq {α β : Type*} {bounds : List ℕ} {rows : List α} {rows' : List β}
    {slices : List (ℕ × List α)} {slices' : List (ℕ × List β)} (h : Sliced bounds rows slices)
    (h' : Sliced bounds rows' slices') {t : ℕ} {s : ℕ × List α} {s' : ℕ × List β}
    (hs : slices[t]? = some s) (hs' : slices'[t]? = some s') :
  s'.2.length = s.2.length
  := by
  obtain ⟨hlo, hhi⟩ := h.boundaries t s hs
  obtain ⟨hlo', hhi'⟩ := h'.boundaries t s' hs'
  rw [hlo, Option.some.injEq] at hlo'
  rw [hhi, Option.some.injEq] at hhi'
  omega

/-- The keys of each bucket start in the slice of their range. -/
theorem Bucketed.forall₂ {α : Type*} {bounds : List ℕ} {startOf : U64 → U64} {done : List U64}
    {buckets : List (List U64)} {deferred : List U64}
    (h : Bucketed bounds startOf done buckets deferred) {rows : List α}
    {slices : List (ℕ × List α)} (hs : Sliced bounds rows slices) :
  List.Forall₂ (fun s bucket => ∀ k ∈ bucket,
    s.1 ≤ (startOf k).toNat ∧ (startOf k).toNat < s.1 + s.2.length) slices buckets
  := by
  have hlen := hs.length
  have hlen' := h.length
  apply List.forall₂_iff_get.mpr
  use by omega
  intro t ht ht' k hk
  obtain ⟨hlo, hhi⟩ := hs.boundaries t _ (List.getElem?_eq_getElem ht)
  apply h.start t _ _ _ hlo hhi (List.getElem?_eq_getElem ht') k hk

/-! ### Banding in ranges -/

/-- The rows, with those from slot `base` on replaced by a slice. -/
def splice {α : Type*} (rows : List α) (base : ℕ) (slice : List α) : List α :=
  rows.take base ++ slice ++ rows.drop (base + slice.length)

/-- The rows before a range, in it and after it. -/
theorem take_append_slice {α : Type*} (rows : List α) (base len : ℕ) :
  rows.take base ++ (rows.drop base).take len ++ rows.drop (base + len) = rows
  := by
  rw [List.append_assoc, ← List.drop_drop, List.take_append_drop, List.take_append_drop]

/-- The rows of a range within the rows. -/
theorem length_slice {α : Type*} {rows : List α} {base len : ℕ} (h : base + len ≤ rows.length) :
  (rows.take base).length = base ∧ ((rows.drop base).take len).length = len
  := by
  rw [List.length_take, List.length_take, List.length_drop]
  omega

/-- Reading a slice between other rows. -/
theorem getElem?_between {α : Type*} (pre post : List α) {slice : List α} {i : ℕ}
    (hi : i < slice.length) :
  (pre ++ slice ++ post)[pre.length + i]? = some slice[i]
  := by
  rw [List.append_assoc, List.getElem?_append_right (Nat.le_add_right _ _),
    Nat.add_sub_cancel_left, List.getElem?_append_left hi, List.getElem?_eq_getElem hi]

/-- A row read within a slice is in the slice. -/
theorem getElem?_of_between {α : Type*} {pre post slice : List α} {i : ℕ} (hi : i < slice.length)
    {a : α} (h : (pre ++ slice ++ post)[pre.length + i]? = some a) :
  slice[i]? = some a
  := by
  rw [getElem?_between pre post hi] at h
  rw [List.getElem?_eq_getElem hi, h]

/-- Writing to a slice between other rows. -/
theorem set_between {α : Type*} (pre post : List α) {slice : List α} {i : ℕ}
    (hi : i < slice.length) (a : α) :
  pre ++ slice.set i a ++ post = (pre ++ slice ++ post).set (pre.length + i) a
  := by
  rw [List.append_assoc, List.append_assoc, List.set_append_right _ _ (Nat.le_add_right _ _),
    Nat.add_sub_cancel_left, List.set_append_left _ _ hi]

/-- The keys held once one more is done. -/
theorem insert_union_mem (held : Set U64) (done : List U64) (k : U64) :
  insert k (held ∪ {x | x ∈ done}) = held ∪ {x | x ∈ done ++ [k]}
  := by
  ext x
  simp only [Set.mem_insert_iff, Set.mem_union, Set.mem_ofPred_eq, List.mem_append,
    List.mem_singleton]
  tauto

/-- The keys held once two lists of keys are done. -/
theorem union_union_mem (held : Set U64) (done done' : List U64) :
  held ∪ {x | x ∈ done} ∪ {x | x ∈ done'} = held ∪ {x | x ∈ done ++ done'}
  := by
  ext x
  simp only [Set.mem_union, Set.mem_ofPred_eq, List.mem_append, or_assoc]

/-- Each key is banded by a worker, deferred or spilled. -/
theorem union_eq_keys {keys done deferred : List U64} {buckets spilled : List (List U64)}
    (hkeys : (buckets.flatten ++ deferred).Perm keys)
    (hdone : (done ++ spilled.flatten).Perm buckets.flatten) :
  (∅ ∪ {k | k ∈ done} ∪ {k | k ∈ deferred} ∪ {k | k ∈ spilled.flatten} : Set U64)
    = {k | k ∈ keys}
  := by
  ext k
  have hk := hkeys.mem_iff (a := k)
  have hd := hdone.mem_iff (a := k)
  rw [List.mem_append] at hk hd
  simp only [Set.mem_union, Set.mem_empty_iff_false, Set.mem_ofPred_eq]
  tauto

end Pleat
