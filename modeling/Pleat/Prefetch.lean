import Pleat.Data.CacheLines
import Pleat.Homogeneous.Solution
import Pleat.Sizing
import Pleat.Standard.Solution

/-!
# What a prefetch covers

A query reads a segment for each column in the start block of its key, and in the next
block when its start bit is not zero.  A prefetch touches one segment for each cache line's
worth of these two blocks, and the last segment of the second one.

When the start slot does not lie in the last block, every segment that the query can read
shares a line with a touched one, wherever the storage starts.  There is no block after the
last one, so that for a key in the last block the touch of the last segment is passed over;
the segments past the last touched one are then covered only if they are on its line.
-/

namespace Pleat

open Bits CacheLines

/-- The bytes of a cache line. -/
def lineBytes : ℕ := 64

/-! ### The segments a query reads -/

section Reads

variable {w : ℕ}

/-- The loop of a query over the columns that are left, with the segments it reads: one of the
block from `lower` on and one of the block from `upper` on for each column, up to the first
column that disagrees. -/
def readsLoop (segments : List (BitVec w)) (lower upper : ℕ)
    (agrees : ℕ → BitVec w → BitVec w → Bool) : List ℕ → Option (Bool × List ℕ)
  | [] => some (true, [])
  | j :: columns => do
      let lo ← segments[lower + j]?
      let hi ← segments[upper + j]?
      if agrees j lo hi then
        let (present, reads) ← readsLoop segments lower upper agrees columns
        some (present, [lower + j, upper + j] ++ reads)
      else
        some (false, [lower + j, upper + j])

variable {segments : List (BitVec w)} {lower upper : ℕ} {agrees : ℕ → BitVec w → BitVec w → Bool}

/-- The answer of the loop, one column at a time. -/
theorem map_fst_readsLoop_cons (j : ℕ) (columns : List ℕ) :
  (readsLoop segments lower upper agrees (j :: columns)).map Prod.fst
    = (segments[lower + j]?).bind fun lo => (segments[upper + j]?).bind fun hi =>
        if agrees j lo hi then
          (readsLoop segments lower upper agrees columns).map Prod.fst
        else
          some false
  := by
  rw [readsLoop]
  cases segments[lower + j]? with
  | none => rfl
  | some lo =>
      cases segments[upper + j]? with
      | none => rfl
      | some hi =>
          simp only [Option.bind_eq_bind, Option.bind_some]
          split
          · rw [Option.map_bind, Option.map_eq_bind]
            rfl
          · rfl

/-- Only segments of the columns are read. -/
theorem mem_of_readsLoop {columns reads : List ℕ} {present : Bool}
    (h : readsLoop segments lower upper agrees columns = some (present, reads)) {i : ℕ}
    (hi : i ∈ reads) :
  ∃ j ∈ columns, i = lower + j ∨ i = upper + j
  := by
  induction columns generalizing present reads with
  | nil =>
      rw [readsLoop, Option.some.injEq, Prod.mk.injEq] at h
      rw [← h.2] at hi
      cases hi
  | cons j columns ih =>
      rw [readsLoop] at h
      simp only [Option.bind_eq_bind, Option.bind_eq_some_iff] at h
      obtain ⟨lo, -, hi', -, h⟩ := h
      have hhere : ∀ k ∈ [lower + j, upper + j], ∃ m ∈ j :: columns, k = lower + m ∨ k = upper + m := by
        intro k hk
        use j, List.mem_cons_self ..
        simpa using hk
      split at h
      · simp only [Option.bind_eq_some_iff, Option.some.injEq, Prod.mk.injEq] at h
        obtain ⟨⟨present', reads'⟩, hrest, -, rfl⟩ := h
        rcases List.mem_append.mp hi with hi | hi
        · apply hhere i hi
        · obtain ⟨m, hm, heq⟩ := ih hrest hi
          exact ⟨m, List.mem_cons_of_mem j hm, heq⟩
      · rw [Option.some.injEq, Prod.mk.injEq] at h
        apply hhere i
        rw [h.2]
        apply hi

/-- A query that says yes reads the segments of all columns. -/
theorem mem_readsLoop_of_present {columns reads : List ℕ}
    (h : readsLoop segments lower upper agrees columns = some (true, reads)) {j : ℕ}
    (hj : j ∈ columns) :
  lower + j ∈ reads ∧ upper + j ∈ reads
  := by
  induction columns generalizing reads with
  | nil => cases hj
  | cons k columns ih =>
      rw [readsLoop] at h
      simp only [Option.bind_eq_bind, Option.bind_eq_some_iff] at h
      obtain ⟨lo, -, hi, -, h⟩ := h
      split at h
      · simp only [Option.bind_eq_some_iff, Option.some.injEq, Prod.mk.injEq] at h
        obtain ⟨⟨present, reads'⟩, hrest, rfl, rfl⟩ := h
        rcases List.mem_cons.mp hj with rfl | hj
        · simp
        · obtain ⟨hlo, hhi⟩ := ih hrest hj
          exact ⟨List.mem_append_right _ hlo, List.mem_append_right _ hhi⟩
      · simp at h

/-- The segments of the columns of one block, or of two that follow one another. -/
theorem mem_blocks_iff {R seg maybe i : ℕ} (hmaybe : maybe = 0 ∨ maybe = R) :
  (∃ j < R, i = seg + j ∨ i = seg + maybe + j) ↔ seg ≤ i ∧ i < seg + maybe + R
  := by
  constructor
  · rintro ⟨j, hj, rfl | rfl⟩ <;> omega
  · rintro ⟨hle, hlt⟩
    by_cases hfirst : i < seg + R
    · exact ⟨i - seg, by omega, .inl (by omega)⟩
    · exact ⟨i - (seg + maybe), by omega, .inr (by omega)⟩

/-- A row with its low bit set has segments that satisfy its equation in every column. -/
theorem exists_segments (R : ℕ) {n i : ℕ} (hn : n % w = 0) (hi : i + w ≤ n) {c : BitVec w}
    (hc : c.getLsbD 0 = true) (b : U32) :
  ∃ segments : List (BitVec w), segments.length = n / w * R
    ∧ ∀ j < R, ∑ k ∈ Finset.range w, bit c k * cell R segments (i + k) j = bit b j
  := by
  have hw : 0 < w := BitVec.lt_of_getLsbD hc
  -- Back-substitute a table that has the row at every slot.
  use backSubstitute R n (fun _ => (c, b)), length_backSubstitute R _ hn
  intro j hj
  have hsum := sum_solutionBit_eq (n := n) (fun _ => (c, b)) j (show i < n by omega) hc
  apply Eq.trans _ hsum
  apply Finset.sum_congr rfl
  intro k hk
  have hk' := Finset.mem_range.mp hk
  rw [cell_backSubstitute _ hn (by omega) hj]

end Reads

/-! ### The lines a prefetch touches -/

section Lines

variable {R w n perLine elemSize addr len i : ℕ}

/-- The segments of a solution of `len` segments that a prefetch from `seg` on touches. -/
def touched (R perLine len seg : ℕ) : Set ℕ :=
  {t | t ∈ (prefetchIndices R perLine seg).filter (· < len)}

theorem mem_touched {seg t : ℕ} (hperLine : 0 < perLine) :
  t ∈ touched R perLine len seg
    ↔ ((∃ k, t = seg + k * perLine ∧ t < seg + 2 * R - 1) ∨ t = seg + 2 * R - 1) ∧ t < len
  := by
  rw [touched, Set.mem_ofPred_eq, List.mem_filter, mem_prefetchIndices hperLine,
    decide_eq_true_iff]

/-- Where there is a next block, all segments of the two blocks are covered. -/
theorem covers_of_next (h : Aligned lineBytes elemSize perLine addr) {seg k : ℕ}
    (hlen : seg + 2 * R ≤ len) (hk : seg ≤ k) (hk' : k < seg + 2 * R) :
  Covers lineBytes elemSize addr (touched R perLine len seg) k
  := by
  have hsteps : ∀ m, seg + m * perLine < seg + 2 * R - 1 →
      seg + m * perLine ∈ touched R perLine len seg := by
    intro m hm
    rw [mem_touched h.positive]
    exact ⟨.inl ⟨m, rfl, hm⟩, by omega⟩
  have hlast : seg + 2 * R - 1 ∈ touched R perLine len seg := by
    rw [mem_touched h.positive]
    exact ⟨.inr rfl, by omega⟩
  apply h.covers_of_steps hsteps hlast hk (by omega)

/-- In the last block the segments are covered when those past the last touched one are on its
line. -/
theorem covers_last_iff (h : Aligned lineBytes elemSize perLine addr) {seg : ℕ} (hR : 1 ≤ R)
    (hlen : seg + R = len) :
  (∀ k, seg ≤ k → k < seg + R → Covers lineBytes elemSize addr (touched R perLine len seg) k)
    ↔ (addr / elemSize + seg) % perLine + (R - 1) % perLine < perLine
  := by
  have hsplit := Nat.div_add_mod' (R - 1) perLine
  have hmod := Nat.mod_lt (R - 1) h.positive
  -- The last segment touched, and the last one of the block.
  set t := seg + (R - 1) / perLine * perLine with ht
  have htouched : t ∈ touched R perLine len seg := by
    rw [mem_touched h.positive]
    exact ⟨.inl ⟨_, ht, by omega⟩, by omega⟩
  have hlast : ∀ t' ∈ touched R perLine len seg, t' ≤ t := by
    intro t' ht'
    obtain ⟨⟨k, rfl, -⟩ | rfl, hlt⟩ := (mem_touched h.positive).mp ht'
    · have hk : k ≤ (R - 1) / perLine := by
        rw [Nat.le_div_iff_mul_le h.positive]
        omega
      have hmul := Nat.mul_le_mul_right perLine hk
      omega
    · omega
  have hend : seg + (R - 1) = t + (R - 1) % perLine := by omega
  have hline : line lineBytes elemSize addr (seg + (R - 1)) = line lineBytes elemSize addr t
      ↔ (addr / elemSize + seg) % perLine + (R - 1) % perLine < perLine := by
    rw [hend, h.line_add_eq_iff, ht, ← Nat.add_assoc, Nat.add_mul_mod_self_right]
  rw [← hline]
  constructor
  · intro hall
    apply (h.covers_iff_of_last htouched hlast (by omega)).mp (hall _ (by omega) (by omega))
  · intro hsame k hk hk'
    rcases Nat.le_total k t with hle | hle
    · apply h.covers_of_steps _ htouched hk hle
      intro m hm
      rw [mem_touched h.positive]
      exact ⟨.inl ⟨m, rfl, by omega⟩, by omega⟩
    · rw [h.covers_iff_of_last htouched hlast hle]
      have hhigh := h.line_mono (show k ≤ seg + (R - 1) by omega)
      rw [hsame] at hhigh
      apply Nat.le_antisymm hhigh (h.line_mono hle)

/-- The segments that a query for a row at slot `i` can read are covered exactly when the slot
does not lie in the last block, or the segments past the last touched one are on its line. -/
theorem covers_iff (h : Aligned lineBytes elemSize perLine addr) (hR : 1 ≤ R) (hw : 0 < w)
    (hn : n % w = 0) (hlen : len = n / w * R) (hi : i + w ≤ n) :
  (∀ k, i / w * R ≤ k → k < i / w * R + (if i % w ≠ 0 then R else 0) + R →
      Covers lineBytes elemSize addr (touched R perLine len (i / w * R)) k)
    ↔ i / w + 1 < n / w
      ∨ (addr / elemSize + (len - R)) % perLine + (R - 1) % perLine < perLine
  := by
  have hblock : i / w + 1 ≤ n / w := block_lt hn hi hw
  rcases Nat.lt_or_eq_of_le hblock with hnext | hlast
  · have hend : i / w * R + 2 * R ≤ len := by
      rw [hlen, ← Nat.add_mul]
      apply Nat.mul_le_mul_right R hnext
    refine iff_of_true ?_ (.inl hnext)
    intro k hk hk'
    apply covers_of_next h hend hk
    split at hk' <;> omega
  · have hbit : ¬ i % w ≠ 0 := by
      intro hbit
      have hnext := succ_block_lt hn hi hbit
      omega
    have hend : i / w * R + R = len := by
      rw [hlen, ← hlast, Nat.add_mul, Nat.one_mul]
    have hseg : len - R = i / w * R := by omega
    rw [if_neg hbit, Nat.add_zero, covers_last_iff h hR hend, hseg]
    constructor
    · exact Or.inr
    · rintro (hnext | htail)
      · omega
      · apply htail

end Lines

/-! ### Homogeneous filters -/

namespace Solution

variable {R : ℕ}

/-- A query with the segments it reads. -/
def containsReads (s : Solution R) (key : U64) : Option (Bool × List ℕ) :=
  let h := ribbonHash key s.rawSeed
  let startSlot := (start h s.numStarts).toNat
  let startBlock := startSlot / W
  let segmentNum := startBlock * R
  let startBit := startSlot % W
  let cr := coeffRow h
  let crLeft := cr <<< startBit
  let crRight := cr >>> ((W - startBit) % W)
  let maybe := if startBit ≠ 0 then R else 0
  let even := fun (_ : ℕ) (lo hi : U64) => (lo &&& crLeft ||| hi &&& crRight).cpop.toNat % 2 == 0
  readsLoop s.segments segmentNum (segmentNum + maybe) even (List.range R)

/-- A query for the key can read segment `i`: with some segments in the place of those of the
solution it does. -/
def CanRead (s : Solution R) (key : U64) (i : ℕ) : Prop :=
  ∃ (segments : List U64) (present : Bool) (reads : List ℕ),
    segments.length = s.segments.length
      ∧ containsReads (R := R) { s with segments } key = some (present, reads) ∧ i ∈ reads

theorem map_fst_readsLoop {segments : List U64} {segmentNum maybe : ℕ} {crLeft crRight : U64}
    {columns : List ℕ} :
  (readsLoop segments segmentNum (segmentNum + maybe)
      (fun _ lo hi => (lo &&& crLeft ||| hi &&& crRight).cpop.toNat % 2 == 0) columns).map Prod.fst
    = containsLoop segments segmentNum maybe crLeft crRight columns
  := by
  induction columns with
  | nil => rfl
  | cons i columns ih =>
      rw [map_fst_readsLoop_cons, containsLoop, ih]
      apply Option.bind_congr
      intro lo _
      apply Option.bind_congr
      intro hi _
      simp only [beq_iff_eq, ite_not]

/-- The answer with the reads is the answer of the query. -/
theorem map_fst_containsReads (s : Solution R) (key : U64) :
  (s.containsReads key).map Prod.fst = s.contains key
  := map_fst_readsLoop

/-- The segments a query can read: those of the start block, and of the next one when the start
bit is not zero. -/
theorem canRead_iff {s : Solution R} {n : ℕ} (hs : s.WellFormed n) (key : U64) (i : ℕ) :
  let startSlot := (start (ribbonHash key s.rawSeed) s.numStarts).toNat
  s.CanRead key i
    ↔ startSlot / W * R ≤ i ∧ i < startSlot / W * R + (if startSlot % W ≠ 0 then R else 0) + R
  := by
  intro startSlot
  rw [← mem_blocks_iff (by split <;> simp)]
  constructor
  · rintro ⟨segments, present, reads, -, hreads, hi⟩
    obtain ⟨j, hj, heq⟩ := mem_of_readsLoop hreads hi
    exact ⟨j, List.mem_range.mp hj, heq⟩
  · rintro ⟨j, hj, heq⟩
    have hle := start_add_le hs.slots (ribbonHash key s.rawSeed)
    rw [← hs.starts] at hle
    -- With segments that satisfy the equation of the key, the query reads every column.
    obtain ⟨segments, hlen, hsum⟩ := exists_segments R hs.blocks hle
      (coeffRow_odd (ribbonHash key s.rawSeed)) 0
    have hwf : WellFormed (R := R) { s with segments } n := { hs with segments := hlen }
    have hpresent : contains (R := R) { s with segments } key = some true := by
      rw [contains_eq hwf, Option.some.injEq, decide_eq_true_iff]
      intro m hm
      exact (hsum m hm).trans (congrFun bit_zero m)
    rw [← map_fst_containsReads, Option.map_eq_some_iff] at hpresent
    obtain ⟨⟨present, reads⟩, hreads, rfl⟩ := hpresent
    obtain ⟨hlo, hhi⟩ := mem_readsLoop_of_present hreads (List.mem_range.mpr hj)
    refine ⟨segments, true, reads, hlen.trans hs.segments.symm, hreads, ?_⟩
    rcases heq with rfl | rfl
    · apply hlo
    · apply hhi

end Solution

/-! ### Standard filters -/

namespace Solution128

variable {R : ℕ}

/-- A query with the segments it reads. -/
def containsReads (s : Solution128 R) (key : U64) : Option (Bool × List ℕ) := do
  let h := ribbonHash key (s.rawSeed.setWidth 64)
  let startSlot := (start h s.numStarts).toNat
  let seg := startSlot / W128 * R
  let startBit := startSlot % W128
  let cr := coeffRow128 h
  let expected := resultRow h
  let crLeft := cr <<< startBit
  let crRight := cr >>> ((W128 - startBit) % W128)
  let maybe := if startBit ≠ 0 then R else 0
  let _ ← slice s.segments seg (seg + R)
  let _ ← slice s.segments (seg + maybe) (seg + maybe + R)
  let agrees := fun i (lo hi : U128) =>
    let soln := lo &&& crLeft ||| hi &&& crRight
    let folded : U64 := soln.setWidth 64 ^^^ (soln >>> 64).setWidth 64
    folded.cpop.toNat % 2 == (expected >>> i &&& 1).toNat
  readsLoop s.segments seg (seg + maybe) agrees (List.range R)

/-- A query for the key can read segment `i`: with some segments in the place of those of the
solution it does. -/
def CanRead (s : Solution128 R) (key : U64) (i : ℕ) : Prop :=
  ∃ (segments : List U128) (present : Bool) (reads : List ℕ),
    segments.length = s.segments.length
      ∧ containsReads (R := R) { s with segments } key = some (present, reads) ∧ i ∈ reads

theorem map_fst_readsLoop {segments lo hi : List U128} {seg upper : ℕ} {crLeft crRight : U128}
    {expected : U32} {columns : List ℕ}
    (hread : ∀ i ∈ columns, lo[i]? = segments[seg + i]? ∧ hi[i]? = segments[upper + i]?) :
  (readsLoop segments seg upper (fun i lo hi =>
      let soln := lo &&& crLeft ||| hi &&& crRight
      let folded : U64 := soln.setWidth 64 ^^^ (soln >>> 64).setWidth 64
      folded.cpop.toNat % 2 == (expected >>> i &&& 1).toNat) columns).map Prod.fst
    = containsLoop lo hi crLeft crRight expected columns
  := by
  induction columns with
  | nil => rfl
  | cons i columns ih =>
      obtain ⟨hlo, hhi⟩ := hread i (List.mem_cons_self ..)
      rw [map_fst_readsLoop_cons, containsLoop, hlo, hhi,
        ih (fun j hj => hread j (List.mem_cons_of_mem i hj))]
      apply Option.bind_congr
      intro loI _
      apply Option.bind_congr
      intro hiI _
      simp only [beq_iff_eq, ne_eq, ite_not]

/-- The answer with the reads is the answer of the query. -/
theorem map_fst_containsReads (s : Solution128 R) (key : U64) :
  (s.containsReads key).map Prod.fst = s.contains key
  := by
  have hslice : ∀ {a : ℕ} {l : List U128}, slice s.segments a (a + R) = some l →
      ∀ i ∈ List.range R, l[i]? = s.segments[a + i]? := by
    intro a l hl i hi
    rw [slice] at hl
    split at hl
    · rw [Option.some.injEq, Nat.add_sub_cancel_left] at hl
      rw [← hl, List.getElem?_take_of_lt (List.mem_range.mp hi), List.getElem?_drop]
    · cases hl
  rw [containsReads, contains]
  simp only [Option.bind_eq_bind]
  rw [Option.map_bind]
  apply Option.bind_congr
  intro lo hlo
  rw [Function.comp_apply, Option.map_bind]
  apply Option.bind_congr
  intro hi hhi
  apply map_fst_readsLoop
  intro i hi'
  exact ⟨hslice hlo i hi', hslice hhi i hi'⟩

/-- The segments a query can read: those of the start block, and of the next one when the start
bit is not zero. -/
theorem canRead_iff {s : Solution128 R} {n : ℕ} (hs : s.WellFormed n) (key : U64) (i : ℕ) :
  let startSlot := (start (ribbonHash key (s.rawSeed.setWidth 64)) s.numStarts).toNat
  s.CanRead key i
    ↔ startSlot / W128 * R ≤ i
      ∧ i < startSlot / W128 * R + (if startSlot % W128 ≠ 0 then R else 0) + R
  := by
  intro startSlot
  rw [← mem_blocks_iff (by split <;> simp)]
  constructor
  · rintro ⟨segments, present, reads, -, hreads, hi⟩
    simp only [containsReads, Option.bind_eq_bind, Option.bind_eq_some_iff] at hreads
    obtain ⟨_, -, _, -, hreads⟩ := hreads
    obtain ⟨j, hj, heq⟩ := mem_of_readsLoop hreads hi
    exact ⟨j, List.mem_range.mp hj, heq⟩
  · rintro ⟨j, hj, heq⟩
    have hle := start_add_le hs.slots (ribbonHash key (s.rawSeed.setWidth 64))
    rw [← hs.starts] at hle
    -- With segments that satisfy the equation of the key, the query reads every column.
    obtain ⟨segments, hlen, hsum⟩ := exists_segments R hs.blocks hle
      (coeffRow128_odd (ribbonHash key (s.rawSeed.setWidth 64)))
      (resultRow (ribbonHash key (s.rawSeed.setWidth 64)))
    have hwf : WellFormed (R := R) { s with segments } n := { hs with segments := hlen }
    have hpresent : contains (R := R) { s with segments } key = some true := by
      rw [contains_eq hwf, Option.some.injEq, decide_eq_true_iff]
      apply hsum
    rw [← map_fst_containsReads, Option.map_eq_some_iff] at hpresent
    obtain ⟨⟨present, reads⟩, hreads, rfl⟩ := hpresent
    have hloop := hreads
    simp only [containsReads, Option.bind_eq_bind, Option.bind_eq_some_iff] at hloop
    obtain ⟨_, -, _, -, hloop⟩ := hloop
    obtain ⟨hlo, hhi⟩ := mem_readsLoop_of_present hloop (List.mem_range.mpr hj)
    refine ⟨segments, true, reads, hlen.trans hs.segments.symm, hreads, ?_⟩
    rcases heq with rfl | rfl
    · apply hlo
    · apply hhi

end Solution128

/-! ### Both families -/

/-- Every segment that a query for the key can read shares a cache line with a segment of the
solution that a prefetch for the key touches, with the segments, of 8 bytes each, stored at
address `addr`. -/
def Solution.PrefetchCovers {R : ℕ} (s : Solution R) (key : U64) (addr : ℕ) : Prop :=
  ∀ i, s.CanRead key i →
    Covers lineBytes 8 addr {t | t ∈ s.prefetch key ∧ t < s.segments.length} i

/-- Likewise with segments of 16 bytes. -/
def Solution128.PrefetchCovers {R : ℕ} (s : Solution128 R) (key : U64) (addr : ℕ) : Prop :=
  ∀ i, s.CanRead key i →
    Covers lineBytes 16 addr {t | t ∈ s.prefetch key ∧ t < s.segments.length} i

/-- An index out of bounds is not touched. -/
theorem touched_eq (R perLine len seg : ℕ) :
  {t | t ∈ (prefetchIndices R perLine seg).filter (· < len) ∧ t < len}
    = touched R perLine len seg
  := by
  ext t
  rw [touched, Set.mem_ofPred_eq, Set.mem_ofPred_eq, List.mem_filter, decide_eq_true_iff,
    and_assoc, and_self]

/-- A prefetch covers what the query can read exactly when the start slot of the key does not
lie in the last block, or the segments past the last one touched in that block are on its
line. -/
theorem prefetch_covers_iff {R : ℕ} (hR : checkWidth R) :
  (∀ (s : Solution R) (key : U64) (addr : ℕ), s.Valid → 8 ∣ addr →
    (s.PrefetchCovers key addr
      ↔ (start (ribbonHash key s.rawSeed) s.numStarts).toNat / W + 1 < s.numSlots / W
        ∨ (addr / 8 + (s.segments.length - R)) % 8 + (R - 1) % 8 < 8))
  ∧ ∀ (s : Solution128 R) (key : U64) (addr : ℕ), s.Valid → 16 ∣ addr →
    (s.PrefetchCovers key addr
      ↔ (start (ribbonHash key (s.rawSeed.setWidth 64)) s.numStarts).toNat / W128 + 1
          < s.numSlots / W128
        ∨ (addr / 16 + (s.segments.length - R)) % 4 + (R - 1) % 4 < 4)
  := by
  constructor
  · intro s key addr hs haddr
    have hwf := hs.wellFormed
    have haligned : Aligned lineBytes 8 8 addr :=
      ⟨by decide, by decide, rfl, haddr⟩
    have hle := start_add_le hwf.slots (ribbonHash key s.rawSeed)
    rw [← hwf.starts] at hle
    rw [← covers_iff haligned hR.1 (by decide) hwf.blocks hwf.segments hle,
      Solution.PrefetchCovers, Solution.prefetch, touched_eq]
    simp only [Solution.canRead_iff hwf, and_imp]
  · intro s key addr hs haddr
    have hwf := hs.wellFormed
    have haligned : Aligned lineBytes 16 4 addr :=
      ⟨by decide, by decide, rfl, haddr⟩
    have hle := start_add_le hwf.slots (ribbonHash key (s.rawSeed.setWidth 64))
    rw [← hwf.starts] at hle
    rw [← covers_iff haligned hR.1 (by decide) hwf.blocks hwf.segments hle,
      Solution128.PrefetchCovers, Solution128.prefetch, touched_eq]
    simp only [Solution128.canRead_iff hwf, and_imp]

/-- Two blocks of seven columns whose storage starts with a cache line, and a key that starts in
the first block. -/
theorem prefetch_covers_iff_seven :
  let s : Solution 7 := ⟨List.replicate 14 0, 65, 0⟩
  let s128 : Solution128 7 := ⟨List.replicate 14 0, 129, 0, 0⟩
  s.PrefetchCovers 5 4096 ∧ s128.PrefetchCovers 5 4096
  := by
  intro s s128
  have hR : checkWidth 7 := ⟨by decide, by decide⟩
  have hs : s.Valid := ⟨by decide, by decide, by decide⟩
  have hs128 : s128.Valid := ⟨by decide, by decide, by decide⟩
  obtain ⟨hhomog, hstd⟩ := prefetch_covers_iff hR
  constructor
  · apply (hhomog s 5 4096 hs (by decide)).mpr (.inl (by decide))
  · apply (hstd s128 5 4096 hs128 (by decide)).mpr (.inl (by decide))

/-- The same filters, and a key that starts in the last block: the query can read the last
segment, whose line no touched segment is on. -/
theorem prefetch_misses :
  let s : Solution 7 := ⟨List.replicate 14 0, 65, 0⟩
  let s128 : Solution128 7 := ⟨List.replicate 14 0, 129, 0, 0⟩
  let key : U64 := 0x89a5850e63c5f8aa
  s.Valid ∧ ¬ s.PrefetchCovers key 4096 ∧ s128.Valid ∧ ¬ s128.PrefetchCovers key 4096
  := by
  intro s s128 key
  have hs : s.Valid := ⟨by decide, by decide, by decide⟩
  have hs128 : s128.Valid := ⟨by decide, by decide, by decide⟩
  have hread : s.CanRead key 13 := by
    apply (Solution.canRead_iff hs.wellFormed key 13).mpr
    decide
  have hread128 : s128.CanRead key 13 := by
    apply (Solution128.canRead_iff hs128.wellFormed key 13).mpr
    decide
  have htouched : s.prefetch key = [7] := by decide
  have htouched128 : s128.prefetch key = [7, 11] := by decide
  refine ⟨hs, ?_, hs128, ?_⟩
  · intro hcovers
    obtain ⟨t, ⟨ht, -⟩, hline⟩ := hcovers 13 hread
    rw [htouched, List.mem_singleton] at ht
    rw [ht] at hline
    exact absurd hline (by decide)
  · intro hcovers
    obtain ⟨t, ⟨ht, -⟩, hline⟩ := hcovers 13 hread128
    rw [htouched128] at ht
    simp only [List.mem_cons, List.not_mem_nil, or_false] at ht
    rcases ht with rfl | rfl
    · exact absurd hline (by decide)
    · exact absurd hline (by decide)

end Pleat
