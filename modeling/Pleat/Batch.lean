import Pleat.Data.LittleEndian
import Pleat.Machine
import Mathlib.Tactic.Common

/-!
# Batches of queries

A batch query cuts the keys and the places for the answers into chunks, asks for the cache
lines of a chunk ahead, then answers its queries one by one (`contains_batch` of
`banding.rs` and `banding128.rs`).  Where no single query fails, a batch writes the answer
of each key at the place of the key.
-/

namespace Pleat

open LittleEndian

/-- `chunks(n)`: the consecutive chunks of `n` elements, the last one possibly shorter. -/
def chunks {α : Type*} (n : ℕ) (l : List α) : List (List α) :=
  tabulate (divCeil l.length n) (fun c => (l.drop (c * n)).take n)

/-- The numbers from `a` up to `b`, `b` excluded, in steps of `n`. -/
def stepBy (a b n : ℕ) : List ℕ :=
  tabulate (divCeil (b - a) n) (fun k => a + k * n)

/-- The segments a prefetch asks for: one for each `perLine` from `seg` on, and the last one of
two blocks of `R` columns. -/
def prefetchIndices (R perLine seg : ℕ) : List ℕ :=
  let last := seg + 2 * R - 1
  stepBy seg last perLine ++ [last]

/-- `STRIDE` -/
def stride : ℕ := 32

/-- Write the answers for the keys `kc` to the places `oc`. -/
def writeAnswers (contains : U64 → Option Bool) : List U64 → List Bool → Option (List Bool)
  | k :: kc, _ :: oc => do
      let o ← contains k
      let oc ← writeAnswers contains kc oc
      some (o :: oc)
  | _, oc => some oc

/-- The loop over the chunks that are left. -/
def batchLoop {α : Type} (prefetch : U64 → Option α) (contains : U64 → Option Bool) :
    List (List U64 × List Bool) → Option (List (List Bool))
  | [] => some []
  | (kc, oc) :: rest => do
      let _ ← kc.mapM prefetch
      let oc ← writeAnswers contains kc oc
      let rest ← batchLoop prefetch contains rest
      some (oc :: rest)

/-- Answer a batch of queries into `out`, which must have as many places as there are keys. -/
def batch {α : Type} (prefetch : U64 → Option α) (contains : U64 → Option Bool) (keys : List U64)
    (out : List Bool) : Option (List Bool) :=
  if keys.length ≠ out.length then
    none
  else do
    let written ← batchLoop prefetch contains ((chunks stride keys).zip (chunks stride out))
    some written.flatten

/-! ### The segments touched -/

theorem lt_divCeil_iff {a b k : ℕ} (hb : 0 < b) :
  k < divCeil a b ↔ k * b < a
  := by
  rw [divCeil, ← Nat.succ_le_iff, Nat.le_div_iff_mul_le hb, Nat.succ_mul]
  omega

theorem mem_stepBy {a b n t : ℕ} (hn : 0 < n) :
  t ∈ stepBy a b n ↔ ∃ k, t = a + k * n ∧ t < b
  := by
  rw [stepBy, tabulate, List.mem_map]
  constructor
  · rintro ⟨k, hk, rfl⟩
    have hlt := (lt_divCeil_iff hn).mp (List.mem_range.mp hk)
    exact ⟨k, rfl, by omega⟩
  · rintro ⟨k, rfl, hlt⟩
    refine ⟨k, List.mem_range.mpr ((lt_divCeil_iff hn).mpr ?_), rfl⟩
    omega

/-- The segments a prefetch asks for. -/
theorem mem_prefetchIndices {R perLine seg t : ℕ} (hperLine : 0 < perLine) :
  t ∈ prefetchIndices R perLine seg
    ↔ (∃ k, t = seg + k * perLine ∧ t < seg + 2 * R - 1) ∨ t = seg + 2 * R - 1
  := by
  rw [prefetchIndices, List.mem_append, mem_stepBy hperLine, List.mem_singleton]

/-! ### The answers -/

theorem flatten_chunks {α : Type*} {n : ℕ} (hn : 0 < n) (l : List α) :
  (chunks n l).flatten = l
  := by
  rw [chunks, tabulate, flatten_map_take_drop]
  apply List.take_of_length_le
  have hdiv := Nat.div_add_mod (l.length + n - 1) n
  have hmod := Nat.mod_lt (l.length + n - 1) hn
  rw [divCeil, Nat.mul_comm]
  omega

theorem length_chunks_congr {α β : Type*} {n : ℕ} {l : List α} {m : List β}
    (h : l.length = m.length) :
  (chunks n l).length = (chunks n m).length
  := by
  rw [chunks, chunks, length_tabulate, length_tabulate, h]

/-- Chunks at the same position of lists of one length have the same length. -/
theorem length_eq_of_mem_zip_chunks {α β : Type*} {n : ℕ} {l : List α} {m : List β}
    (h : l.length = m.length) {pair : List α × List β}
    (hpair : pair ∈ (chunks n l).zip (chunks n m)) :
  pair.1.length = pair.2.length
  := by
  rw [chunks, chunks, ← h, tabulate, tabulate, List.zip_map'] at hpair
  obtain ⟨c, -, rfl⟩ := List.mem_map.mp hpair
  rw [List.length_take, List.length_take, List.length_drop, List.length_drop, h]

variable {α : Type} {prefetch : U64 → Option α} {contains : U64 → Option Bool}
  {answer : U64 → Bool}

theorem writeAnswers_eq {kc : List U64} {oc : List Bool} (hlen : kc.length = oc.length)
    (hcontains : ∀ k ∈ kc, contains k = some (answer k)) :
  writeAnswers contains kc oc = some (kc.map answer)
  := by
  induction kc generalizing oc with
  | nil =>
      obtain rfl := List.eq_nil_of_length_eq_zero hlen.symm
      rfl
  | cons k kc ih =>
      cases oc with
      | nil => nomatch hlen
      | cons o oc =>
          rw [writeAnswers, hcontains k (List.mem_cons_self ..), ih (Nat.succ_injective hlen)
            (fun x hx => hcontains x (List.mem_cons_of_mem k hx))]
          rfl

theorem batchLoop_eq {pairs : List (List U64 × List Bool)}
    (hlen : ∀ pair ∈ pairs, pair.1.length = pair.2.length)
    (hprefetch : ∀ k, ∃ touched, prefetch k = some touched)
    (hcontains : ∀ k, contains k = some (answer k)) :
  batchLoop prefetch contains pairs = some (pairs.map fun pair => pair.1.map answer)
  := by
  choose touched htouched using hprefetch
  induction pairs with
  | nil => rfl
  | cons pair pairs ih =>
      obtain ⟨kc, oc⟩ := pair
      rw [batchLoop, mapM_eq_some_map (fun k _ => htouched k),
        writeAnswers_eq (hlen _ (List.mem_cons_self ..))
        (fun k _ => hcontains k), ih (fun p hp => hlen p (List.mem_cons_of_mem _ hp))]
      rfl

/-- Where no query and no prefetch fails, a batch writes the answer of each key at the place
of the key. -/
theorem batch_eq {keys : List U64} {out : List Bool} (hlen : keys.length = out.length)
    (hprefetch : ∀ k, ∃ touched, prefetch k = some touched)
    (hcontains : ∀ k, contains k = some (answer k)) :
  batch prefetch contains keys out = some (keys.map answer)
  := by
  have hkeys : ((chunks stride keys).zip (chunks stride out)).map Prod.fst = chunks stride keys :=
    List.map_fst_zip (length_chunks_congr hlen).le
  have hmap : ((chunks stride keys).zip (chunks stride out)).map (fun pair => pair.1.map answer)
      = (chunks stride keys).map (List.map answer) := by
    rw [← hkeys, List.map_map, hkeys]
    rfl
  have hstride : 0 < stride := Nat.succ_pos 31
  rw [batch, if_neg (not_not.mpr hlen),
    batchLoop_eq (fun pair hpair => length_eq_of_mem_zip_chunks hlen hpair) hprefetch hcontains,
    hmap, Option.bind_eq_bind, Option.bind_some, ← List.map_flatten,
    flatten_chunks hstride]

end Pleat
