import Mathlib.Algebra.Order.Ring.Nat
import Mathlib.Data.List.Basic
import Mathlib.Tactic.Ring

/-!
# Little-endian byte strings

A natural number written as a given number of bytes, least significant first, and read
back, and byte strings cut into chunks of equal length.
-/

namespace LittleEndian

/-- A byte. -/
abbrev Byte : Type := BitVec 8

/-- The `n` low bytes of `x`, least significant first. -/
def toLe : ℕ → ℕ → List Byte
  | 0, _ => []
  | n + 1, x => BitVec.ofNat 8 x :: toLe n (x / 256)

/-- The number whose bytes, least significant first, are given. -/
def ofLe : List Byte → ℕ
  | [] => 0
  | b :: bs => b.toNat + 256 * ofLe bs

@[simp]
theorem length_toLe (n x : ℕ) :
  (toLe n x).length = n
  := by
  induction n generalizing x with
  | zero => rfl
  | succ n ih => rw [toLe, List.length_cons, ih]

/-- Writing a number that fits and reading it back gives the number. -/
theorem ofLe_toLe {n x : ℕ} (h : x < 256 ^ n) :
  ofLe (toLe n x) = x
  := by
  induction n generalizing x with
  | zero =>
      rw [pow_zero] at h
      rw [toLe, ofLe]
      omega
  | succ n ih =>
      rw [pow_succ'] at h
      rw [toLe, ofLe, ih (Nat.div_lt_of_lt_mul h), BitVec.toNat_ofNat]
      omega

/-- Reading bytes and writing as many gives the bytes. -/
theorem toLe_ofLe (bs : List Byte) :
  toLe bs.length (ofLe bs) = bs
  := by
  induction bs with
  | nil => rfl
  | cons b bs ih =>
      have hb := b.isLt
      have hlow : BitVec.ofNat 8 (b.toNat + 256 * ofLe bs) = b := by
        apply BitVec.eq_of_toNat_eq
        rw [BitVec.toNat_ofNat]
        omega
      have hrest : (b.toNat + 256 * ofLe bs) / 256 = ofLe bs := by omega
      rw [List.length_cons, ofLe, toLe, hlow, hrest, ih]

theorem ofLe_lt (bs : List Byte) :
  ofLe bs < 256 ^ bs.length
  := by
  induction bs with
  | nil => simp [ofLe]
  | cons b bs ih =>
      have hb := b.isLt
      rw [ofLe, List.length_cons, pow_succ']
      omega

/-! ### Chunks -/

/-- The consecutive chunks of `n` elements of a list; a shorter remainder is dropped. -/
def chunksExact {α : Type*} (n : ℕ) (l : List α) : List (List α) :=
  (List.range (l.length / n)).map (fun i => (l.drop (i * n)).take n)

variable {α β : Type*} {n : ℕ}

theorem length_flatMap_of_length_eq
    {f : α → List β} (hf : ∀ a, (f a).length = n) (l : List α) :
  (l.flatMap f).length = l.length * n
  := by
  induction l with
  | nil => simp
  | cons a l ih =>
      rw [List.flatMap_cons, List.length_append, ih, hf, List.length_cons]
      ring

theorem take_drop_flatMap
    {f : α → List β} (hf : ∀ a, (f a).length = n) (l : List α) (i : ℕ) (hi : i < l.length) :
  ((l.flatMap f).drop (i * n)).take n = f l[i]
  := by
  induction l generalizing i with
  | nil => simp at hi
  | cons a l ih =>
      rw [List.flatMap_cons]
      cases i with
      | zero =>
          rw [Nat.zero_mul, List.drop_zero, List.take_append_of_le_length (hf a).ge,
            List.take_of_length_le (hf a).le]
          rfl
      | succ i =>
          have h : (i + 1) * n = (f a).length + i * n := by
            rw [hf]
            ring
          rw [h, List.drop_length_add_append, List.getElem_cons_succ]
          apply ih

/-- Cutting the concatenation of chunks gives the chunks. -/
theorem chunksExact_flatMap
    {f : α → List β} (hn : 0 < n) (hf : ∀ a, (f a).length = n) (l : List α) :
  chunksExact n (l.flatMap f) = l.map f
  := by
  rw [chunksExact, length_flatMap_of_length_eq hf, Nat.mul_div_cancel _ hn]
  apply List.ext_getElem
  · simp
  · intro i hi _
    rw [List.length_map, List.length_range] at hi
    rw [List.getElem_map, List.getElem_map, List.getElem_range, take_drop_flatMap hf l i hi]

theorem length_chunksExact (l : List α) :
  (chunksExact n l).length = l.length / n
  := by
  simp [chunksExact]

theorem length_of_mem_chunksExact {l chunk : List α} (h : chunk ∈ chunksExact n l) :
  chunk.length = n
  := by
  obtain ⟨i, hi, rfl⟩ := List.mem_map.mp h
  have hle : (i + 1) * n ≤ l.length := by
    calc (i + 1) * n ≤ l.length / n * n := Nat.mul_le_mul_right n (List.mem_range.mp hi)
      _ ≤ l.length := Nat.div_mul_le_self l.length n
  rw [Nat.add_mul, Nat.one_mul] at hle
  rw [List.length_take, List.length_drop]
  omega

/-- The first `m` chunks of a list make up its first `m * n` elements. -/
theorem flatten_map_take_drop (l : List α) (m : ℕ) :
  ((List.range m).map fun i => (l.drop (i * n)).take n).flatten = l.take (m * n)
  := by
  induction m with
  | zero => simp
  | succ m ih =>
      rw [List.range_succ, List.map_append, List.flatten_append, ih, List.map_singleton,
        List.flatten_singleton, Nat.add_mul, Nat.one_mul, List.take_add]

/-- The chunks of a list of whole chunks make up the list. -/
theorem flatten_chunksExact {l : List α} (hl : l.length % n = 0) :
  (chunksExact n l).flatten = l
  := by
  rw [chunksExact, flatten_map_take_drop, Nat.div_mul_cancel (Nat.dvd_of_mod_eq_zero hl),
    List.take_length]

end LittleEndian
