import Mathlib.Algebra.Group.Units.Basic
import Mathlib.Data.BitVec
import Mathlib.Tactic.Common

/-!
# Hashing by exclusive-or and multiplication

A byte string is hashed by adding each byte to the state by exclusive-or and multiplying
the state by a fixed word.  When the word is invertible, different states never come
together again.  When it also carries every change of the low byte of a state into the
higher bytes, the next byte cannot take such a change back: two strings that differ in
one byte, or in two adjacent ones, have different hashes.
-/

namespace XorMultiply

variable {w : ℕ}

/-- Hash one byte. -/
def step (p h : BitVec w) (b : BitVec 8) : BitVec w :=
  (h ^^^ b.setWidth w) * p

/-- Hash a byte string from the state `h` on. -/
def hash (p h : BitVec w) (bytes : List (BitVec 8)) : BitVec w :=
  bytes.foldl (step p) h

/-- Multiplication by `p` is invertible, and words that differ in the low byte alone differ
in a higher byte after it. -/
structure Spreading (p : BitVec w) : Prop where
  unit : IsUnit p
  spread : ∀ x y : BitVec w, x >>> 8 = y >>> 8 → (x * p) >>> 8 = (y * p) >>> 8 → x = y

/-! ### Spreading words -/

theorem ushiftRight_eq_iff {x y : BitVec w} :
  x >>> 8 = y >>> 8 ↔ x.toNat / 256 = y.toNat / 256
  := by
  rw [BitVec.toNat_eq, BitVec.toNat_ushiftRight, BitVec.toNat_ushiftRight,
    Nat.shiftRight_eq_div_pow, Nat.shiftRight_eq_div_pow]

/-- A difference of less than 256, multiplied by `p`, is neither less than 256 nor that close
to the modulus. -/
theorem not_lt_of_div_eq {x y p m : ℕ} (hlow : 256 ≤ p) (hhigh : 256 * p ≤ m)
    (hxy : x / 256 = y / 256) (h : x * p % m / 256 = y * p % m / 256) :
  ¬ x < y
  := by
  intro hlt
  obtain ⟨d, rfl⟩ := Nat.exists_eq_add_of_lt hlt
  have hd : d + 1 ≤ 255 := by omega
  have hsplit : (x + d + 1) * p = x * p + (d + 1) * p := by
    rw [Nat.add_assoc, Nat.add_mul]
  have hle : p ≤ (d + 1) * p := Nat.le_mul_of_pos_left p (Nat.succ_pos d)
  have hge : (d + 1) * p ≤ 255 * p := Nat.mul_le_mul_right p hd
  have hmod : x * p % m < m := Nat.mod_lt (x * p) (by omega)
  rw [hsplit, ← Nat.mod_add_mod] at h
  by_cases hwrap : x * p % m + (d + 1) * p < m
  · rw [Nat.mod_eq_of_lt hwrap] at h
    omega
  · have hsum : (x * p % m + (d + 1) * p) % m = x * p % m + (d + 1) * p - m := by
      rw [Nat.mod_eq_sub_mod (by omega)]
      apply Nat.mod_eq_of_lt
      omega
    rw [hsum] at h
    omega

/-- A word with an inverse, of at least 256 and at most a 256th of the modulus. -/
theorem spreading_of_mul_eq_one {p q : BitVec w} (hq : p * q = 1) (hlow : 256 ≤ p.toNat)
    (hhigh : 256 * p.toNat ≤ 2 ^ w) :
  Spreading p
  where
  unit := IsUnit.of_mul_eq_one q hq
  spread x y hxy h := by
    rw [ushiftRight_eq_iff] at hxy
    rw [ushiftRight_eq_iff, BitVec.toNat_mul, BitVec.toNat_mul] at h
    have hle := not_lt_of_div_eq hlow hhigh hxy h
    have hge := not_lt_of_div_eq hlow hhigh hxy.symm h.symm
    apply BitVec.eq_of_toNat_eq
    omega

/-! ### States and bytes -/

variable {p : BitVec w}

theorem step_injective (hp : IsUnit p) {h h' : BitVec w} {b : BitVec 8}
    (heq : step p h b = step p h' b) :
  h = h'
  := (BitVec.xor_left_inj _).mp (hp.mul_left_injective heq)

/-- Different states stay different, whatever bytes follow. -/
theorem hash_injective (hp : IsUnit p) {bytes : List (BitVec 8)} {h h' : BitVec w}
    (heq : hash p h bytes = hash p h' bytes) :
  h = h'
  := by
  induction bytes generalizing h h' with
  | nil => apply heq
  | cons b bytes ih => apply step_injective hp (ih heq)

theorem hash_append (h : BitVec w) (bytes bytes' : List (BitVec 8)) :
  hash p h (bytes ++ bytes') = hash p (hash p h bytes) bytes'
  := List.foldl_append ..

theorem xor_byte_ushiftRight (h : BitVec w) (b : BitVec 8) :
  (h ^^^ b.setWidth w) >>> 8 = h >>> 8
  := by
  apply BitVec.eq_of_getLsbD_eq
  intro i _
  rw [BitVec.getLsbD_ushiftRight, BitVec.getLsbD_ushiftRight, BitVec.getLsbD_xor,
    BitVec.getLsbD_setWidth, BitVec.getLsbD_of_ge b (8 + i) (by omega)]
  simp

theorem xor_byte_injective (hw : 8 ≤ w) {h : BitVec w} {b b' : BitVec 8}
    (heq : h ^^^ b.setWidth w = h ^^^ b'.setWidth w) :
  b = b'
  := by
  have hwide := (BitVec.xor_right_inj h).mp heq
  have hlow := congrArg (BitVec.setWidth 8) hwide
  rwa [BitVec.setWidth_setWidth_of_le _ hw, BitVec.setWidth_setWidth_of_le _ hw,
    BitVec.setWidth_eq, BitVec.setWidth_eq] at hlow

/-- Hashing different bytes makes a difference above the low byte. -/
theorem step_spread (hp : Spreading p) (hw : 8 ≤ w) {h : BitVec w} {b b' : BitVec 8}
    (heq : step p h b >>> 8 = step p h b' >>> 8) :
  b = b'
  := by
  apply xor_byte_injective hw
  apply hp.spread _ _ _ heq
  rw [xor_byte_ushiftRight, xor_byte_ushiftRight]

/-- Different pairs of bytes are hashed differently. -/
theorem hash_pair_injective (hp : Spreading p) (hw : 8 ≤ w) {h : BitVec w} {a a' b b' : BitVec 8}
    (heq : hash p h [a, b] = hash p h [a', b']) :
  a = a' ∧ b = b'
  := by
  have hsum : step p h a ^^^ b.setWidth w = step p h a' ^^^ b'.setWidth w :=
    hp.unit.mul_left_injective heq
  obtain rfl : a = a' := by
    apply step_spread hp hw (h := h)
    rw [← xor_byte_ushiftRight _ b, hsum, xor_byte_ushiftRight]
  exact ⟨rfl, xor_byte_injective hw hsum⟩

/-- Strings that differ in a window of one or two bytes have different hashes. -/
theorem hash_window_injective (hp : Spreading p) (hw : 8 ≤ w) {h : BitVec w}
    {pre mid mid' post : List (BitVec 8)} (hlen : mid'.length = mid.length) (htwo : mid.length ≤ 2)
    (heq : hash p h (pre ++ mid ++ post) = hash p h (pre ++ mid' ++ post)) :
  mid = mid'
  := by
  rw [hash_append, hash_append, hash_append, hash_append] at heq
  have hmid := hash_injective hp.unit heq
  match mid, mid', hlen, htwo with
  | [], [], _, _ => rfl
  | [b], [b'], _, _ =>
      have hsum : hash p h pre ^^^ b.setWidth w = hash p h pre ^^^ b'.setWidth w :=
        hp.unit.mul_left_injective hmid
      rw [xor_byte_injective hw hsum]
  | [a, b], [a', b'], _, _ =>
      obtain ⟨rfl, rfl⟩ := hash_pair_injective hp hw hmid
      rfl

end XorMultiply
