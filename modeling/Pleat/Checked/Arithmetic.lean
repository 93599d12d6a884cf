import Pleat.Format

/-!
# Arithmetic that can fail

The operations of the machine that the source leaves unguarded.  A sum, a difference or a
product that does not fit its type, a division by zero, a shift by the width of a word or
more and an array of the wrong length are `none`; a cast drops the bits that do not fit.
Each operation is that of the numbers where its condition is met.
-/

namespace Pleat

open Format

theorem checked_eq_none {max result : ℕ} (h : max < result) :
  checked max result = none
  := if_neg (not_le.mpr h)

/-! ### Numbers of the width of a pointer -/

namespace Target

/-- `a + b` -/
def add (T : Target) (a b : ℕ) : Option ℕ :=
  checked T.usizeMax (a + b)

/-- `a * b` -/
def mul (T : Target) (a b : ℕ) : Option ℕ :=
  checked T.usizeMax (a * b)

/-- `x as usize`, which drops the high bits. -/
def cast (T : Target) (x : U64) : ℕ :=
  x.toNat % 2 ^ T.usizeBits

variable {T : Target} {a b : ℕ}

theorem add_eq (h : a + b ≤ T.usizeMax) :
  T.add a b = some (a + b)
  := checked_eq_some h

theorem mul_eq (h : a * b ≤ T.usizeMax) :
  T.mul a b = some (a * b)
  := checked_eq_some h

theorem lt_two_pow_iff {n : ℕ} :
  n < 2 ^ T.usizeBits ↔ n ≤ T.usizeMax
  := by
  have hpos := Nat.two_pow_pos T.usizeBits
  rw [usizeMax]
  omega

theorem cast_eq {x : U64} (h : x.toNat ≤ T.usizeMax) :
  T.cast x = x.toNat
  := Nat.mod_eq_of_lt (lt_two_pow_iff.mpr h)

/-- A `usize` of 32 or 64 bits counts up to `2 ^ 32 - 1` at least. -/
theorem le_usizeMax (hT : T.usizeBits = 32 ∨ T.usizeBits = 64) :
  2 ^ 32 - 1 ≤ T.usizeMax
  := by
  rw [usizeMax]
  rcases hT with h | h
  · rw [h]
  · rw [h]
    decide

end Target

/-- `a - b` -/
def checkedSub (a b : ℕ) : Option ℕ :=
  if b ≤ a then some (a - b) else none

/-- `a / b` -/
def checkedDiv (a b : ℕ) : Option ℕ :=
  if b = 0 then none else some (a / b)

/-- `a % b` -/
def checkedRem (a b : ℕ) : Option ℕ :=
  if b = 0 then none else some (a % b)

theorem checkedSub_eq {a b : ℕ} (h : b ≤ a) :
  checkedSub a b = some (a - b)
  := if_pos h

theorem checkedDiv_eq {a b : ℕ} (h : 0 < b) :
  checkedDiv a b = some (a / b)
  := if_neg h.ne'

theorem checkedRem_eq {a b : ℕ} (h : 0 < b) :
  checkedRem a b = some (a % b)
  := if_neg h.ne'

/-! ### Words -/

variable {w : ℕ}

/-- `x + y` of words -/
def wordAdd (x y : BitVec w) : Option (BitVec w) :=
  if x.toNat + y.toNat < 2 ^ w then some (x + y) else none

/-- `x - y` of words -/
def wordSub (x y : BitVec w) : Option (BitVec w) :=
  if y.toNat ≤ x.toNat then some (x - y) else none

/-- `x * y` of words -/
def wordMul (x y : BitVec w) : Option (BitVec w) :=
  if x.toNat * y.toNat < 2 ^ w then some (x * y) else none

/-- `x / y` of words -/
def wordDiv (x y : BitVec w) : Option (BitVec w) :=
  if y = 0 then none else some (x / y)

/-- `x % y` of words -/
def wordRem (x y : BitVec w) : Option (BitVec w) :=
  if y = 0 then none else some (x % y)

/-- `x << s` -/
def wordShl (x : BitVec w) (s : ℕ) : Option (BitVec w) :=
  if s < w then some (x <<< s) else none

/-- `x >> s` -/
def wordShr (x : BitVec w) (s : ℕ) : Option (BitVec w) :=
  if s < w then some (x >>> s) else none

theorem wordSub_eq {x y : BitVec w} (h : y.toNat ≤ x.toNat) :
  wordSub x y = some (x - y)
  := if_pos h

theorem wordMul_eq {x y : BitVec w} (h : x.toNat * y.toNat < 2 ^ w) :
  wordMul x y = some (x * y)
  := if_pos h

/-- A sum of words fails exactly when the sum of the numbers does not fit. -/
theorem map_toNat_wordAdd (x y : BitVec w) :
  (wordAdd x y).map BitVec.toNat = checked (2 ^ w - 1) (x.toNat + y.toNat)
  := by
  have hpos := Nat.two_pow_pos w
  rw [wordAdd, checked]
  by_cases h : x.toNat + y.toNat < 2 ^ w
  · rw [if_pos h, if_pos (by omega), Option.map_some, BitVec.toNat_add, Nat.mod_eq_of_lt h]
  · rw [if_neg h, if_neg (by omega), Option.map_none]

/-- A product of words fails exactly when the product of the numbers does not fit. -/
theorem map_toNat_wordMul (x y : BitVec w) :
  (wordMul x y).map BitVec.toNat = checked (2 ^ w - 1) (x.toNat * y.toNat)
  := by
  have hpos := Nat.two_pow_pos w
  rw [wordMul, checked]
  by_cases h : x.toNat * y.toNat < 2 ^ w
  · rw [if_pos h, if_pos (by omega), Option.map_some, BitVec.toNat_mul, Nat.mod_eq_of_lt h]
  · rw [if_neg h, if_neg (by omega), Option.map_none]

theorem wordDiv_eq {x y : BitVec w} (h : y ≠ 0) :
  wordDiv x y = some (x / y)
  := if_neg h

theorem wordRem_eq {x y : BitVec w} (h : y ≠ 0) :
  wordRem x y = some (x % y)
  := if_neg h

theorem wordShl_eq {x : BitVec w} {s : ℕ} (h : s < w) :
  wordShl x s = some (x <<< s)
  := if_pos h

theorem wordShr_eq {x : BitVec w} {s : ℕ} (h : s < w) :
  wordShr x s = some (x >>> s)
  := if_pos h

/-- `try_into().unwrap()` of a slice to an array of `n` bytes. -/
def toArray (n : ℕ) (bytes : List U8) : Option (List U8) :=
  if bytes.length = n then some bytes else none

theorem toArray_eq {n : ℕ} {bytes : List U8} (h : bytes.length = n) :
  toArray n bytes = some bytes
  := if_pos h

end Pleat
