import Mathlib.Algebra.Order.Ring.Nat
import Mathlib.Data.Nat.Log
import Mathlib.Tactic.Linarith
import Mathlib.Tactic.Ring

/-!
# Rounding to a number of significant bits

A natural number is rounded to the nearest one with at most `p` significant bits, a tie to
the one whose last significant bit is zero.  Rounding is monotone, moves a number by at
most one part in `2 ^ p`, leaves a number of at most `p` significant bits as it is, and
commutes with multiplication by a power of two.
-/

namespace Rounding

/-- `m / 2 ^ s` rounded to the nearest natural number, a tie to the even one. -/
def halfEven (m s : ℕ) : ℕ :=
  let q := m / 2 ^ s
  let r := m % 2 ^ s
  if 2 * r < 2 ^ s then q else if 2 * r = 2 ^ s then q + q % 2 else q + 1

/-- The number of bits of `m` past the first `p`. -/
def excess (p m : ℕ) : ℕ :=
  m.log2 + 1 - p

/-- The nearest number with at most `p` significant bits. -/
def nearest (p m : ℕ) : ℕ :=
  halfEven m (excess p m) * 2 ^ excess p m

/-! ### Rounding a quotient -/

variable {p m m' s k : ℕ}

/-- The three cases of the rounding of a quotient. -/
theorem halfEven_cases (m s : ℕ) :
  2 * (m % 2 ^ s) < 2 ^ s ∧ halfEven m s = m / 2 ^ s
  ∨ 2 * (m % 2 ^ s) = 2 ^ s ∧ halfEven m s = m / 2 ^ s + m / 2 ^ s % 2
  ∨ 2 ^ s < 2 * (m % 2 ^ s) ∧ halfEven m s = m / 2 ^ s + 1
  := by
  rw [halfEven]
  rcases lt_trichotomy (2 * (m % 2 ^ s)) (2 ^ s) with h | h | h
  · exact .inl ⟨h, if_pos h⟩
  · exact .inr (.inl ⟨h, by rw [if_neg (by omega), if_pos h]⟩)
  · exact .inr (.inr ⟨h, by rw [if_neg (by omega), if_neg (by omega)]⟩)

/-- The rounded quotient is within one half. -/
theorem halfEven_bounds (m s : ℕ) :
  2 * (halfEven m s * 2 ^ s) ≤ 2 * m + 2 ^ s ∧ 2 * m ≤ 2 * (halfEven m s * 2 ^ s) + 2 ^ s
  := by
  have hm := Nat.div_add_mod' m (2 ^ s)
  have hr : m % 2 ^ s < 2 ^ s := Nat.mod_lt _ (Nat.two_pow_pos s)
  rcases halfEven_cases m s with ⟨h, heq⟩ | ⟨h, heq⟩ | ⟨h, heq⟩
  · rw [heq]
    omega
  · rcases Nat.mod_two_eq_zero_or_one (m / 2 ^ s) with hodd | hodd
    · rw [heq, hodd, Nat.add_zero]
      omega
    · rw [heq, hodd, Nat.add_mul, Nat.one_mul]
      omega
  · rw [heq, Nat.add_mul, Nat.one_mul]
    omega

theorem halfEven_mul_two_pow (m s : ℕ) :
  halfEven (m * 2 ^ s) s = m
  := by
  have hr : m * 2 ^ s % 2 ^ s = 0 := Nat.mul_mod_left ..
  have hpos := Nat.two_pow_pos s
  rw [halfEven]
  rw [hr, if_pos (by omega), Nat.mul_div_cancel _ hpos]

theorem halfEven_mono (h : m ≤ m') (s : ℕ) :
  halfEven m s ≤ halfEven m' s
  := by
  have hq : m / 2 ^ s ≤ m' / 2 ^ s := Nat.div_le_div_right h
  have hm := Nat.div_add_mod' m (2 ^ s)
  have hm' := Nat.div_add_mod' m' (2 ^ s)
  have hparity := Nat.mod_two_eq_zero_or_one (m / 2 ^ s)
  rcases Nat.eq_or_lt_of_le hq with heq | hlt
  · -- With the same quotient the remainders are ordered.
    rw [heq] at hm
    rcases halfEven_cases m s with ⟨hr, hval⟩ | ⟨hr, hval⟩ | ⟨hr, hval⟩ <;>
      rcases halfEven_cases m' s with ⟨hr', hval'⟩ | ⟨hr', hval'⟩ | ⟨hr', hval'⟩ <;>
      rw [hval, hval', heq] <;> omega
  · have hle : halfEven m s ≤ m / 2 ^ s + 1 := by
      rcases halfEven_cases m s with ⟨-, hval⟩ | ⟨-, hval⟩ | ⟨-, hval⟩ <;> omega
    have hge : m' / 2 ^ s ≤ halfEven m' s := by
      rcases halfEven_cases m' s with ⟨-, hval⟩ | ⟨-, hval⟩ | ⟨-, hval⟩ <;> omega
    omega

/-- Common low zeros do not matter. -/
theorem halfEven_mul_add (m s k : ℕ) :
  halfEven (m * 2 ^ k) (s + k) = halfEven m s
  := by
  have hpos := Nat.two_pow_pos k
  have hmod : m * 2 ^ k % 2 ^ (s + k) = m % 2 ^ s * 2 ^ k := by
    rw [pow_add, Nat.mul_mod_mul_right]
  have hdiv : m * 2 ^ k / 2 ^ (s + k) = m / 2 ^ s := by
    rw [pow_add, Nat.mul_div_mul_right _ _ hpos]
  have hlt : 2 * (m % 2 ^ s * 2 ^ k) < 2 ^ s * 2 ^ k ↔ 2 * (m % 2 ^ s) < 2 ^ s := by
    rw [← Nat.mul_assoc, Nat.mul_lt_mul_right hpos]
  have heq : 2 * (m % 2 ^ s * 2 ^ k) = 2 ^ s * 2 ^ k ↔ 2 * (m % 2 ^ s) = 2 ^ s := by
    rw [← Nat.mul_assoc, Nat.mul_left_inj hpos.ne']
  rw [halfEven, halfEven, hmod, hdiv, pow_add]
  simp only [hlt, heq]

/-! ### Significant bits -/

/-- A number with bits past the first `p` is as large as they say. -/
theorem two_pow_le (hp : 0 < p) (hs : 0 < excess p m) :
  2 ^ (p - 1) * 2 ^ excess p m ≤ m
  := by
  have hne : m ≠ 0 := by
    rintro rfl
    rw [excess, Nat.log2_zero] at hs
    omega
  have hexp : p - 1 + excess p m = m.log2 := by
    rw [excess] at hs ⊢
    omega
  rw [← pow_add, hexp]
  apply Nat.log2_self_le hne

theorem lt_two_pow (p m : ℕ) :
  m < 2 ^ p * 2 ^ excess p m
  := by
  rw [← pow_add]
  apply lt_of_lt_of_le Nat.lt_log2_self
  apply Nat.pow_le_pow_right (by decide)
  rw [excess]
  omega

theorem excess_eq_zero (hp : 0 < p) (h : m < 2 ^ p) :
  excess p m = 0
  := by
  rcases Nat.eq_zero_or_pos m with rfl | hpos
  · rw [excess, Nat.log2_zero]
    omega
  · have hlog := (Nat.log2_lt hpos.ne').mpr h
    rw [excess]
    omega

/-- A number of at most `p` significant bits is left as it is. -/
theorem nearest_of_dvd (h : 2 ^ excess p m ∣ m) :
  nearest p m = m
  := by
  obtain ⟨c, hc⟩ := h
  rw [nearest]
  nth_rewrite 1 [hc]
  rw [Nat.mul_comm _ c, halfEven_mul_two_pow, Nat.mul_comm, ← hc]

theorem nearest_of_lt (hp : 0 < p) (h : m < 2 ^ p) :
  nearest p m = m
  := by
  apply nearest_of_dvd
  rw [excess_eq_zero hp h]
  apply one_dvd

/-- Rounding moves a number by at most one part in `2 ^ p`. -/
theorem nearest_bounds (hp : 0 < p) (m : ℕ) :
  2 ^ p * nearest p m ≤ (2 ^ p + 1) * m ∧ 2 ^ p * m ≤ 2 ^ p * nearest p m + m
  := by
  obtain ⟨hupper, hlower⟩ := halfEven_bounds m (excess p m)
  rcases Nat.eq_zero_or_pos (excess p m) with hzero | hpos
  · have hexact : nearest p m = m := by
      apply nearest_of_dvd
      rw [hzero]
      apply one_dvd
    rw [hexact, Nat.add_mul, Nat.one_mul]
    omega
  · have hle := two_pow_le hp hpos
    have htwo : 2 ^ p * 2 ^ excess p m = 2 * (2 ^ (p - 1) * 2 ^ excess p m) := by
      rw [← Nat.mul_assoc, ← pow_succ', Nat.sub_add_cancel hp]
    rw [nearest]
    generalize 2 ^ p = P at *
    generalize 2 ^ excess p m = E at *
    generalize halfEven m (excess p m) * E = N at *
    have hu := Nat.mul_le_mul_left P hupper
    have hl := Nat.mul_le_mul_left P hlower
    constructor
    · linarith
    · linarith

theorem excess_mono (h : m ≤ m') :
  excess p m ≤ excess p m'
  := by
  have hlog : m.log2 ≤ m'.log2 := by
    rcases Nat.eq_zero_or_pos m with rfl | hpos
    · rw [Nat.log2_zero]
      omega
    · rw [Nat.le_log2 (by omega)]
      apply le_trans (Nat.log2_self_le hpos.ne') h
  rw [excess, excess]
  omega

theorem nearest_mono (hp : 0 < p) (h : m ≤ m') :
  nearest p m ≤ nearest p m'
  := by
  rcases Nat.eq_or_lt_of_le (excess_mono (p := p) h) with heq | hlt
  · rw [nearest, nearest, heq]
    apply Nat.mul_le_mul_right _ (halfEven_mono h _)
  · -- A power of two lies between them.
    have hlow : halfEven m (excess p m) ≤ 2 ^ p := by
      rw [← halfEven_mul_two_pow (2 ^ p) (excess p m)]
      apply halfEven_mono (lt_two_pow p m).le
    have hhigh : 2 ^ (p - 1) ≤ halfEven m' (excess p m') := by
      rw [← halfEven_mul_two_pow (2 ^ (p - 1)) (excess p m')]
      apply halfEven_mono (two_pow_le hp (by omega))
    calc
      nearest p m ≤ 2 ^ p * 2 ^ excess p m := Nat.mul_le_mul_right _ hlow
      _ ≤ 2 ^ (p - 1) * 2 ^ excess p m' := by
        rw [← pow_add, ← pow_add]
        apply Nat.pow_le_pow_right (by decide)
        omega
      _ ≤ nearest p m' := Nat.mul_le_mul_right _ hhigh

theorem log2_mul_two_pow (hm : m ≠ 0) (k : ℕ) :
  (m * 2 ^ k).log2 = m.log2 + k
  := by
  induction k with
  | zero => simp
  | succ k ih =>
      have hne : m * 2 ^ k ≠ 0 := Nat.mul_ne_zero hm (Nat.two_pow_pos k).ne'
      rw [pow_succ, ← Nat.mul_assoc, Nat.mul_comm, Nat.log2_two_mul hne, ih, Nat.add_assoc]

/-- Rounding commutes with multiplication by a power of two. -/
theorem nearest_mul_two_pow (p m k : ℕ) :
  nearest p (m * 2 ^ k) = nearest p m * 2 ^ k
  := by
  rcases Nat.eq_zero_or_pos m with rfl | hpos
  · rw [Nat.zero_mul, nearest_of_dvd (dvd_zero _), Nat.zero_mul]
  · have hlog := log2_mul_two_pow hpos.ne' k
    by_cases hp : p ≤ m.log2 + 1
    · have hexcess : excess p (m * 2 ^ k) = excess p m + k := by
        rw [excess, excess, hlog]
        omega
      rw [nearest, nearest, hexcess, halfEven_mul_add, pow_add, Nat.mul_assoc]
    · -- Neither number has more than `p` significant bits.
      have hzero : excess p m = 0 := by
        rw [excess]
        omega
      have hexcess : excess p (m * 2 ^ k) ≤ k := by
        rw [excess, hlog]
        omega
      rw [nearest_of_dvd (Dvd.dvd.mul_left (pow_dvd_pow 2 hexcess) m), nearest_of_dvd]
      rw [hzero]
      apply one_dvd

end Rounding
