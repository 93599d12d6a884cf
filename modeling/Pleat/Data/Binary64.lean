import Pleat.Data.Rounding
import Mathlib

/-!
# Arithmetic in binary64

What the operations of `Float` compute, on the floats that stand for a natural number
divided by a power of two and have no exponent out of range.  The conversion of a word and
the product of two floats are the exact value rounded to 53 significant bits, and the
conversion back to a word drops the fraction.
-/

namespace Binary64

open Rounding Float.Model Float.Model.UnpackedFloat

/-- The number of significant bits of a float. -/
abbrev precision : ℕ := 53

/-! ### Shifting a significand -/

/-- A significand without its low `s` bits.  The residual bits tell how the dropped part compares
with one half. -/
def shifted (m s : ℕ) : ExtendedMantissa where
  mantissa := m / 2 ^ s
  roundBit := decide (2 ^ s ≤ 2 * (m % 2 ^ s))
  stickyBit := decide (m % 2 ^ (s - 1) ≠ 0)

theorem mod_two_pow_succ (m s : ℕ) :
  m % 2 ^ (s + 1) = m % 2 ^ s + 2 ^ s * (m / 2 ^ s % 2)
  := by
  rw [pow_succ, Nat.mod_mul]

/-- The round bit is the highest of the dropped bits. -/
theorem roundBit_iff (m s : ℕ) :
  2 ^ (s + 1) ≤ 2 * (m % 2 ^ (s + 1)) ↔ m / 2 ^ s % 2 ≠ 0
  := by
  have hlt : m % 2 ^ s < 2 ^ s := Nat.mod_lt _ (Nat.two_pow_pos s)
  rw [mod_two_pow_succ, pow_succ]
  rcases Nat.mod_two_eq_zero_or_one (m / 2 ^ s) with h | h
  · rw [h, Nat.mul_zero]
    omega
  · rw [h, Nat.mul_one]
    omega

/-- The sticky bit is set when the dropped part is neither zero nor one half. -/
theorem stickyBit_iff (m s : ℕ) :
  m % 2 ^ (s - 1) ≠ 0 ↔ m % 2 ^ s ≠ 0 ∧ 2 * (m % 2 ^ s) ≠ 2 ^ s
  := by
  cases s with
  | zero => simp [Nat.mod_one]
  | succ s =>
      have hlt : m % 2 ^ s < 2 ^ s := Nat.mod_lt _ (Nat.two_pow_pos s)
      rw [Nat.add_sub_cancel, mod_two_pow_succ, pow_succ]
      rcases Nat.mod_two_eq_zero_or_one (m / 2 ^ s) with h | h
      · rw [h, Nat.mul_zero]
        omega
      · rw [h, Nat.mul_one]
        omega

theorem shiftRightOne_shifted (m s : ℕ) :
  (shifted m s).shiftRightOne = shifted m (s + 1)
  := by
  have hround : (m / 2 ^ s % 2 != 0) = decide (2 ^ (s + 1) ≤ 2 * (m % 2 ^ (s + 1))) := by
    rw [Bool.eq_iff_iff, bne_iff_ne, decide_eq_true_iff, roundBit_iff]
  have hsticky : (decide (2 ^ s ≤ 2 * (m % 2 ^ s)) || decide (m % 2 ^ (s - 1) ≠ 0))
      = decide (m % 2 ^ s ≠ 0) := by
    have hpos := Nat.two_pow_pos s
    rw [Bool.eq_iff_iff, Bool.or_eq_true, decide_eq_true_iff, decide_eq_true_iff,
      decide_eq_true_iff, stickyBit_iff]
    omega
  rw [ExtendedMantissa.shiftRightOne, shifted, shifted, hround, hsticky, Nat.div_div_eq_div_mul,
    ← pow_succ, Nat.add_sub_cancel]

theorem shiftRight_eq_shifted (m s : ℕ) :
  (ExtendedMantissa.mk m false false) >>> s = shifted m s
  := by
  induction s with
  | zero =>
      rw [shifted, pow_zero, Nat.div_one, Nat.mod_one]
      rfl
  | succ s ih =>
      rw [← shiftRightOne_shifted, ← ih]
      rfl

/-- Rounding to nearest by the residual bits rounds the quotient. -/
theorem roundedMantissa_shifted (m s : ℕ) :
  (shifted m s).roundedMantissa = halfEven m s
  := by
  have hsticky := stickyBit_iff m s
  have hpos := Nat.two_pow_pos s
  rcases halfEven_cases m s with ⟨h, heq⟩ | ⟨h, heq⟩ | ⟨h, heq⟩
  · have hround : decide (2 ^ s ≤ 2 * (m % 2 ^ s)) = false := decide_eq_false (by omega)
    rw [heq, shifted, hround]
    cases decide (m % 2 ^ (s - 1) ≠ 0) <;> rfl
  · have hround : decide (2 ^ s ≤ 2 * (m % 2 ^ s)) = true := decide_eq_true h.ge
    have hlow : decide (m % 2 ^ (s - 1) ≠ 0) = false := decide_eq_false (by tauto)
    rw [heq, shifted, hround, hlow]
    rfl
  · have hround : decide (2 ^ s ≤ 2 * (m % 2 ^ s)) = true := decide_eq_true h.le
    have hlow : decide (m % 2 ^ (s - 1) ≠ 0) = true :=
      decide_eq_true (hsticky.mpr ⟨by omega, h.ne'⟩)
    rw [heq, shifted, hround, hlow]
    rfl

/-! ### Normal floats -/

/-- The significand `m` with the exponent `e` is that of a normal float. -/
structure InRange (m : ℕ) (e : ℤ) : Prop where
  low : 2 ^ 52 ≤ m
  high : m < 2 ^ 53
  min : -1074 ≤ e
  max : e ≤ 971

theorem InRange.pos {m : ℕ} {e : ℤ} (h : InRange m e) :
  0 < m
  := lt_of_lt_of_le (Nat.two_pow_pos 52) h.low

theorem log2_eq {m : ℕ} (hlow : 2 ^ 52 ≤ m) (hhigh : m < 2 ^ 53) :
  m.log2 = 52
  := by
  have hne : m ≠ 0 := by omega
  have hle := (Nat.le_log2 hne).mpr hlow
  have hlt := (Nat.log2_lt hne).mpr hhigh
  omega

theorem finite_congr {m m' : ℕ} {e e' : ℤ} {hpos : 0 < m} {hpos' : 0 < m'} (hm : m = m')
    (he : e = e') :
  UnpackedFloat.finite .positive m e hpos = .finite .positive m' e' hpos'
  := by
  subst hm he
  rfl

/-- The implicit bit and the stored ones make up the significand. -/
theorem toNat_implicit {m : ℕ} (hlow : 2 ^ 52 ≤ m) (hhigh : m < 2 ^ 53) :
  (1#1 ++ BitVec.ofNat 52 m).toNat = m
  := by
  have hmod : m % 2 ^ 52 = m - 2 ^ 52 := by omega
  have hone : (1 % 2 ^ 1) <<< 52 = 2 ^ 52 := rfl
  rw [BitVec.toNat_append, BitVec.toNat_ofNat, BitVec.toNat_ofNat, hone, hmod]
  have hor := Nat.two_pow_add_eq_or_of_lt (show m - 2 ^ 52 < 2 ^ 52 by omega) 1
  rw [Nat.mul_one] at hor
  omega

/-- A normal float is packed without loss. -/
theorem unpack_pack {m : ℕ} {e : ℤ} (h : InRange m e) :
  (pack (.finite .positive m e h.pos)).unpack = .finite .positive m e h.pos
  := by
  have hlog := log2_eq h.low h.high
  have hmin := h.min
  have hmax := h.max
  let biased := (e + 1023 + 52).toNat
  have hbiased : (biased : ℤ) = e + 1023 + 52 := Int.toNat_of_nonneg (by omega)
  have hpack : UnpackedFloat.pack .binary64 (.finite .positive m e h.pos)
      = packComponents .binary64 .positive (BitVec.ofNat 11 biased) (BitVec.ofNat 52 m) := by
    have hinf : ¬ 2 ^ 11 ≤ biased + 1 := by omega
    have hbits : m.log2 + 1 = 53 := by omega
    exact (if_neg hinf).trans (if_pos hbits)
  have hexp : (BitVec.ofNat 11 biased).toNat = biased := by
    rw [BitVec.toNat_ofNat, Nat.mod_eq_of_lt (by omega)]
  have hones : BitVec.ofNat 11 biased ≠ -1#11 := by
    intro heq
    have htoNat := congrArg BitVec.toNat heq
    rw [hexp] at htoNat
    have hmask : (-1#11).toNat = 2047 := rfl
    omega
  have hzero : BitVec.ofNat 11 biased ≠ 0#11 := by
    intro heq
    have htoNat := congrArg BitVec.toNat heq
    rw [hexp] at htoNat
    have hnil : (0#11).toNat = 0 := rfl
    omega
  change UnpackedFloat.unpack .binary64 (UnpackedFloat.pack .binary64 _) = _
  rw [hpack, UnpackedFloat.unpack]
  simp only [unpackExponent_packComponents, unpackMantissa_packComponents,
    unpackSign_packComponents, if_neg hones, if_neg hzero]
  apply finite_congr (toNat_implicit h.low h.high)
  have hbias : (Format.binary64.exponentBias : ℤ) = 1023 := rfl
  rw [hexp, hbias, hbiased]
  omega

/-! ### Rounding to a float -/

/-- A significand is shifted past its excess bits. -/
theorem shiftToTargetExponent_eq (m : ℕ) {e : ℤ} (hmin : -1074 ≤ e) :
  shiftToTargetExponent .binary64 m e .exact
    = (shifted m (excess precision m), e + excess precision m)
  := by
  have hamount : (Format.binary64.targetExponent (totalExponent m e) - e).toNat
      = excess precision m := by
    have htarget : Format.binary64.targetExponent (totalExponent m e)
        = max ((m.log2 : ℤ) + 1 + e - 53) (-1074) := rfl
    rw [htarget, excess, precision]
    omega
  rw [shiftToTargetExponent, shiftToExponent, hamount, ← shiftRight_eq_shifted]
  rfl

/-- The rounded quotient has 53 bits, or is the next power of two. -/
theorem halfEven_excess_bounds {m : ℕ} (hlow : 2 ^ 52 ≤ m) :
  2 ^ 52 ≤ halfEven m (excess precision m) ∧ halfEven m (excess precision m) ≤ 2 ^ 53
  := by
  constructor
  · rcases Nat.eq_zero_or_pos (excess precision m) with hzero | hpos
    · have hexact := halfEven_mul_two_pow m 0
      rw [pow_zero, Nat.mul_one] at hexact
      rwa [hzero, hexact]
    · rw [← halfEven_mul_two_pow (2 ^ 52) (excess precision m)]
      apply halfEven_mono (two_pow_le (by decide) hpos)
  · rw [← halfEven_mul_two_pow (2 ^ 53) (excess precision m)]
    apply halfEven_mono (lt_two_pow precision m).le

/-- A significand of at least 53 bits is rounded to a normal one. -/
theorem roundWithAccuracy_eq {m : ℕ} {e : ℤ} (hlow : 2 ^ 52 ≤ m) (hmin : -1074 ≤ e) :
  ∃ (m' k : ℕ) (hpos : 0 < m'), roundWithAccuracy .binary64 .positive m e .exact
      = .finite .positive m' (e + k) hpos
    ∧ 2 ^ 52 ≤ m' ∧ m' < 2 ^ 53 ∧ m' * 2 ^ k = nearest precision m
  := by
  obtain ⟨hqlow, hqhigh⟩ := halfEven_excess_bounds hlow
  let s := excess precision m
  let q := halfEven m s
  let x := excess precision q
  -- Only the next power of two is shifted once more, and then no bit is lost.
  obtain ⟨hlow', hhigh', hexact⟩ : 2 ^ 52 ≤ q / 2 ^ x ∧ q / 2 ^ x < 2 ^ 53
      ∧ q / 2 ^ x * 2 ^ x = q := by
    rcases Nat.eq_or_lt_of_le hqhigh with heq | hlt
    · have hq : q = 2 ^ 53 := heq
      have hx : x = 1 := by
        rw [show x = excess precision q from rfl, excess, hq, Nat.log2_two_pow, precision]
      rw [hq, hx]
      decide
    · have hx : x = 0 := excess_eq_zero (by decide) hlt
      rw [hx, pow_zero, Nat.div_one, Nat.mul_one]
      exact ⟨hqlow, hlt, rfl⟩
  have hpos : 0 < q / 2 ^ x := by omega
  refine ⟨q / 2 ^ x, s + x, hpos, ?_, hlow', hhigh', ?_⟩
  · rw [roundWithAccuracy, shiftToTargetExponent_eq m hmin]
    dsimp only
    rw [roundedMantissa_shifted, shiftToTargetExponent_eq q (by omega)]
    dsimp only
    rw [dif_neg (show (shifted q (excess precision q)).mantissa ≠ 0 from hpos.ne')]
    apply finite_congr rfl
    push_cast
    rw [add_assoc]
  · rw [pow_add, Nat.mul_comm (2 ^ s), ← Nat.mul_assoc, hexact]
    rfl

/-! ### The value of a float -/

/-- The float stands for `a / 2 ^ j`: it is zero, or normal with this value. -/
def Represents (x : Float) (a j : ℕ) : Prop :=
  a = 0 ∧ x.toModel.unpack = .zero .positive
  ∨ ∃ (m : ℕ) (e : ℤ) (h : InRange m e), x.toModel.unpack = .finite .positive m e h.pos
    ∧ (m : ℚ) * 2 ^ e = a / 2 ^ j

/-- Numbers whose quotient is a power of two are rounded alike. -/
theorem nearest_scale {p u v j : ℕ} {e : ℤ} (h : (u : ℚ) * 2 ^ e = v / 2 ^ j) :
  (nearest p u : ℚ) * 2 ^ e = nearest p v / 2 ^ j
  := by
  have htwo : (2 : ℚ) ≠ 0 := two_ne_zero
  have hpow : (2 : ℚ) ^ j ≠ 0 := pow_ne_zero j htwo
  rw [eq_div_iff hpow, mul_assoc, ← zpow_natCast, ← zpow_add₀ htwo] at h ⊢
  obtain ⟨c, hc | hc⟩ := (e + j).eq_nat_or_neg
  · rw [hc, zpow_natCast] at h ⊢
    have hv : v = u * 2 ^ c := by exact_mod_cast h.symm
    rw [hv, nearest_mul_two_pow]
    push_cast
    rfl
  · rw [hc, zpow_neg, zpow_natCast, ← div_eq_mul_inv, div_eq_iff (pow_ne_zero c htwo)] at h ⊢
    have hu : u = v * 2 ^ c := by exact_mod_cast h
    rw [hu, nearest_mul_two_pow]
    push_cast
    rfl

/-- A rounded significand within range stands for the rounded value. -/
theorem represents_pack {m a j : ℕ} {e : ℤ} (hlow : 2 ^ 52 ≤ m) (hhigh : m < 2 ^ 128)
    (hmin : -1074 ≤ e) (hmax : e ≤ 800) (hvalue : (m : ℚ) * 2 ^ e = a / 2 ^ j) :
  Represents ⟨pack (roundWithAccuracy .binary64 .positive m e .exact)⟩ (nearest precision a) j
  := by
  obtain ⟨m', k, hpos, hround, hlow', hhigh', hnearest⟩ := roundWithAccuracy_eq hlow hmin
  have hk : k < 77 := by
    have hle := (nearest_bounds (by decide : 0 < precision) m).1
    rw [← hnearest, precision] at hle
    have hpow : 2 ^ 52 * 2 ^ k ≤ m' * 2 ^ k := Nat.mul_le_mul_right _ hlow'
    rw [← Nat.pow_lt_pow_iff_right (by decide : 1 < 2)]
    omega
  have hrange : InRange m' (e + k) := by
    constructor <;> omega
  right
  refine ⟨m', e + k, hrange, ?_, ?_⟩
  · rw [hround]
    apply unpack_pack hrange
  · have hscale := nearest_scale (p := precision) hvalue
    rw [← hscale, ← hnearest, zpow_add₀ two_ne_zero, zpow_natCast]
    push_cast
    ring

/-- The exponent of a significand of moderate size that stands for a moderate value. -/
theorem exponent_bounds {m a j : ℕ} {e : ℤ} (hpos : 0 < m) (hm : m < 2 ^ 128) (ha : a < 2 ^ 128)
    (hj : j ≤ 128) (hvalue : (m : ℚ) * 2 ^ e = a / 2 ^ j) :
  -1074 ≤ e ∧ e ≤ 800
  := by
  have htwo : (2 : ℚ) ≠ 0 := two_ne_zero
  rw [eq_div_iff (pow_ne_zero j htwo)] at hvalue
  constructor
  · by_contra hlt
    obtain ⟨c, rfl⟩ : ∃ c : ℕ, e = -(c : ℤ) := ⟨(-e).toNat, by omega⟩
    rw [zpow_neg, zpow_natCast, ← div_eq_mul_inv, div_mul_eq_mul_div,
      div_eq_iff (pow_ne_zero c htwo)] at hvalue
    have heq : m * 2 ^ j = a * 2 ^ c := by exact_mod_cast hvalue
    have hapos : 0 < a := by
      rcases Nat.eq_zero_or_pos a with rfl | hapos
      · have := Nat.mul_pos hpos (Nat.two_pow_pos j)
        omega
      · apply hapos
    have hlarge : 2 ^ c < 2 ^ c :=
      calc
        2 ^ c ≤ a * 2 ^ c := Nat.le_mul_of_pos_left _ hapos
        _ = m * 2 ^ j := heq.symm
        _ < 2 ^ 128 * 2 ^ j := Nat.mul_lt_mul_of_pos_right hm (Nat.two_pow_pos j)
        _ = 2 ^ (128 + j) := (pow_add ..).symm
        _ ≤ 2 ^ c := Nat.pow_le_pow_right (by decide) (by omega)
    apply lt_irrefl _ hlarge
  · by_contra hlt
    obtain ⟨c, rfl⟩ : ∃ c : ℕ, e = (c : ℤ) := ⟨e.toNat, by omega⟩
    rw [zpow_natCast] at hvalue
    have heq : m * 2 ^ c * 2 ^ j = a := by exact_mod_cast hvalue
    have hlarge : a < a :=
      calc
        a < 2 ^ 128 := ha
        _ ≤ 2 ^ c := Nat.pow_le_pow_right (by decide) (by omega)
        _ ≤ m * 2 ^ c := Nat.le_mul_of_pos_left _ hpos
        _ ≤ m * 2 ^ c * 2 ^ j := Nat.le_mul_of_pos_right _ (Nat.two_pow_pos j)
        _ = a := heq
    apply lt_irrefl a hlarge

theorem represents_normal {x : Float} {m a j : ℕ} {e : ℤ} (h : InRange m e)
    (hx : x.toModel = pack (.finite .positive m e h.pos)) (hvalue : (m : ℚ) * 2 ^ e = a / 2 ^ j) :
  Represents x a j
  := by
  right
  refine ⟨m, e, h, ?_, hvalue⟩
  rw [hx]
  apply unpack_pack h

theorem represents_zero (j : ℕ) :
  Represents ⟨pack (.zero .positive)⟩ 0 j
  := .inl ⟨rfl, rfl⟩

/-- A word is rounded to a float. -/
theorem represents_toFloat (n : UInt64) :
  Represents n.toFloat (nearest precision n.toNat) 0
  := by
  rcases Nat.eq_zero_or_pos n.toNat with hzero | hpos
  · have hn : n = 0 := UInt64.toNat.inj hzero
    rw [hn]
    apply represents_zero 0
  · let t := 52 - n.toNat.log2
    have hlow : 2 ^ 52 ≤ n.toNat * 2 ^ t :=
      calc
        2 ^ 52 ≤ 2 ^ (n.toNat.log2 + t) := Nat.pow_le_pow_right (by decide) (by omega)
        _ = 2 ^ n.toNat.log2 * 2 ^ t := pow_add ..
        _ ≤ n.toNat * 2 ^ t := Nat.mul_le_mul_right _ (Nat.log2_self_le hpos.ne')
    have hhigh : n.toNat * 2 ^ t < 2 ^ 128 :=
      calc
        n.toNat * 2 ^ t < 2 ^ 64 * 2 ^ t :=
          Nat.mul_lt_mul_of_pos_right n.toNat_lt (Nat.two_pow_pos t)
        _ = 2 ^ (64 + t) := (pow_add ..).symm
        _ ≤ 2 ^ 128 := Nat.pow_le_pow_right (by decide) (by omega)
    have hvalue : ((n.toNat * 2 ^ t : ℕ) : ℚ) * 2 ^ (-(t : ℤ)) = (n.toNat : ℕ) / 2 ^ 0 := by
      push_cast
      rw [zpow_neg, zpow_natCast]
      field_simp
    have hmodel : n.toFloat = ⟨pack (roundWithAccuracy .binary64 .positive (n.toNat * 2 ^ t)
        (-(t : ℤ)) .exact)⟩ := by
      have hcompare : compare (n.toNat : ℤ) 0 = .gt := by
        rw [Int.compare_eq_gt]
        omega
      have hamount : (0 - Format.binary64.targetExponent (totalExponent n.toNat 0)).toNat = t := by
        have htarget : Format.binary64.targetExponent (totalExponent n.toNat 0)
            = max ((n.toNat.log2 : ℤ) + 1 + 0 - 53) (-1074) := rfl
        rw [htarget]
        omega
      change (⟨pack (UnpackedFloat.normalize .binary64 n.toNat 0 .positive)⟩ : Float) = _
      rw [UnpackedFloat.normalize, hcompare]
      dsimp only
      rw [Int.toNat_natCast, UnpackedFloat.round]
      dsimp only
      rw [decreaseExponent, hamount]
      dsimp only
      rw [Nat.shiftLeft_eq, zero_sub]
    rw [hmodel]
    apply represents_pack hlow hhigh (by omega) (by omega) hvalue

/-- The product of two normal floats. -/
theorem mul_eq {x y : Float} {m m' : ℕ} {e e' : ℤ} (h : InRange m e) (h' : InRange m' e')
    (hx : x.toModel.unpack = .finite .positive m e h.pos)
    (hy : y.toModel.unpack = .finite .positive m' e' h'.pos) :
  x * y = ⟨pack (roundWithAccuracy .binary64 .positive (m * m') (e + e') .exact)⟩
  := by
  change (⟨pack (UnpackedFloat.mul .binary64 x.toModel.unpack y.toModel.unpack)⟩ : Float) = _
  rw [hx, hy]
  rfl

theorem mul_eq_zero {x y : Float} {a b j k : ℕ} (hx : Represents x a j) (hy : Represents y b k)
    (hzero : a = 0 ∧ x.toModel.unpack = .zero .positive
      ∨ b = 0 ∧ y.toModel.unpack = .zero .positive) :
  x * y = ⟨pack (.zero .positive)⟩
  := by
  change (⟨pack (UnpackedFloat.mul .binary64 x.toModel.unpack y.toModel.unpack)⟩ : Float) = _
  rcases hzero with ⟨-, hx'⟩ | ⟨-, hy'⟩
  · rw [hx']
    rcases hy with ⟨-, hy'⟩ | ⟨_, _, _, hy', -⟩
    · rw [hy']
      rfl
    · rw [hy']
      rfl
  · rw [hy']
    rcases hx with ⟨-, hx'⟩ | ⟨_, _, _, hx', -⟩
    · rw [hx']
      rfl
    · rw [hx']
      rfl

/-- The product of two floats is the rounded product of their values. -/
theorem Represents.mul {x y : Float} {a b j k : ℕ} (hx : Represents x a j) (hy : Represents y b k)
    (hab : a * b < 2 ^ 128) (hjk : j + k ≤ 128) :
  Represents (x * y) (nearest precision (a * b)) (j + k)
  := by
  by_cases hzero : a = 0 ∧ x.toModel.unpack = .zero .positive
      ∨ b = 0 ∧ y.toModel.unpack = .zero .positive
  · have hprod : a * b = 0 := by
      rcases hzero with ⟨rfl, -⟩ | ⟨rfl, -⟩
      · apply Nat.zero_mul
      · apply Nat.mul_zero
    rw [mul_eq_zero hx hy hzero, hprod, nearest_of_dvd (dvd_zero _)]
    apply represents_zero
  · obtain ⟨m, e, h, hxm, hxv⟩ := hx.resolve_left fun hx => hzero (.inl hx)
    obtain ⟨m', e', h', hym, hyv⟩ := hy.resolve_left fun hy => hzero (.inr hy)
    have hlow : 2 ^ 52 * 2 ^ 52 ≤ m * m' := Nat.mul_le_mul h.low h'.low
    have hhigh : m * m' < 2 ^ 53 * 2 ^ 53 := Nat.mul_lt_mul'' h.high h'.high
    have hvalue : ((m * m' : ℕ) : ℚ) * 2 ^ (e + e') = ((a * b : ℕ) : ℚ) / 2 ^ (j + k) := by
      rw [zpow_add₀ two_ne_zero, pow_add]
      push_cast
      rw [mul_mul_mul_comm, hxv, hyv, div_mul_div_comm]
    obtain ⟨hmin, hmax⟩ := exponent_bounds (Nat.mul_pos h.pos h'.pos) (by omega) hab hjk hvalue
    rw [mul_eq h h' hxm hym]
    apply represents_pack (by omega) (by omega) hmin hmax hvalue

theorem toNat_ofNatClamp (n : ℕ) :
  (UInt64.ofNatClamp n).toNat = min n (2 ^ 64 - 1)
  := by
  rw [UInt64.ofNatClamp]
  split_ifs with h
  · have hlt : n < 2 ^ 64 := h
    rw [UInt64.toNat_ofNatLT, Nat.min_eq_left (by omega)]
  · have hle : ¬ n < 2 ^ 64 := h
    rw [UInt64.toNat_ofNatLT, Nat.min_eq_right (by omega)]
    rfl

/-- The integer part of a normal float. -/
theorem roundToInt_eq {m a j : ℕ} {e : ℤ} (hvalue : (m : ℚ) * 2 ^ e = a / 2 ^ j) :
  roundToInt .positive m e = (a / 2 ^ j : ℕ)
  := by
  have htwo : (2 : ℚ) ≠ 0 := two_ne_zero
  let up := e.toNat
  let down := (-e).toNat
  have he : e = up - down := by omega
  have heq : m * 2 ^ up * 2 ^ j = a * 2 ^ down := by
    rw [he, zpow_sub₀ htwo, zpow_natCast, zpow_natCast, eq_div_iff (pow_ne_zero j htwo),
      ← mul_div_assoc, div_mul_eq_mul_div, div_eq_iff (pow_ne_zero down htwo)] at hvalue
    exact_mod_cast hvalue
  have hdown : (0 - (e - (up : ℤ))).toNat = down := by omega
  have hup : (e - 0).toNat = up := by omega
  have hfloor : m * 2 ^ up / 2 ^ down = a / 2 ^ j := by
    rw [← Nat.mul_div_mul_right _ _ (Nat.two_pow_pos j), heq, Nat.mul_comm (2 ^ down),
      Nat.mul_div_mul_right _ _ (Nat.two_pow_pos down)]
  rw [roundToInt, decreaseExponent]
  dsimp only
  rw [hup, Nat.shiftLeft_eq, shiftToExponent]
  dsimp only
  rw [hdown, ← hfloor]
  change Sign.positive.apply
    ((ExtendedMantissa.mk (m * 2 ^ up) false false >>> down).mantissa : ℕ) = _
  rw [shiftRight_eq_shifted]
  rfl

/-- The conversion to a word drops the fraction, and stops at the largest word. -/
theorem Represents.toNat_toUInt64 {x : Float} {a j : ℕ} (hx : Represents x a j) :
  x.toUInt64.toNat = min (a / 2 ^ j) (2 ^ 64 - 1)
  := by
  change (x.toModel.unpack.toUInt64).toNat = _
  rw [UnpackedFloat.toUInt64, toNat_ofNatClamp]
  rcases hx with ⟨rfl, hzero⟩ | ⟨m, e, h, hxm, hvalue⟩
  · rw [hzero, Nat.zero_div]
    rfl
  · rw [hxm, UnpackedFloat.toInt, roundToInt_eq hvalue, Int.toNat_natCast]

end Binary64
