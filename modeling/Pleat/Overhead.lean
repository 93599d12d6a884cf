import Pleat.Canonical
import Pleat.Checked.Arithmetic
import Pleat.Data.Binary64
import Pleat.Ranges
import Pleat.Standard.Dependence

/-!
# The sizing product

A filter sizes its table by a product in floating point (`filter.rs`, `banding128.rs`): the
number of keys times an overhead factor that depends on the result width.  Both families
have the factor `1 + (16 + r) / d`, with `d` four times the number of bits of a row.

The factor is exact.  Up to `2 ^ 43` keys the product is exact as well, so the number of
slots is the least one that the exact product allows; beyond that it is rounded, by at
most one part in `2 ^ 52`, and never to fewer slots than keys.
-/

namespace Pleat

open Binary64 Rounding

/-- `overhead`, the space overhead factor for rows of 64 bits. -/
def overhead (r : ℕ) : Float :=
  1.0 + (4.0 + r.toUInt64.toFloat * 0.25) / (8.0 * 8.0)

/-- `overhead128`, the space overhead factor for rows of 128 bits. -/
def overhead128 (r : ℕ) : Float :=
  1.0 + (4.0 + r.toUInt64.toFloat * 0.25) / (8.0 * 16.0)

/-- `as usize`: the fraction is dropped, and a number past the largest one is the largest. -/
def Target.asUsize (T : Target) (x : Float) : ℕ :=
  min x.toUInt64.toNat T.usizeMax

/-- The sizing product of the homogeneous filter. -/
def rawSlots (T : Target) (n r : ℕ) : ℕ :=
  T.asUsize (overhead r * n.toUInt64.toFloat)

/-- The sizing product of the standard filter. -/
def rawSlots128 (T : Target) (n r : ℕ) : ℕ :=
  T.asUsize (overhead128 r * n.toUInt64.toFloat)

/-! ### The overhead factors -/

theorem represents_overhead {r : ℕ} (hr : r ≤ 32) :
  Represents (overhead r) (272 + r) 8
  := by
  have hbits : ∀ r : Fin 33, (overhead r).toModel = Float.Model.pack
      (.finite .positive ((272 + r) * 2 ^ 44) (-52) (by positivity)) := by
    decide +kernel
  have hrange : InRange ((272 + r) * 2 ^ 44) (-52) := by
    constructor <;> omega
  apply represents_normal hrange (hbits ⟨r, by omega⟩)
  push_cast
  ring

theorem represents_overhead128 {r : ℕ} (hr : r ≤ 32) :
  Represents (overhead128 r) (528 + r) 9
  := by
  have hbits : ∀ r : Fin 33, (overhead128 r).toModel = Float.Model.pack
      (.finite .positive ((528 + r) * 2 ^ 43) (-52) (by positivity)) := by
    decide +kernel
  have hrange : InRange ((528 + r) * 2 ^ 43) (-52) := by
    constructor <;> omega
  apply represents_normal hrange (hbits ⟨r, by omega⟩)
  push_cast
  ring

/-! ### The product -/

/-- The integer part of `c / 2 ^ d` times `n`, with `n` and the product rounded to floats. -/
def roundedProduct (c d n : ℕ) : ℕ :=
  nearest precision (c * nearest precision n) / 2 ^ d

section Product

variable {c d n m : ℕ}

theorem toNat_toUInt64_mul {x : Float} (hx : Represents x c d) (hc : c < 2 ^ 16) (hd : d ≤ 64)
    (hn : n < 2 ^ 64) :
  (x * n.toUInt64.toFloat).toUInt64.toNat = min (roundedProduct c d n) (2 ^ 64 - 1)
  := by
  have hword : n.toUInt64.toNat = n := Nat.mod_eq_of_lt hn
  have hfloat := represents_toFloat n.toUInt64
  have hle := (nearest_bounds (by decide : 0 < precision) n).1
  rw [hword] at hfloat
  rw [precision] at hle
  have hsmall : nearest 53 n < 2 ^ 65 := by omega
  have hprod : c * nearest 53 n < 2 ^ 128 :=
    lt_of_lt_of_le (Nat.mul_lt_mul'' hc hsmall) (by decide)
  apply (hx.mul hfloat hprod (by omega)).toNat_toUInt64

/-- A small product is exact. -/
theorem roundedProduct_of_lt (hc : 0 < c) (h : c * n < 2 ^ 53) :
  roundedProduct c d n = c * n / 2 ^ d
  := by
  have hn : n < 2 ^ 53 := lt_of_le_of_lt (Nat.le_mul_of_pos_left n hc) h
  rw [roundedProduct, nearest_of_lt (by decide) hn, nearest_of_lt (by decide) h]

theorem roundedProduct_mono (h : n ≤ m) :
  roundedProduct c d n ≤ roundedProduct c d m
  := by
  have hprec : 0 < precision := by decide
  apply Nat.div_le_div_right
  apply nearest_mono hprec
  apply Nat.mul_le_mul_left c (nearest_mono hprec h)

/-- The two roundings together lose little. -/
theorem le_nearest_mul_nearest (c n : ℕ) :
  (2 ^ 53 - 1) ^ 2 * (c * n) ≤ (2 ^ 53) ^ 2 * nearest precision (c * nearest precision n)
  := by
  have hlow : ∀ m, (2 ^ 53 - 1) * m ≤ 2 ^ 53 * nearest precision m := by
    intro m
    have hle := (nearest_bounds (by decide : 0 < precision) m).2
    rw [precision] at hle ⊢
    omega
  calc
    (2 ^ 53 - 1) ^ 2 * (c * n) = (2 ^ 53 - 1) * c * ((2 ^ 53 - 1) * n) := by ring
    _ ≤ (2 ^ 53 - 1) * c * (2 ^ 53 * nearest precision n) := Nat.mul_le_mul_left _ (hlow n)
    _ = 2 ^ 53 * ((2 ^ 53 - 1) * (c * nearest precision n)) := by ring
    _ ≤ 2 ^ 53 * (2 ^ 53 * nearest precision (c * nearest precision n)) :=
      Nat.mul_le_mul_left _ (hlow _)
    _ = (2 ^ 53) ^ 2 * nearest precision (c * nearest precision n) := by ring

/-- They gain little. -/
theorem nearest_mul_nearest_le (c n : ℕ) :
  (2 ^ 53) ^ 2 * nearest precision (c * nearest precision n) ≤ (2 ^ 53 + 1) ^ 2 * (c * n)
  := by
  have hhigh : ∀ m, 2 ^ 53 * nearest precision m ≤ (2 ^ 53 + 1) * m :=
    fun m => (nearest_bounds (by decide : 0 < precision) m).1
  calc
    (2 ^ 53) ^ 2 * nearest precision (c * nearest precision n)
        = 2 ^ 53 * (2 ^ 53 * nearest precision (c * nearest precision n)) := by ring
    _ ≤ 2 ^ 53 * ((2 ^ 53 + 1) * (c * nearest precision n)) := Nat.mul_le_mul_left _ (hhigh _)
    _ = (2 ^ 53 + 1) * c * (2 ^ 53 * nearest precision n) := by ring
    _ ≤ (2 ^ 53 + 1) * c * ((2 ^ 53 + 1) * n) := Nat.mul_le_mul_left _ (hhigh n)
    _ = (2 ^ 53 + 1) ^ 2 * (c * n) := by ring

/-- A factor that exceeds one by `16 / 2 ^ d` makes up for the roundings. -/
theorem le_roundedProduct (hd : d ≤ 9) (hc : 2 ^ d + 16 ≤ c) :
  n ≤ roundedProduct c d n
  := by
  have hpow : 2 ^ d ≤ 2 ^ 9 := Nat.pow_le_pow_right (by decide) hd
  have hfactor : (2 ^ 53) ^ 2 * 2 ^ d ≤ (2 ^ 53 - 1) ^ 2 * c := by omega
  rw [roundedProduct, Nat.le_div_iff_mul_le (Nat.two_pow_pos d)]
  apply Nat.le_of_mul_le_mul_left _ (by decide : 0 < (2 ^ 53) ^ 2)
  calc
    (2 ^ 53) ^ 2 * (n * 2 ^ d) = (2 ^ 53) ^ 2 * 2 ^ d * n := by ring
    _ ≤ (2 ^ 53 - 1) ^ 2 * c * n := Nat.mul_le_mul_right n hfactor
    _ = (2 ^ 53 - 1) ^ 2 * (c * n) := by ring
    _ ≤ (2 ^ 53) ^ 2 * nearest precision (c * nearest precision n) := le_nearest_mul_nearest c n

/-- The product is at most one part in `2 ^ 52` past the exact one. -/
theorem roundedProduct_le (c d n : ℕ) :
  (2 ^ 53) ^ 2 * (2 ^ d * roundedProduct c d n) ≤ (2 ^ 53 + 1) ^ 2 * (c * n)
  := by
  apply le_trans _ (nearest_mul_nearest_le c n)
  apply Nat.mul_le_mul_left
  apply Nat.mul_div_le

/-- A factor below two at most doubles. -/
theorem roundedProduct_le_two_mul (hd : 7 ≤ d) (hc : c ≤ 2 ^ d + 48) :
  roundedProduct c d n ≤ 2 * n
  := by
  have hpow : 2 ^ 7 ≤ 2 ^ d := Nat.pow_le_pow_right (by decide) hd
  have hfactor : (2 ^ 53 + 1) ^ 2 * c ≤ (2 ^ 53) ^ 2 * 2 ^ d * 2 := by omega
  apply Nat.le_of_mul_le_mul_left _ (by positivity : 0 < (2 ^ 53) ^ 2 * 2 ^ d)
  calc
    (2 ^ 53) ^ 2 * 2 ^ d * roundedProduct c d n
        = (2 ^ 53) ^ 2 * (2 ^ d * roundedProduct c d n) := by ring
    _ ≤ (2 ^ 53 + 1) ^ 2 * (c * n) := roundedProduct_le c d n
    _ = (2 ^ 53 + 1) ^ 2 * c * n := by ring
    _ ≤ (2 ^ 53) ^ 2 * 2 ^ d * 2 * n := Nat.mul_le_mul_right n hfactor
    _ = (2 ^ 53) ^ 2 * 2 ^ d * (2 * n) := by ring

end Product

/-! ### The number of slots -/

/-- Rounding up gives the least number of whole blocks, two at least, that are enough. -/
theorem isLeast_roundUpNumSlots {w : ℕ} (hw : 0 < w) (raw : ℕ) :
  IsLeast {s | w ∣ s ∧ 2 * w ≤ s ∧ raw ≤ s} (roundUpNumSlots w raw)
  := by
  have hceil : raw ≤ divCeil raw w * w := le_divCeil_mul hw
  constructor
  · refine ⟨Nat.dvd_of_mod_eq_zero (roundUpNumSlots_mod w raw), two_mul_le_roundUpNumSlots w raw, ?_⟩
    unfold roundUpNumSlots
    dsimp only
    split
    · omega
    · apply le_max_of_le_left hceil
  · rintro s ⟨⟨k, rfl⟩, htwo, hraw⟩
    have hk : divCeil raw w ≤ k := by
      rw [divCeil, ← Nat.lt_succ_iff, Nat.div_lt_iff_lt_mul hw, Nat.succ_mul, Nat.mul_comm k w]
      omega
    have hmul : divCeil raw w * w ≤ w * k := by
      rw [Nat.mul_comm w k]
      apply Nat.mul_le_mul_right w hk
    unfold roundUpNumSlots
    dsimp only
    split
    · omega
    · apply max_le hmul htwo

theorem le_roundUpNumSlots_raw {w : ℕ} (hw : 0 < w) (raw : ℕ) :
  raw ≤ roundUpNumSlots w raw
  := (isLeast_roundUpNumSlots hw raw).1.2.2

theorem roundUpNumSlots_le {w : ℕ} (hw : 0 < w) (raw : ℕ) :
  roundUpNumSlots w raw ≤ raw + 2 * w
  := by
  have hfloor : w * (raw / w) ≤ raw := Nat.mul_div_le raw w
  have hceil : raw < w * (raw / w + 1) := Nat.lt_mul_div_succ raw hw
  have hcandidate : roundUpNumSlots w raw ≤ w * (raw / w + 2) := by
    apply (isLeast_roundUpNumSlots hw raw).2
    refine ⟨Nat.dvd_mul_right .., ?_, ?_⟩
    · rw [Nat.mul_add]
      omega
    · rw [Nat.mul_add] at hceil ⊢
      omega
  rw [Nat.mul_add] at hcandidate
  omega

theorem roundUpNumSlots_mono {w raw raw' : ℕ} (hw : 0 < w) (h : raw ≤ raw') :
  roundUpNumSlots w raw ≤ roundUpNumSlots w raw'
  := by
  obtain ⟨hdvd, htwo, hle⟩ := (isLeast_roundUpNumSlots hw raw').1
  apply (isLeast_roundUpNumSlots hw raw).2 ⟨hdvd, htwo, le_trans h hle⟩

/-- The keys of a list that fits in memory. -/
theorem two_mul_length_le {T : Target} {n : ℕ} (hn : n * 8 ≤ T.isizeMax) :
  2 * n ≤ T.usizeMax ∧ n < 2 ^ 60
  := by
  have hbits := T.usizeBits_le
  have hhalf : 2 ^ (T.usizeBits - 1) ≤ 2 ^ 63 := Nat.pow_le_pow_right (by decide) (by omega)
  have hfull : 2 ^ (T.usizeBits - 1) ≤ 2 ^ T.usizeBits :=
    Nat.pow_le_pow_right (by decide) (by omega)
  rw [Target.isizeMax] at hn
  rw [Target.usizeMax]
  omega

theorem rawSlots_eq_min (T : Target) {n r : ℕ} (hr : r ≤ 32) (hn : n < 2 ^ 64) :
  rawSlots T n r = min (min (roundedProduct (272 + r) 8 n) (2 ^ 64 - 1)) T.usizeMax
  := by
  rw [rawSlots, Target.asUsize,
    toNat_toUInt64_mul (represents_overhead hr) (by omega) (by decide) hn]

theorem rawSlots128_eq_min (T : Target) {n r : ℕ} (hr : r ≤ 32) (hn : n < 2 ^ 64) :
  rawSlots128 T n r = min (min (roundedProduct (528 + r) 9 n) (2 ^ 64 - 1)) T.usizeMax
  := by
  rw [rawSlots128, Target.asUsize,
    toNat_toUInt64_mul (represents_overhead128 hr) (by omega) (by decide) hn]

theorem rawSlots_eq {T : Target} {n r : ℕ} (hr : r ≤ 32) (hn : n * 8 ≤ T.isizeMax) :
  rawSlots T n r = roundedProduct (272 + r) 8 n
  := by
  obtain ⟨husize, hlt⟩ := two_mul_length_le hn
  have hle : roundedProduct (272 + r) 8 n ≤ 2 * n := roundedProduct_le_two_mul (by decide) (by omega)
  rw [rawSlots_eq_min T hr (by omega)]
  omega

theorem rawSlots128_eq {T : Target} {n r : ℕ} (hr : r ≤ 32) (hn : n * 8 ≤ T.isizeMax) :
  rawSlots128 T n r = roundedProduct (528 + r) 9 n
  := by
  obtain ⟨husize, hlt⟩ := two_mul_length_le hn
  have hle : roundedProduct (528 + r) 9 n ≤ 2 * n := roundedProduct_le_two_mul (by decide) (by omega)
  rw [rawSlots128_eq_min T hr (by omega)]
  omega

/-- If the slots could be allocated, then the keys fit in memory. -/
theorem length_le_of_alloc {T : Target} {w n product : ℕ} (hw : 0 < w) (hle : n ≤ product)
    (halloc : roundUpNumSlots w (min (min product (2 ^ 64 - 1)) T.usizeMax) * 8 ≤ T.isizeMax) :
  n * 8 ≤ T.isizeMax
  := by
  have hhalf := Format.isizeMax_le_usizeMax T
  have hmax := Format.usizeMax_lt T
  have htwo := two_mul_le_roundUpNumSlots w (min (min product (2 ^ 64 - 1)) T.usizeMax)
  have hraw := le_roundUpNumSlots_raw hw (min (min product (2 ^ 64 - 1)) T.usizeMax)
  omega

/-- Up to `2 ^ 43` keys, the slots of the homogeneous filter are the least that the exact
product allows. -/
theorem isLeast_numSlotsFor {T : Target} {n r : ℕ} (hr : r ≤ 32) (hn : n * 8 ≤ T.isizeMax)
    (hsmall : n ≤ 2 ^ 43) :
  IsLeast {s | W ∣ s ∧ 2 * W ≤ s ∧ (272 + r) * n < 256 * (s + 1)} (numSlotsFor (rawSlots T) n r)
  := by
  have hprod : (272 + r) * n < 2 ^ 53 := by
    calc (272 + r) * n ≤ 304 * 2 ^ 43 := Nat.mul_le_mul (by omega) hsmall
      _ < 2 ^ 53 := by decide
  have hraw : ∀ s, rawSlots T n r ≤ s ↔ (272 + r) * n < 256 * (s + 1) := by
    intro s
    rw [rawSlots_eq hr hn, roundedProduct_of_lt (by omega) hprod, ← Nat.lt_succ_iff,
      Nat.div_lt_iff_lt_mul (by decide), Nat.mul_comm (s + 1)]
    rfl
  simp only [← hraw]
  apply isLeast_roundUpNumSlots (by decide)

/-- Up to `2 ^ 43` keys, the slots of the standard filter are the least that the exact
product allows. -/
theorem isLeast_numSlotsFor128 {T : Target} {n r : ℕ} (hr : r ≤ 32) (hn : n * 8 ≤ T.isizeMax)
    (hsmall : n ≤ 2 ^ 43) :
  IsLeast {s | W128 ∣ s ∧ 2 * W128 ≤ s ∧ (528 + r) * n < 512 * (s + 1)}
    (numSlotsFor128 (rawSlots128 T) n r)
  := by
  have hprod : (528 + r) * n < 2 ^ 53 := by
    calc (528 + r) * n ≤ 560 * 2 ^ 43 := Nat.mul_le_mul (by omega) hsmall
      _ < 2 ^ 53 := by decide
  have hraw : ∀ s, rawSlots128 T n r ≤ s ↔ (528 + r) * n < 512 * (s + 1) := by
    intro s
    rw [rawSlots128_eq hr hn, roundedProduct_of_lt (by omega) hprod, ← Nat.lt_succ_iff,
      Nat.div_lt_iff_lt_mul (by decide), Nat.mul_comm (s + 1)]
    rfl
  simp only [← hraw]
  apply isLeast_roundUpNumSlots (by decide)

/-! ### Arithmetic that can fail -/

namespace Checked

/-- A sizing product rounded up to whole blocks. -/
def roundUpNumSlots (T : Target) (w raw : ℕ) : Option ℕ := do
  let s ← T.mul (divCeil raw w) w
  let s ← if s = w then T.add s w else some s
  let two ← T.mul 2 w
  some (max s two)

/-- The number of slots for `n` keys at width `r` of the homogeneous filter. -/
def numSlotsFor (T : Target) (n r : ℕ) : Option ℕ :=
  roundUpNumSlots T W (rawSlots T n r)

/-- The number of slots for `n` keys at width `r` of the standard filter. -/
def numSlotsFor128 (T : Target) (n r : ℕ) : Option ℕ :=
  roundUpNumSlots T W128 (rawSlots128 T n r)

theorem roundUpNumSlots_eq {T : Target} {w raw : ℕ} (hw : 0 < w)
    (hfits : raw + 2 * w ≤ T.usizeMax) :
  roundUpNumSlots T w raw = some (Pleat.roundUpNumSlots w raw)
  := by
  have hceil : divCeil raw w * w ≤ raw + w := by
    rw [divCeil]
    have hle := Nat.div_mul_le_self (raw + w - 1) w
    omega
  rw [roundUpNumSlots, Pleat.roundUpNumSlots, Target.mul_eq (by omega),
    Target.mul_eq (a := 2) (by omega)]
  simp only [Option.bind_eq_bind, Option.bind_some]
  split
  · rw [Target.add_eq (by omega)]
    rfl
  · rfl

variable {T : Target} {w c d n : ℕ}

/-- A list that fits in memory leaves room for its slots. -/
theorem roundUpNumSlots_roundedProduct (hT : 16 ≤ T.usizeBits) (hw : 0 < w) (hw' : w ≤ 128)
    (hd : 7 ≤ d) (hc : c ≤ 2 ^ d + 48) (hn : n * 8 ≤ T.isizeMax) :
  roundUpNumSlots T w (roundedProduct c d n)
    = some (Pleat.roundUpNumSlots w (roundedProduct c d n))
  := by
  have htwo : roundedProduct c d n ≤ 2 * n := roundedProduct_le_two_mul hd hc
  have hhalf : 2 ^ T.usizeBits = 2 * 2 ^ (T.usizeBits - 1) := by
    rw [← Nat.pow_succ']
    congr 1
    omega
  have hlarge : 2 ^ 15 ≤ 2 ^ (T.usizeBits - 1) := Nat.pow_le_pow_right (by decide) (by omega)
  apply roundUpNumSlots_eq hw
  rw [Target.isizeMax] at hn
  rw [Target.usizeMax]
  omega

/-- The slots of a list that fits in memory, for a factor `c / 2 ^ d` from `1 + 16 / 2 ^ d` to
`1 + 48 / 2 ^ d`. -/
theorem exists_roundUpNumSlots (raw : ℕ → ℕ) (hT : 16 ≤ T.usizeBits) (hw : 0 < w) (hw' : w ≤ 128)
    (hd : 7 ≤ d) (hd' : d ≤ 9) (hc : 2 ^ d + 16 ≤ c) (hc' : c ≤ 2 ^ d + 48)
    (hn : n * 8 ≤ T.isizeMax) (hraw : ∀ m ≤ n, raw m = roundedProduct c d m) :
  ∃ s, roundUpNumSlots T w (raw n) = some s ∧ n ≤ s
    ∧ (2 ^ 53) ^ 2 * (2 ^ d * s) ≤ (2 ^ 53 + 1) ^ 2 * (c * n) + (2 ^ 53) ^ 2 * (2 ^ d * (2 * w))
    ∧ ∀ m ≤ n, ∃ s' ≤ s, roundUpNumSlots T w (raw m) = some s'
  := by
  have hslots : ∀ m ≤ n, roundUpNumSlots T w (raw m)
      = some (Pleat.roundUpNumSlots w (roundedProduct c d m)) := by
    intro m hm
    rw [hraw m hm]
    apply roundUpNumSlots_roundedProduct hT hw hw' hd hc' (by omega)
  refine ⟨_, hslots n le_rfl, ?_, ?_, ?_⟩
  · calc
      n ≤ roundedProduct c d n := le_roundedProduct hd' hc
      _ ≤ Pleat.roundUpNumSlots w (roundedProduct c d n) := le_roundUpNumSlots_raw hw _
  · calc
      (2 ^ 53) ^ 2 * (2 ^ d * Pleat.roundUpNumSlots w (roundedProduct c d n))
          ≤ (2 ^ 53) ^ 2 * (2 ^ d * (roundedProduct c d n + 2 * w)) :=
        Nat.mul_le_mul_left _ (Nat.mul_le_mul_left _ (roundUpNumSlots_le hw _))
      _ = (2 ^ 53) ^ 2 * (2 ^ d * roundedProduct c d n) + (2 ^ 53) ^ 2 * (2 ^ d * (2 * w)) := by
        ring
      _ ≤ (2 ^ 53 + 1) ^ 2 * (c * n) + (2 ^ 53) ^ 2 * (2 ^ d * (2 * w)) :=
        Nat.add_le_add_right (roundedProduct_le c d n) _
  · intro m hm
    exact ⟨_, roundUpNumSlots_mono hw (roundedProduct_mono hm), hslots m hm⟩

end Checked

/-- The slots of a list that fits in memory, in the arithmetic of the machine: no step
overflows, there are as many slots as keys at least, at most one part in `2 ^ 52` and two
blocks more than the exact product, and never more for fewer keys. -/
theorem numSlotsFor_bounds {T : Target} (hT : 16 ≤ T.usizeBits) {n r : ℕ} (hr : r ≤ 32)
    (hn : n * 8 ≤ T.isizeMax) :
  (∃ s, Checked.numSlotsFor T n r = some s ∧ n ≤ s
    ∧ (2 ^ 53) ^ 2 * (2 ^ 8 * s)
        ≤ (2 ^ 53 + 1) ^ 2 * ((272 + r) * n) + (2 ^ 53) ^ 2 * (2 ^ 8 * (2 * W))
    ∧ ∀ m ≤ n, ∃ s' ≤ s, Checked.numSlotsFor T m r = some s')
  ∧ ∃ s, Checked.numSlotsFor128 T n r = some s ∧ n ≤ s
    ∧ (2 ^ 53) ^ 2 * (2 ^ 9 * s)
        ≤ (2 ^ 53 + 1) ^ 2 * ((528 + r) * n) + (2 ^ 53) ^ 2 * (2 ^ 9 * (2 * W128))
    ∧ ∀ m ≤ n, ∃ s' ≤ s, Checked.numSlotsFor128 T m r = some s'
  := by
  constructor
  · apply Checked.exists_roundUpNumSlots (fun m => rawSlots T m r) hT (by decide) (by decide)
      (by decide) (by decide) (by omega) (by omega) hn
    intro m hm
    apply rawSlots_eq hr (by omega)
  · apply Checked.exists_roundUpNumSlots (fun m => rawSlots128 T m r) hT (by decide)
      (by decide) (by decide) (by decide) (by omega) (by omega) hn
    intro m hm
    apply rawSlots128_eq hr (by omega)

/-- A list of a million keys on a target of 32 bits. -/
theorem numSlotsFor_bounds_million :
  (∃ s, Checked.numSlotsFor ⟨32, by decide⟩ 1000000 7 = some s ∧ 1000000 ≤ s)
  ∧ ∃ s, Checked.numSlotsFor128 ⟨32, by decide⟩ 1000000 7 = some s ∧ 1000000 ≤ s
  := by
  obtain ⟨⟨s, hs, hle, -⟩, s', hs', hle', -⟩ :=
    @numSlotsFor_bounds ⟨32, by decide⟩ (by decide) 1000000 7 (by decide) (by decide)
  exact ⟨⟨s, hs, hle⟩, s', hs', hle'⟩

/-! ### The size of a filter -/

namespace Ribbon

variable {R : ℕ} {T : Target} {keys : List U64} {f : Ribbon R}

/-- The bytes of the segments. -/
def sizeBytes (f : Ribbon R) : ℕ :=
  f.soln.segments.length * 8

/-- The bits of a filter of up to `2 ^ 43` keys are `R` for each slot, and the slots are the
least that the exact product allows. -/
theorem Built.exists_isLeast (hR : checkWidth R) (h : f.Built T (rawSlots T) keys)
    (hsmall : keys.length ≤ 2 ^ 43) :
  ∃ s, IsLeast {s | W ∣ s ∧ 2 * W ≤ s ∧ (272 + R) * keys.length < 256 * (s + 1)} s
    ∧ f.sizeBytes * 8 = s * R
    ∧ ∃ bytes, f.toBytes T = some bytes ∧ bytes.length = f.sizeBytes + 40
  := by
  have hs := h.wellFormed
  have halloc := h.alloc
  rw [numSlotsFor, rawSlots_eq_min T hR.2 (by omega)] at halloc
  have hlen : keys.length * 8 ≤ T.isizeMax :=
    length_le_of_alloc (by decide) (le_roundedProduct (by decide) (by omega)) halloc
  refine ⟨_, isLeast_numSlotsFor hR.2 hlen hsmall, ?_, f.encoding, h.toBytes_eq_some hR, ?_⟩
  · have hdvd := Nat.div_mul_cancel (Nat.dvd_of_mod_eq_zero hs.blocks)
    rw [sizeBytes, hs.segments]
    calc
      _ = numSlotsFor (rawSlots T) keys.length R / W * W * R := by
        rw [W]
        ring
      _ = _ := by rw [hdvd]
  · rw [length_encoding, sizeBytes, Format.headerLen, Format.checksumLen]
    omega

end Ribbon

namespace StdRibbon

variable {R : ℕ} {T : Target} {keys : List U64} {f : StdRibbon R}

/-- The bytes of the segments. -/
def sizeBytes (f : StdRibbon R) : ℕ :=
  f.soln.segments.length * 16

/-- The bits of a filter of up to `2 ^ 43` keys are `R` for each slot, and the slots are the
least that the exact product allows. -/
theorem Built.exists_isLeast (hR : checkWidth R) (h : f.Built T (rawSlots128 T) keys)
    (hsmall : keys.length ≤ 2 ^ 43) :
  ∃ s, IsLeast {s | W128 ∣ s ∧ 2 * W128 ≤ s ∧ (528 + R) * keys.length < 512 * (s + 1)} s
    ∧ f.sizeBytes * 8 = s * R
    ∧ ∃ bytes, f.toBytes T = some bytes ∧ bytes.length = f.sizeBytes + 40
  := by
  have hs := h.wellFormed
  have halloc := h.alloc
  rw [numSlotsFor128, rawSlots128_eq_min T hR.2 (by omega)] at halloc
  have hlen : keys.length * 8 ≤ T.isizeMax :=
    length_le_of_alloc (by decide) (le_roundedProduct (by decide) (by omega))
      (le_trans (Nat.mul_le_mul_left _ (by decide)) halloc)
  refine ⟨_, isLeast_numSlotsFor128 hR.2 hlen hsmall, ?_, f.encoding, h.toBytes_eq_some hR, ?_⟩
  · have hdvd := Nat.div_mul_cancel (Nat.dvd_of_mod_eq_zero hs.blocks)
    rw [sizeBytes, hs.segments]
    calc
      _ = numSlotsFor128 (rawSlots128 T) keys.length R / W128 * W128 * R := by
        rw [W128]
        ring
      _ = _ := by rw [hdvd]
  · rw [length_encoding, sizeBytes, Format.headerLen, Format.checksumLen]
    omega

end StdRibbon

/-- The size of every filter of up to `2 ^ 43` keys, in both families. -/
theorem size_of_built (T : Target) {R : ℕ} (hR : checkWidth R) {keys : List U64}
    (hsmall : keys.length ≤ 2 ^ 43) :
  (∀ f : Ribbon R, f.Built T (rawSlots T) keys →
    ∃ s, IsLeast {s | W ∣ s ∧ 2 * W ≤ s ∧ (272 + R) * keys.length < 256 * (s + 1)} s
      ∧ f.sizeBytes * 8 = s * R
      ∧ ∃ bytes, f.toBytes T = some bytes ∧ bytes.length = f.sizeBytes + 40)
  ∧ ∀ f : StdRibbon R, f.Built T (rawSlots128 T) keys →
    ∃ s, IsLeast {s | W128 ∣ s ∧ 2 * W128 ≤ s ∧ (528 + R) * keys.length < 512 * (s + 1)} s
      ∧ f.sizeBytes * 8 = s * R
      ∧ ∃ bytes, f.toBytes T = some bytes ∧ bytes.length = f.sizeBytes + 40
  := ⟨fun _ h => h.exists_isLeast hR hsmall, fun _ h => h.exists_isLeast hR hsmall⟩

/-- Filters of 1000 keys, two of them different, of 18 blocks of 64 slots and of nine blocks of
128. -/
theorem size_of_built_thousand :
  let T : Target := ⟨64, le_rfl⟩
  let keys : List U64 := List.replicate 500 5 ++ List.replicate 500 21
  (∃ f : Ribbon 7, Ribbon.fromKeysSeeded (rawSlots T) 7 keys 0 = some f
    ∧ f.sizeBytes = 1008 ∧ ∃ bytes, f.toBytes T = some bytes ∧ bytes.length = 1048)
  ∧ ∃ f : StdRibbon 7, StdRibbon.fromKeys (rawSlots128 T) 7 keys = some (.ok f)
    ∧ f.sizeBytes = 1008 ∧ ∃ bytes, f.toBytes T = some bytes ∧ bytes.length = 1048
  := by
  intro T keys
  have hR : checkWidth 7 := ⟨by decide, by decide⟩
  have hlen : keys.length = 1000 := by
    rw [List.length_append, List.length_replicate, List.length_replicate]
  have hkeys : keys.toFinset.card ≤ 2 := by
    rw [List.toFinset_append, List.toFinset_replicate_of_ne_zero (by decide),
      List.toFinset_replicate_of_ne_zero (by decide)]
    decide
  obtain ⟨hhomog, hstd⟩ := @size_of_built T 7 hR keys (by rw [hlen]; decide)
  constructor
  · obtain ⟨b, hbuild, -⟩ := Ribbon.fromKeysSeeded_eq_some (rawSlots T) 7 keys 0
    have halloc : numSlotsFor (rawSlots T) keys.length 7 * 8 ≤ T.isizeMax := by
      rw [hlen]
      decide +kernel
    obtain ⟨s, hs, hsize, hbytes⟩ := hhomog _ (.fromKeysSeeded halloc hbuild)
    have hleast :
        IsLeast {s | W ∣ s ∧ 2 * W ≤ s ∧ (272 + 7) * keys.length < 256 * (s + 1)} 1152 := by
      rw [hlen]
      refine ⟨⟨by decide, by decide, by decide⟩, ?_⟩
      rintro s ⟨⟨q, rfl⟩, -, hcover⟩
      rw [W] at hcover ⊢
      omega
    rw [hs.unique hleast] at hsize
    have hsizeBytes : Ribbon.sizeBytes ⟨b.solve⟩ = 1008 := by omega
    rw [hsizeBytes] at hbytes
    exact ⟨_, hbuild, hsizeBytes, hbytes⟩
  · obtain ⟨soln, hsoln, -⟩ :=
      StdRibbon.exists_firstOutcome_of_card_le_two (rawSlots128 T) 7 hkeys
    have hbuild : StdRibbon.fromKeys (rawSlots128 T) 7 keys = some (.ok ⟨soln⟩) := by
      rw [StdRibbon.fromKeys_eq, hsoln]
      rfl
    have halloc : numSlotsFor128 (rawSlots128 T) keys.length 7 * 16 ≤ T.isizeMax := by
      rw [hlen]
      decide +kernel
    obtain ⟨s, hs, hsize, hbytes⟩ := hstd _ (.fromKeys halloc hbuild)
    have hleast :
        IsLeast {s | W128 ∣ s ∧ 2 * W128 ≤ s ∧ (528 + 7) * keys.length < 512 * (s + 1)} 1152 := by
      rw [hlen]
      refine ⟨⟨by decide, by decide, by decide⟩, ?_⟩
      rintro s ⟨⟨q, rfl⟩, -, hcover⟩
      rw [W128] at hcover ⊢
      omega
    rw [hs.unique hleast] at hsize
    have hsizeBytes : StdRibbon.sizeBytes ⟨soln⟩ = 1008 := by omega
    rw [hsizeBytes] at hbytes
    exact ⟨_, hbuild, hsizeBytes, hbytes⟩

end Pleat
