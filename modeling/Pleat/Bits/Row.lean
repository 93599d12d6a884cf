import Pleat.Linear.Echelon
import Mathlib.Algebra.BigOperators.Intervals
import Mathlib.Algebra.Field.ZMod
import Mathlib.Algebra.Module.ZMod
import Mathlib.Data.BitVec
import Mathlib.Data.ZMod.Basic

/-!
# Machine words as rows over the two-element field

The bits of a machine word are scalars of the field with two elements.  A word placed at a
column is the family of coefficients that has the bits of the word from that column on and
zeros elsewhere.  Exclusive-or of words is addition of rows, dropping trailing zeros of a
word is moving the column it stands at, and the parity of the population count of a word
is the sum of its bits.
-/

namespace Bits

open Linear

variable {w : ℕ}

/-- The field with two elements. -/
abbrev Gf2 : Type := ZMod 2

/-- Bit `k` of a word. -/
def bit (c : BitVec w) (k : ℕ) : Gf2 :=
  if c.getLsbD k then 1 else 0

theorem bit_of_true {c : BitVec w} {k : ℕ} (h : c.getLsbD k = true) :
  bit c k = 1
  := if_pos h

theorem bit_of_false {c : BitVec w} {k : ℕ} (h : c.getLsbD k = false) :
  bit c k = 0
  := by simp [bit, h]

theorem bit_of_ge {c : BitVec w} {k : ℕ} (h : w ≤ k) :
  bit c k = 0
  := bit_of_false (BitVec.getLsbD_of_ge c k h)

theorem bit_eq_one_iff {c : BitVec w} {k : ℕ} :
  bit c k = 1 ↔ c.getLsbD k = true
  := by
  cases h : c.getLsbD k <;> simp [bit, h]

theorem bit_zero :
  bit (0 : BitVec w) = 0
  := by
  funext k
  simp [bit]

theorem bit_xor (c d : BitVec w) :
  bit (c ^^^ d) = bit c + bit d
  := by
  funext k
  rw [Pi.add_apply, bit, bit, bit, BitVec.getLsbD_xor]
  cases c.getLsbD k <;> cases d.getLsbD k <;> decide

theorem bit_and (c d : BitVec w) (k : ℕ) :
  bit (c &&& d) k = bit c k * bit d k
  := by
  rw [bit, bit, bit, BitVec.getLsbD_and]
  cases c.getLsbD k <;> cases d.getLsbD k <;> decide

theorem bit_ushiftRight (c : BitVec w) (t k : ℕ) :
  bit (c >>> t) k = bit c (t + k)
  := by
  rw [bit, bit, BitVec.getLsbD_ushiftRight]

/-- A word is determined by its bits. -/
theorem bit_injective :
  Function.Injective (bit : BitVec w → ℕ → Gf2)
  := by
  intro c d h
  apply BitVec.eq_of_getLsbD_eq
  intro k _
  rw [Bool.eq_iff_iff, ← bit_eq_one_iff, ← bit_eq_one_iff, h]

theorem bit_eq_zero_iff {c : BitVec w} :
  bit c = 0 ↔ c = 0
  := by
  constructor
  · intro h
    apply bit_injective
    rw [h, bit_zero]
  · rintro rfl
    apply bit_zero

/-- The population count of a word is, modulo two, the sum of its bits. -/
theorem cast_cpop (c : BitVec w) :
  (c.cpop.toNat : Gf2) = ∑ k ∈ Finset.range w, bit c k
  := by
  have h : ∀ n, (c.cpopNatRec n 0 : Gf2) = ∑ k ∈ Finset.range n, bit c k := by
    intro n
    induction n with
    | zero => simp
    | succ n ih =>
        rw [BitVec.cpopNatRec_succ, BitVec.cpopNatRec_add, Nat.cast_add, ih,
          Finset.sum_range_succ]
        congr 1
        cases hn : c.getLsbD n <;> simp [bit, hn]
  rw [BitVec.toNat_cpop]
  apply h

/-- The parity of the population count is even exactly when the bits sum to zero. -/
theorem cpop_mod_two_eq_zero_iff (c : BitVec w) :
  c.cpop.toNat % 2 = 0 ↔ ∑ k ∈ Finset.range w, bit c k = 0
  := by
  rw [← cast_cpop, ZMod.natCast_eq_zero_iff_even, Nat.even_iff]

/-- The parity of a word of two halves is that of their sum. -/
theorem sum_bit_fold {m : ℕ} (c : BitVec (m + m)) :
  ∑ k ∈ Finset.range m, bit (c.setWidth m ^^^ (c >>> m).setWidth m) k
    = ∑ k ∈ Finset.range (m + m), bit c k
  := by
  rw [Finset.sum_range_add, ← Finset.sum_add_distrib]
  apply Finset.sum_congr rfl
  intro k hk
  have hkm : k < m := Finset.mem_range.mp hk
  rw [bit_xor, Pi.add_apply, ← bit_ushiftRight c m k]
  simp [bit, hkm]

/-- The parity of a word is a given bit of another when the sum of its bits is. -/
theorem cpop_mod_two_eq_iff (c : BitVec w) (e : BitVec 32) (i : ℕ) :
  c.cpop.toNat % 2 = (e >>> i &&& 1).toNat ↔ ∑ k ∈ Finset.range w, bit c k = bit e i
  := by
  have hbit : (e >>> i &&& 1).toNat = if e.getLsbD i then 1 else 0 := by
    have hone : (1 : BitVec 32).toNat = 1 := rfl
    rw [BitVec.toNat_and, hone, Nat.and_one_is_mod, BitVec.toNat_ushiftRight,
      ← BitVec.testBit_toNat, Nat.testBit_eq_decide_div_mod_eq, Nat.shiftRight_eq_div_pow]
    have := Nat.mod_two_eq_zero_or_one (e.toNat / 2 ^ i)
    rcases this with h | h <;> simp [h]
  rw [← cast_cpop, hbit, bit]
  cases e.getLsbD i with
  | false =>
      rw [if_neg Bool.false_ne_true, if_neg Bool.false_ne_true, ZMod.natCast_eq_zero_iff_even,
        Nat.even_iff]
  | true =>
      rw [if_pos rfl, if_pos rfl, ZMod.natCast_eq_one_iff_odd, Nat.odd_iff]
/-- A sum over the bits of a word, with the term of the low bit apart. -/
theorem sum_range_eq_add_low {M : Type*} [AddCommMonoid M] (hw : 0 < w) (f : ℕ → M) :
  ∑ k ∈ Finset.range w, f k = ∑ k ∈ Finset.range (w - 1), f (k + 1) + f 0
  := by
  obtain ⟨v, rfl⟩ := Nat.exists_eq_add_of_lt hw
  rw [Nat.zero_add, Finset.sum_range_succ', Nat.add_sub_cancel]

/-- Over the field with two elements the combinations of a family are the sums of its finite
parts. -/
theorem mem_span_range_iff {ι M : Type*} [AddCommGroup M] [Module Gf2 M] {f : ι → M} {v : M} :
  v ∈ Submodule.span Gf2 (Set.range f) ↔ ∃ S : Finset ι, ∑ i ∈ S, f i = v
  := by
  have hone : ∀ a : Gf2, a ≠ 0 → a = 1 := by decide
  rw [Finsupp.mem_span_range_iff_exists_finsupp]
  constructor
  · rintro ⟨l, rfl⟩
    use l.support
    apply Finset.sum_congr rfl
    intro i hi
    change f i = l i • f i
    rw [hone (l i) (Finsupp.mem_support_iff.mp hi), one_smul]
  · rintro ⟨S, rfl⟩
    use Finsupp.indicator S (fun _ _ => 1)
    rw [Finsupp.sum_of_support_subset _ (Finsupp.support_indicator_subset ..) _ (by simp)]
    apply Finset.sum_congr rfl
    intro i hi
    rw [Finsupp.indicator_of_mem hi, one_smul]

/-- The combinations of the members of a set of a family are the sums of its finite parts. -/
theorem mem_span_image_iff {ι M : Type*} [AddCommGroup M] [Module Gf2 M] {f : ι → M} {A : Set ι}
    {v : M} :
  v ∈ Submodule.span Gf2 (f '' A) ↔ ∃ S : Finset ι, (∀ i ∈ S, i ∈ A) ∧ ∑ i ∈ S, f i = v
  := by
  constructor
  · rw [Set.image_eq_range]
    intro hv
    obtain ⟨S, rfl⟩ := mem_span_range_iff.mp hv
    use S.map (Function.Embedding.subtype A)
    constructor
    · intro i hi
      obtain ⟨a, -, rfl⟩ := Finset.mem_map.mp hi
      apply a.property
    · rw [Finset.sum_map]
      rfl
  · rintro ⟨S, hS, rfl⟩
    apply Submodule.sum_mem
    intro i hi
    exact Submodule.subset_span ⟨i, hS i hi, rfl⟩

/-- The exclusive-or of a family of words over a finite set. -/
def xorOver {ι : Type*} (S : Finset ι) (f : ι → BitVec w) : BitVec w :=
  S.fold (fun x y => x ^^^ y) 0 f

theorem bit_xorOver {ι : Type*} (S : Finset ι) (f : ι → BitVec w) :
  bit (xorOver S f) = ∑ i ∈ S, bit (f i)
  := by
  classical
  induction S using Finset.induction_on with
  | empty => exact bit_zero
  | insert i S hi ih =>
      rw [xorOver, Finset.fold_insert hi, bit_xor, Finset.sum_insert hi, ← ih]
      rfl

/-! ### Placing a word -/

/-- The row that has the bits of `c` from column `i` on. -/
noncomputable def place (i : ℕ) (c : BitVec w) : ℕ →₀ Gf2 :=
  Finsupp.onFinset (Finset.Ico i (i + w)) (fun k => if i ≤ k then bit c (k - i) else 0) (by
    intro k hk
    rw [Finset.mem_Ico]
    by_contra h
    apply hk
    by_cases hik : i ≤ k
    · rw [if_pos hik, bit_of_ge (by omega)]
    · rw [if_neg hik])

theorem place_apply (i : ℕ) (c : BitVec w) (k : ℕ) :
  place i c k = if i ≤ k then bit c (k - i) else 0
  := rfl

theorem support_place_subset (i : ℕ) (c : BitVec w) :
  (place i c).support ⊆ Finset.Ico i (i + w)
  := Finsupp.support_onFinset_subset

theorem place_zero (i : ℕ) :
  place i (0 : BitVec w) = 0
  := by
  ext k
  rw [place_apply, bit_zero, Pi.zero_apply, ite_self, Finsupp.zero_apply]

theorem place_xor (i : ℕ) (c d : BitVec w) :
  place i (c ^^^ d) = place i c + place i d
  := by
  ext k
  rw [Finsupp.add_apply, place_apply, place_apply, place_apply, bit_xor]
  split_ifs <;> simp

theorem place_injective (i : ℕ) :
  Function.Injective (place i : BitVec w → ℕ →₀ Gf2)
  := by
  intro c d h
  apply bit_injective
  funext k
  have hk := DFunLike.congr_fun h (i + k)
  rw [place_apply, place_apply, if_pos (Nat.le_add_right i k), if_pos (Nat.le_add_right i k),
    Nat.add_sub_cancel_left] at hk
  apply hk

/-- Dropping zeros from the low end of a word moves it to a later column. -/
theorem place_ushiftRight {c : BitVec w} {t : ℕ} (h : ∀ k < t, c.getLsbD k = false) (i : ℕ) :
  place (i + t) (c >>> t) = place i c
  := by
  ext k
  rw [place_apply, place_apply]
  by_cases hik : i + t ≤ k
  · rw [if_pos hik, if_pos (by omega), bit_ushiftRight]
    congr 1
    omega
  · rw [if_neg hik]
    split_ifs with hk
    · rw [bit_of_false (h _ (by omega))]
    · rfl

/-- A word with its low bit set leads at the column it is placed at. -/
theorem leads_place {c : BitVec w} (h : c.getLsbD 0 = true) (i : ℕ) :
  Leads i (place i c)
  := by
  constructor
  · rw [place_apply, if_pos le_rfl, Nat.sub_self, bit_of_true h]
  · intro k hk
    rw [place_apply, if_neg (by omega)]

/-- The left-hand side of the equation with a placed word for its coefficients. -/
theorem linearCombination_place
    {V : Type*} [AddCommGroup V] [Module Gf2 V] (x : ℕ → V) (i : ℕ) (c : BitVec w) :
  Finsupp.linearCombination Gf2 x (place i c)
    = ∑ k ∈ Finset.range w, bit c k • x (i + k)
  := by
  rw [Finsupp.linearCombination_apply,
    Finsupp.sum_of_support_subset _ (support_place_subset i c) _ (by simp),
    Finset.sum_Ico_eq_sum_range, Nat.add_sub_cancel_left]
  apply Finset.sum_congr rfl
  intro k _
  rw [place_apply, if_pos (by omega), Nat.add_sub_cancel_left]

/-! ### The bits of a word -/

/-- The bits of a word, as a family over its positions. -/
def bits (c : BitVec w) (k : Fin w) : Gf2 :=
  bit c k

/-- There is one word for each family of bits. -/
theorem bits_bijective :
  Function.Bijective (bits : BitVec w → Fin w → Gf2)
  := by
  have hinj : Function.Injective (bits : BitVec w → Fin w → Gf2) := by
    intro c d h
    apply bit_injective
    funext k
    by_cases hk : k < w
    · apply congrFun h ⟨k, hk⟩
    · rw [bit_of_ge (by omega), bit_of_ge (by omega)]
  have e : BitVec w ≃ Fin (2 ^ w) := ⟨BitVec.toFin, BitVec.ofFin, fun _ => rfl, fun _ => rfl⟩
  have : Finite (BitVec w) := Finite.of_equiv _ e.symm
  apply hinj.bijective_of_nat_card_le
  rw [Nat.card_congr e]
  simp

/-- The low bits of two words agree. -/
theorem forall_bit_eq_iff {w : ℕ} (R : ℕ) (c d : BitVec w) :
  (∀ j < R, bit c j = bit d j) ↔ c.setWidth R = d.setWidth R
  := by
  constructor
  · intro h
    apply BitVec.eq_of_getLsbD_eq
    intro j hj
    have hbit : c.getLsbD j = d.getLsbD j := by
      rw [Bool.eq_iff_iff, ← bit_eq_one_iff, ← bit_eq_one_iff, h j hj]
    rw [BitVec.getLsbD_setWidth, BitVec.getLsbD_setWidth, hbit]
  · intro h j hj
    have hbit := congrArg (fun x => x.getLsbD j) h
    simp only [BitVec.getLsbD_setWidth, hj, decide_true, Bool.true_and] at hbit
    rw [bit, bit, hbit]

end Bits
