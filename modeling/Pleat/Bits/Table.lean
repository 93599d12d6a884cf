import Pleat.Bits.Row
import Mathlib.Data.Nat.Size
import Mathlib.LinearAlgebra.Pi

/-!
# Banded tables of rows

A table holds at each slot a word of coefficients, placed at the slot, and a word of
results; the slot is empty when the coefficients are zero.  A well-formed table of `n`
slots is an echelon system over the two-element field: each row has its low bit set and
does not reach past slot `n`.

Inserting a row adds up stored rows until the row either meets an empty slot, where it is
placed, or vanishes, in which case it was a combination of the stored rows or contradicts
one.  `Insertion` lists these three outcomes; what they leave of the span, the form of the
table and the consistency of the system follows from it alone.
-/

namespace Bits

open Linear

variable {w r : ℕ}

/-- The equations of the rows of a table. -/
abbrev RowEquation : Type :=
  Equation Gf2 ℕ (ℕ → Gf2)

/-- The result of an equation in column `j`. -/
abbrev column (j : ℕ) : (ℕ → Gf2) →ₗ[Gf2] Gf2 :=
  LinearMap.proj j

/-- The equation of a row with coefficients `c` placed at slot `i` and results `b`. -/
noncomputable def equationAt (i : ℕ) (c : BitVec w) (b : BitVec r) : RowEquation :=
  (place i c, bit b)

theorem equationAt_zero (i : ℕ) :
  equationAt i (0 : BitVec w) (0 : BitVec r) = 0
  := by
  rw [equationAt, place_zero, bit_zero]
  rfl

theorem equationAt_xor (i : ℕ) (c d : BitVec w) (a b : BitVec r) :
  equationAt i (c ^^^ d) (a ^^^ b) = equationAt i c a + equationAt i d b
  := by
  rw [equationAt, place_xor, bit_xor]
  rfl

/-- The word `c` placed at slot `i` has its low bit set and does not reach past slot `n`. -/
def Within (n i : ℕ) (c : BitVec w) : Prop :=
  c.getLsbD 0 = true ∧ ∀ k, c.getLsbD k = true → i + k < n

theorem Within.slot_lt {n i : ℕ} {c : BitVec w} (h : Within n i c) :
  i < n
  := h.2 0 h.1

theorem Within.ne_zero {n i : ℕ} {c : BitVec w} (h : Within n i c) :
  c ≠ 0
  := by
  rintro rfl
  simpa using h.1

/-- The row of a word within the table is a row over its columns. -/
theorem Within.support_subset {n i : ℕ} {c : BitVec w} (h : Within n i c) :
  (place i c).support ⊆ Finset.range n
  := by
  intro k hk
  rw [Finsupp.mem_support_iff, place_apply] at hk
  rw [Finset.mem_range]
  by_contra hge
  apply hk
  split
  · rename_i hik
    apply bit_of_false
    rw [Bool.eq_false_iff]
    intro hbit
    have hlt := h.2 _ hbit
    omega
  · rfl

/-- The number of bits of a word up to the highest one that is set. -/
def bitLength (c : BitVec w) : ℕ :=
  Nat.size c.toNat

theorem lt_bitLength {c : BitVec w} {k : ℕ} (h : c.getLsbD k = true) :
  k < bitLength c
  := by
  rw [bitLength, Nat.lt_size]
  apply Nat.ge_two_pow_of_testBit
  rw [BitVec.testBit_toNat, h]

theorem bitLength_le {c : BitVec w} {m : ℕ} (h : ∀ k, c.getLsbD k = true → k < m) :
  bitLength c ≤ m
  := by
  rw [bitLength, Nat.size_le]
  apply Nat.lt_pow_two_of_testBit
  intro k hk
  rw [BitVec.testBit_toNat, Bool.eq_false_iff]
  intro hbit
  exact absurd (h k hbit) (not_lt.mpr hk)

/-- A word is within the table when its low bit is set and it ends by slot `n`. -/
theorem within_iff {n i : ℕ} {c : BitVec w} :
  Within n i c ↔ c.getLsbD 0 = true ∧ i + bitLength c ≤ n
  := by
  constructor
  · intro h
    have hslot := h.slot_lt
    have hle : bitLength c ≤ n - i := by
      apply bitLength_le
      intro k hk
      have hlt := h.2 k hk
      omega
    exact ⟨h.1, by omega⟩
  · rintro ⟨hlow, hle⟩
    use hlow
    intro k hk
    have hlt := lt_bitLength hk
    omega

/-! ### Adding a stored row -/

/-- Adding to a row the row stored at its slot and moving on to the first bit that remains
adds the equation of the stored row. -/
theorem equationAt_advance (i : ℕ) (c d : BitVec w) (a b : BitVec r) :
  equationAt (i + (c ^^^ d).ctz.toNat) ((c ^^^ d) >>> (c ^^^ d).ctz.toNat) (a ^^^ b)
    = equationAt i c a + equationAt i d b
  := by
  rw [← equationAt_xor, equationAt, equationAt, place_ushiftRight]
  intro k hk
  apply BitVec.getLsbD_false_of_lt_ctz hk

/-- Adding to a row the row stored at its slot, if anything remains, moves on to a later
slot and keeps the row within the table. -/
theorem Within.advance
    {n i : ℕ} {c d : BitVec w} (hc : Within n i c) (hd : Within n i d) (hx : c ^^^ d ≠ 0) :
  0 < (c ^^^ d).ctz.toNat
    ∧ Within n (i + (c ^^^ d).ctz.toNat) ((c ^^^ d) >>> (c ^^^ d).ctz.toNat)
  := by
  have hlow : (c ^^^ d).getLsbD 0 = false := by
    rw [BitVec.getLsbD_xor, hc.1, hd.1]
    rfl
  have hbit : (c ^^^ d).getLsbD (c ^^^ d).ctz.toNat = true :=
    BitVec.getLsbD_true_ctz_of_ne_zero hx
  constructor
  · rw [Nat.pos_iff_ne_zero]
    intro h
    rw [h, hlow] at hbit
    apply Bool.false_ne_true hbit
  · constructor
    · rw [BitVec.getLsbD_ushiftRight, Nat.add_zero, hbit]
    · intro k hk
      rw [BitVec.getLsbD_ushiftRight, BitVec.getLsbD_xor] at hk
      rw [Nat.add_assoc]
      cases hck : c.getLsbD ((c ^^^ d).ctz.toNat + k) with
      | true => apply hc.2 _ hck
      | false =>
          rw [hck, Bool.false_xor] at hk
          apply hd.2 _ hk

/-! ### Tables -/

/-- A table: the coefficients and the results of the row at each slot. -/
abbrev Table (w r : ℕ) : Type :=
  ℕ → BitVec w × BitVec r

namespace Table

/-- The equation of the row at a slot. -/
noncomputable def equation (t : Table w r) (i : ℕ) : RowEquation :=
  equationAt i (t i).1 (t i).2

/-- The span of the equations of a table. -/
noncomputable def span (t : Table w r) : Submodule Gf2 RowEquation :=
  Submodule.span Gf2 (Set.range t.equation)

theorem equation_mem_span (t : Table w r) (i : ℕ) :
  t.equation i ∈ t.span
  := Submodule.subset_span ⟨i, rfl⟩

/-- Every row of the table has its low bit set and stays before slot `n`, and the empty
slots have no result. -/
structure WellFormed (t : Table w r) (n : ℕ) : Prop where
  within : ∀ i, (t i).1 ≠ 0 → Within n i (t i).1
  empty : ∀ i, (t i).1 = 0 → (t i).2 = 0

theorem WellFormed.equation_eq_zero
    {t : Table w r} {n : ℕ} (h : t.WellFormed n) {i : ℕ} (hi : (t i).1 = 0) :
  t.equation i = 0
  := by
  rw [equation, hi, h.empty i hi]
  apply equationAt_zero

/-- The echelon system of a well-formed table; its pivots are the occupied slots. -/
noncomputable def echelon (t : Table w r) {n : ℕ} (h : t.WellFormed n) :
    Echelon Gf2 ℕ (ℕ → Gf2) where
  pivots := (Finset.range n).filter (fun i => (t i).1 ≠ 0)
  equation := t.equation
  leads := by
    intro i hi
    apply leads_place (h.within i (Finset.mem_filter.mp hi).2).1 i

theorem mem_pivots_echelon {t : Table w r} {n : ℕ} (h : t.WellFormed n) (i : ℕ) :
  i ∈ (t.echelon h).pivots ↔ (t i).1 ≠ 0
  := by
  rw [echelon, Finset.mem_filter, Finset.mem_range]
  constructor
  · intro hi
    apply hi.2
  · intro hi
    exact ⟨(h.within i hi).slot_lt, hi⟩

theorem span_echelon {t : Table w r} {n : ℕ} (h : t.WellFormed n) :
  (t.echelon h).span = t.span
  := by
  apply le_antisymm
  · apply Submodule.span_mono
    rintro _ ⟨i, -, rfl⟩
    exact ⟨i, rfl⟩
  · apply Submodule.span_le.mpr
    rintro _ ⟨i, rfl⟩
    by_cases hi : (t i).1 = 0
    · rw [h.equation_eq_zero hi]
      apply Submodule.zero_mem
    · exact Submodule.subset_span ⟨i, (mem_pivots_echelon h i).mpr hi, rfl⟩

/-- An assignment solves the echelon system of a table when it satisfies the equation of
every occupied slot. -/
theorem solves_echelon_iff
    {V : Type*} [AddCommGroup V] [Module Gf2 V] {t : Table w r} {n : ℕ} (h : t.WellFormed n)
    (f : (ℕ → Gf2) →ₗ[Gf2] V) (x : ℕ → V) :
  Solves f x (t.echelon h).equations
    ↔ ∀ i, (t i).1 ≠ 0 →
        ∑ k ∈ Finset.range w, bit (t i).1 k • x (i + k) = f (bit (t i).2)
  := by
  rw [Echelon.solves_iff]
  constructor
  · intro hx i hi
    rw [← linearCombination_place]
    apply hx i ((mem_pivots_echelon h i).mpr hi)
  · intro hx i hi
    have hi' := hx i ((mem_pivots_echelon h i).mp hi)
    rw [← linearCombination_place] at hi'
    apply hi'

/-- The occupied slots are the leading columns of the equations in the span. -/
theorem WellFormed.occupied_iff {t : Table w r} {n : ℕ} (h : t.WellFormed n) (i : ℕ) :
  (t i).1 ≠ 0 ↔ ∃ e ∈ t.span, Leads i e.1
  := by
  rw [← mem_pivots_echelon h, Echelon.mem_pivots_iff, span_echelon]

/-- The system of a well-formed table is consistent. -/
theorem WellFormed.eq_zero_of_mem_span {t : Table w r} {n : ℕ} (h : t.WellFormed n)
    {v : ℕ → Gf2} (hv : ((0, v) : RowEquation) ∈ t.span) :
  v = 0
  := by
  rw [← span_echelon h] at hv
  apply (t.echelon h).consistent.eq_zero_of_mem_span hv

/-- The table all of whose slots are empty. -/
theorem wellFormed_zero (n : ℕ) :
  WellFormed (0 : Table w r) n
  where
  within _ hi := absurd rfl hi
  empty _ _ := rfl

theorem span_zero :
  span (0 : Table w r) = ⊥
  := by
  rw [span, Submodule.span_eq_bot]
  rintro _ ⟨i, rfl⟩
  apply equationAt_zero

/-! ### Placing a row -/

theorem WellFormed.update
    {t : Table w r} {n : ℕ} (h : t.WellFormed n) {j : ℕ} {c : BitVec w} (hc : Within n j c)
    (b : BitVec r) :
  WellFormed (Function.update t j (c, b)) n
  where
  within i hi := by
    by_cases hij : i = j
    · subst hij
      rw [Function.update_self]
      apply hc
    · rw [Function.update_of_ne hij] at hi ⊢
      apply h.within i hi
  empty i hi := by
    by_cases hij : i = j
    · subst hij
      rw [Function.update_self] at hi
      exact absurd hi hc.ne_zero
    · rw [Function.update_of_ne hij] at hi ⊢
      apply h.empty i hi

/-- Placing a row in an empty slot adds its equation to the span. -/
theorem span_update
    {t : Table w r} {n : ℕ} (h : t.WellFormed n) {j : ℕ} (hj : (t j).1 = 0)
    (c : BitVec w) (b : BitVec r) :
  span (Function.update t j (c, b)) = t.span ⊔ Submodule.span Gf2 {equationAt j c b}
  := by
  have hself : equation (Function.update t j (c, b)) j = equationAt j c b := by
    rw [equation, Function.update_self]
  have hne : ∀ i, i ≠ j → equation (Function.update t j (c, b)) i = t.equation i := by
    intro i hi
    rw [equation, Function.update_of_ne hi, equation]
  apply le_antisymm
  · apply Submodule.span_le.mpr
    rintro _ ⟨i, rfl⟩
    by_cases hi : i = j
    · rw [hi, hself]
      apply Submodule.mem_sup_right (Submodule.mem_span_singleton_self _)
    · rw [hne i hi]
      apply Submodule.mem_sup_left (t.equation_mem_span i)
  · apply sup_le
    · apply Submodule.span_le.mpr
      rintro _ ⟨i, rfl⟩
      by_cases hi : i = j
      · rw [hi, h.equation_eq_zero hj]
        apply Submodule.zero_mem
      · rw [← hne i hi]
        apply equation_mem_span
    · rw [Submodule.span_singleton_le_iff_mem, ← hself]
      apply equation_mem_span

end Table

/-! ### Tables of lists -/

namespace Table

/-- The table with the rows of two lists at the slots from `base` on; no other slot is
occupied. -/
def ofLists (base : ℕ) (coeffs : List (BitVec w)) (results : List (BitVec r)) : Table w r :=
  fun i => if base ≤ i then (coeffs.getD (i - base) 0, results.getD (i - base) 0) else 0

variable {base : ℕ} {coeffs : List (BitVec w)} {results : List (BitVec r)}

theorem ofLists_add (base : ℕ) (coeffs : List (BitVec w)) (results : List (BitVec r)) (i : ℕ) :
  ofLists base coeffs results (base + i) = (coeffs.getD i 0, results.getD i 0)
  := by
  rw [ofLists, if_pos (Nat.le_add_right base i), Nat.add_sub_cancel_left]

theorem ofLists_of_lt {i : ℕ} (hi : i < base) :
  ofLists base coeffs results i = 0
  := if_neg (by omega)

/-- Writing a row to the lists places it in the table.  A table may have a list of results
too short to write to, if the result of the row is zero. -/
theorem ofLists_set (base : ℕ) {i : ℕ} (hi : i < coeffs.length) (c : BitVec w) {b : BitVec r}
    (hb : (results.set i b).getD i 0 = b) :
  ofLists base (coeffs.set i c) (results.set i b)
    = Function.update (ofLists base coeffs results) (base + i) (c, b)
  := by
  funext k
  by_cases hk : k = base + i
  · subst hk
    rw [Function.update_self, ofLists_add, hb]
    simp [hi]
  · rw [Function.update_of_ne hk]
    by_cases hbase : base ≤ k
    · obtain ⟨m, rfl⟩ := Nat.exists_eq_add_of_le hbase
      have hm : i ≠ m := fun h => hk (by rw [h])
      rw [ofLists_add, ofLists_add]
      simp [List.getElem?_set_ne hm]
    · rw [ofLists_of_lt (by omega), ofLists_of_lt (by omega)]

theorem ofLists_replicate (n m : ℕ) :
  ofLists base (List.replicate n (0 : BitVec w)) (List.replicate m (0 : BitVec r)) = 0
  := by
  funext k
  simp only [ofLists, List.getD_eq_getElem?_getD, List.getElem?_replicate]
  split_ifs <;> rfl

end Table

/-! ### Inserting a row -/

/-- What inserting the equation `e` into a table of `n` slots leaves, and whether the
insertion is accepted. -/
inductive Insertion (t : Table w r) (n : ℕ) (e : RowEquation) : Table w r → Bool → Prop where
  | placed {j : ℕ} {c : BitVec w} {b : BitVec r} :
      (t j).1 = 0 → Within n j c → e - equationAt j c b ∈ t.span →
        Insertion t n e (Function.update t j (c, b)) true
  | dependent : e ∈ t.span → Insertion t n e t true
  | inconsistent {b : BitVec r} : b ≠ 0 → e - (0, bit b) ∈ t.span → Insertion t n e t false

namespace Insertion

variable {t t' : Table w r} {n : ℕ} {e e' : RowEquation} {ok : Bool}

/-- Equations that differ by a combination of the stored rows have the same insertions. -/
theorem of_sub_mem (h : Insertion t n e' t' ok) (he : e - e' ∈ t.span) :
  Insertion t n e t' ok
  := by
  cases h with
  | placed hj hc hmem =>
      apply placed hj hc
      rw [← sub_add_sub_cancel]
      apply Submodule.add_mem _ he hmem
  | dependent hmem =>
      apply dependent
      rw [← sub_add_cancel e e']
      apply Submodule.add_mem _ he hmem
  | inconsistent hb hmem =>
      apply inconsistent hb
      rw [← sub_add_sub_cancel]
      apply Submodule.add_mem _ he hmem

/-- A row whose coefficients are those stored at its slot differs from the stored row by
its result alone. -/
theorem sub_mem_span_of_xor_eq_zero
    {i : ℕ} {c d : BitVec w} {a b : BitVec r} (hi : t i = (d, b)) (hc : c ^^^ d = 0) :
  equationAt i c a - (0, bit (a ^^^ b)) ∈ t.span
  := by
  have hmem := t.equation_mem_span i
  have h := equationAt_xor i c d a b
  rw [Table.equation, hi] at hmem
  rw [hc, equationAt, place_zero] at h
  rw [h, sub_add_cancel_left]
  apply Submodule.neg_mem _ hmem

/-- The insertion of a row whose coefficients are those stored at its slot. -/
theorem of_xor_eq_zero
    {i : ℕ} {c d : BitVec w} {a b : BitVec r} (hi : t i = (d, b)) (hc : c ^^^ d = 0) :
  Insertion t n (equationAt i c a) t (a ^^^ b == 0)
  := by
  have h := sub_mem_span_of_xor_eq_zero (a := a) hi hc
  by_cases hab : a ^^^ b = 0
  · rw [hab, bit_zero, Prod.mk_zero_zero, sub_zero] at h
    rw [hab]
    apply dependent h
  · rw [beq_eq_false_iff_ne.mpr hab]
    apply inconsistent hab h

theorem wellFormed (h : Insertion t n e t' ok) (ht : t.WellFormed n) :
  t'.WellFormed n
  := by
  cases h with
  | placed _ hc _ => apply ht.update hc
  | dependent _ => apply ht
  | inconsistent _ _ => apply ht

/-- An accepted insertion adds the equation to the span. -/
theorem span_eq (h : Insertion t n e t' true) (ht : t.WellFormed n) :
  t'.span = t.span ⊔ Submodule.span Gf2 {e}
  := by
  cases h with
  | @placed j c b hj _ he =>
      rw [Table.span_update ht hj]
      -- Modulo the stored rows the new row and the inserted one are the same.
      have key : ∀ {p q : RowEquation}, p - q ∈ t.span →
          t.span ⊔ Submodule.span Gf2 {q} ≤ t.span ⊔ Submodule.span Gf2 {p} := by
        intro p q hpq
        apply sup_le le_sup_left
        rw [Submodule.span_singleton_le_iff_mem, ← sub_sub_cancel p q]
        apply Submodule.sub_mem
        · apply Submodule.mem_sup_right (Submodule.mem_span_singleton_self p)
        · apply Submodule.mem_sup_left hpq
      apply le_antisymm (key he)
      apply key
      rw [← neg_sub]
      apply Submodule.neg_mem _ he
  | dependent he =>
      symm
      rw [sup_eq_left, Submodule.span_singleton_le_iff_mem]
      apply he

/-- An accepted insertion leaves the table as it is when the equation is a combination of the
stored rows, and otherwise fills one empty slot. -/
theorem accepted (h : Insertion t n e t' true) (ht : t.WellFormed n) :
  (t' = t ∧ e ∈ t.span) ∨ ∃ j c b, (t j).1 = 0 ∧ Within n j c ∧ t' = Function.update t j (c, b)
    ∧ e ∉ t.span
  := by
  cases h with
  | @placed j c b hj hc hresidue =>
      right
      refine ⟨j, c, b, hj, hc, rfl, ?_⟩
      intro hmem
      -- Otherwise the row placed would lead, in the span, at a slot that is empty.
      have hplaced : equationAt j c b ∈ t.span := by
        rw [← sub_sub_cancel e (equationAt j c b)]
        apply Submodule.sub_mem _ hmem hresidue
      apply (ht.occupied_iff j).mpr ⟨_, hplaced, leads_place hc.1 j⟩ hj
  | dependent hmem => exact .inl ⟨rfl, hmem⟩

/-- A rejected insertion leaves the table as it is, and the equation contradicts it. -/
theorem rejected (h : Insertion t n e t' false) :
  t' = t ∧ ∃ b : BitVec r, b ≠ 0 ∧ e - (0, bit b) ∈ t.span
  := by
  cases h with
  | inconsistent hb he => exact ⟨rfl, _, hb, he⟩

/-- A rejected equation is consistent with no system that spans the table and it. -/
theorem not_consistent
    (h : Insertion t n e t' false) {S : Set RowEquation}
    (ht : t.span ≤ Submodule.span Gf2 S) (he : e ∈ S) :
  ¬ Consistent S
  := by
  intro hS
  obtain ⟨-, b, hb, hmem⟩ := h.rejected
  apply hb
  apply bit_eq_zero_iff.mp
  apply hS.eq_zero_of_mem_span
  rw [← sub_sub_cancel e (0, bit b)]
  apply Submodule.sub_mem _ (Submodule.subset_span he) (ht hmem)

end Insertion

/-! ### A row on its way -/

/-- A row with coefficients `c` and results `a` at slot `i` is what is left, up to stored
rows, of the equation `e` that is being inserted. -/
structure Reducing (t : Table w r) (n : ℕ) (e : RowEquation) (i : ℕ) (c : BitVec w)
    (a : BitVec r) : Prop where
  within : Within n i c
  residue : e - equationAt i c a ∈ t.span

namespace Reducing

variable {t : Table w r} {n i : ℕ} {e : RowEquation} {c d : BitVec w} {a b : BitVec r}

theorem refl (t : Table w r) (hc : Within n i c) (a : BitVec r) :
  Reducing t n (equationAt i c a) i c a
  := by
  use hc
  rw [sub_self]
  apply Submodule.zero_mem

/-- At an empty slot the row is placed. -/
theorem placed (h : Reducing t n e i c a) (hi : (t i).1 = 0) :
  Insertion t n e (Function.update t i (c, a)) true
  := Insertion.placed hi h.within h.residue

/-- A row whose coefficients vanish is dependent or inconsistent. -/
theorem vanished (h : Reducing t n e i c a) (hi : t i = (d, b)) (hc : c ^^^ d = 0) :
  Insertion t n e t (a ^^^ b == 0)
  := (Insertion.of_xor_eq_zero hi hc).of_sub_mem h.residue

/-- Otherwise what is left moves on to a later slot. -/
theorem advanced (h : Reducing t n e i c a) (ht : t.WellFormed n) (hi : t i = (d, b))
    (hd : d ≠ 0) (hc : c ^^^ d ≠ 0) :
  0 < (c ^^^ d).ctz.toNat
    ∧ Reducing t n e (i + (c ^^^ d).ctz.toNat) ((c ^^^ d) >>> (c ^^^ d).ctz.toNat) (a ^^^ b)
  := by
  have hstored := ht.within i
  have hmem := t.equation_mem_span i
  rw [hi] at hstored
  rw [Table.equation, hi] at hmem
  obtain ⟨hpos, hadv⟩ := h.within.advance (hstored hd) hc
  use hpos, hadv
  rw [equationAt_advance, ← sub_sub]
  apply Submodule.sub_mem _ h.residue hmem

end Reducing

end Bits
