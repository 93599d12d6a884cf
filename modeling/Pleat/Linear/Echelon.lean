import Pleat.Linear.Equation
import Mathlib.Order.UpperLower.Basic
import Mathlib.Data.Finset.Max
import Mathlib.LinearAlgebra.LinearIndependent.Defs

/-!
# Echelon systems

A system of equations in unknowns indexed by a linear order is in echelon form when it has
at most one equation for each unknown, whose leading coefficient, equal to one, stands at
that unknown.  The unknowns that lead an equation are the pivots, the others are free.

* Every choice of values for the free unknowns extends to exactly one solution.
* The pivots are the leading positions of the equations in the span, so two echelon
  systems with the same span have the same pivots, and their solutions with the same free
  values are equal.
-/

namespace Linear

variable {K ι V V' : Type*} [Field K] [LinearOrder ι]
  [AddCommGroup V] [Module K V] [AddCommGroup V'] [Module K V']

/-- The leading coefficient of the family `c` is one and stands at `i`. -/
def Leads (i : ι) (c : ι →₀ K) : Prop :=
  c i = 1 ∧ ∀ k < i, c k = 0

theorem Leads.ne_zero {i : ι} {c : ι →₀ K} (h : Leads i c) :
  c ≠ 0
  := by
  rintro rfl
  apply zero_ne_one h.1

/-- A family leads at one place only. -/
theorem Leads.eq {i k : ι} {c : ι →₀ K} (h : Leads i c) (h' : Leads k c) :
  i = k
  := by
  rcases lt_trichotomy i k with hlt | heq | hlt
  · exact absurd (h.1.symm.trans (h'.2 i hlt)) one_ne_zero
  · apply heq
  · exact absurd (h'.1.symm.trans (h.2 k hlt)) one_ne_zero

/-- If `x` vanishes beyond `i`, a family leading at `i` combines `x` to `x i`. -/
theorem Leads.linearCombination_eq
    {i : ι} {c : ι →₀ K} (hc : Leads i c) {x : ι → V'} (hx : ∀ k, i < k → x k = 0) :
  Finsupp.linearCombination K x c = x i
  := by
  rw [Finsupp.linearCombination_apply, Finsupp.sum, Finset.sum_eq_single i]
  · rw [hc.1, one_smul]
  · intro k _ hk
    rcases lt_or_gt_of_ne hk with h | h
    · rw [hc.2 k h, zero_smul]
    · rw [hx k h, smul_zero]
  · intro hi
    rw [Finsupp.notMem_support_iff.mp hi, zero_smul]

/-- Two assignments that agree beyond `i` are combined, by a family leading at `i`, to
values that differ as they do at `i`. -/
theorem Leads.linearCombination_sub_eq
    {i : ι} {c : ι →₀ K} (hc : Leads i c) {x y : ι → V'} (hxy : ∀ k, i < k → x k = y k) :
  Finsupp.linearCombination K x c - Finsupp.linearCombination K y c = x i - y i
  := by
  rw [← linearCombination_sub, hc.linearCombination_eq]
  · rfl
  · intro k hk
    rw [Pi.sub_apply, hxy k hk, sub_self]

/-- An echelon system: for each pivot an equation that leads there. -/
structure Echelon (K ι V : Type*) [Field K] [LinearOrder ι] [AddCommGroup V] [Module K V] where
  pivots : Finset ι
  equation : ι → Equation K ι V
  leads : ∀ i ∈ pivots, Leads i (equation i).1

namespace Echelon

/-- The equations of an echelon system. -/
noncomputable def equations (E : Echelon K ι V) : Set (Equation K ι V) :=
  E.equation '' E.pivots

/-- The span of the equations of an echelon system. -/
noncomputable def span (E : Echelon K ι V) : Submodule K (Equation K ι V) :=
  Submodule.span K E.equations

theorem solves_iff (E : Echelon K ι V) (f : V →ₗ[K] V') (x : ι → V') :
  Solves f x E.equations
    ↔ ∀ i ∈ E.pivots, Finsupp.linearCombination K x (E.equation i).1 = f (E.equation i).2
  := by
  constructor
  · intro h i hi
    apply h _ ⟨i, hi, rfl⟩
  · rintro h _ ⟨i, hi, rfl⟩
    apply h i hi

/-! ### Solutions -/

/-- Changing an unknown before `i` does not change the left-hand side of an equation that
leads at `i`. -/
theorem linearCombination_update_of_lt
    {i a : ι} {c : ι →₀ K} (hc : Leads i c) (ha : a < i) (x : ι → V') (v : V') :
  Finsupp.linearCombination K (Function.update x a v) c = Finsupp.linearCombination K x c
  := by
  rw [Finsupp.linearCombination_apply, Finsupp.linearCombination_apply]
  apply Finsupp.sum_congr
  intro k _
  by_cases hk : k = a
  · rw [hk, hc.2 a ha, zero_smul, zero_smul]
  · rw [Function.update_of_ne hk]

/-- Every choice of values for the free unknowns extends to a solution. -/
theorem exists_solution (E : Echelon K ι V) (f : V →ₗ[K] V') (fill : ι → V') :
  ∃ x : ι → V', (∀ i ∉ E.pivots, x i = fill i) ∧ Solves f x E.equations
  := by
  -- The pivots are taken from the last one down: changing the unknown at a pivot leaves
  -- the equations of the later pivots as they are.
  suffices h : ∀ P : Finset ι, P ⊆ E.pivots → ∃ x : ι → V', (∀ i ∉ P, x i = fill i) ∧
      ∀ i ∈ P, Finsupp.linearCombination K x (E.equation i).1 = f (E.equation i).2 by
    obtain ⟨x, hfree, hx⟩ := h E.pivots subset_rfl
    exact ⟨x, hfree, (E.solves_iff f x).mpr hx⟩
  intro P
  induction P using Finset.induction_on_min with
  | empty =>
      intro _
      use fill
      simp
  | insert a s ha ih =>
      intro hP
      obtain ⟨x, hfree, hx⟩ := ih (fun i hi => hP (Finset.mem_insert_of_mem hi))
      have hlead := E.leads a (hP (Finset.mem_insert_self a s))
      let v := x a + (f (E.equation a).2 - Finsupp.linearCombination K x (E.equation a).1)
      use Function.update x a v
      constructor
      · intro i hi
        rw [Finset.mem_insert, not_or] at hi
        rw [Function.update_of_ne hi.1]
        apply hfree i hi.2
      · intro i hi
        rcases Finset.mem_insert.mp hi with rfl | his
        · have h := hlead.linearCombination_sub_eq (x := Function.update x i v) (y := x)
            (fun k hk => Function.update_of_ne hk.ne' v x)
          rw [Function.update_self, add_sub_cancel_left] at h
          apply sub_left_injective h
        · rw [linearCombination_update_of_lt (E.leads i (hP hi)) (ha i his)]
          apply hx i his

/-- The system of an echelon form is consistent. -/
theorem consistent (E : Echelon K ι V) :
  Consistent E.equations
  := by
  obtain ⟨x, -, hx⟩ := E.exists_solution LinearMap.id 0
  exact ⟨x, hx⟩

/-- Two solutions that agree on the free unknowns of an upper set agree on that set. -/
theorem solution_unique_on
    (E : Echelon K ι V) {f : V →ₗ[K] V'} {x y : ι → V'}
    (hx : Solves f x E.equations) (hy : Solves f y E.equations)
    {U : Set ι} (hU : IsUpperSet U) (hfree : ∀ i ∈ U, i ∉ E.pivots → x i = y i) :
  ∀ i ∈ U, x i = y i
  := by
  classical
  by_contra hne
  push Not at hne
  obtain ⟨i, hiU, hi⟩ := hne
  -- The last pivot at which the two differ: its equation forces them to agree there.
  let D := E.pivots.filter (fun k => k ∈ U ∧ x k ≠ y k)
  have hiD : i ∈ D := by
    apply Finset.mem_filter.mpr
    exact ⟨by_contra fun hp => hi (hfree i hiU hp), hiU, hi⟩
  let m := D.max' ⟨i, hiD⟩
  obtain ⟨hmP, hmU, hm⟩ := Finset.mem_filter.mp (D.max'_mem ⟨i, hiD⟩)
  have habove : ∀ k, m < k → x k = y k := by
    intro k hk
    have hkU := hU hk.le hmU
    by_contra hxy
    have hkD : k ∈ D :=
      Finset.mem_filter.mpr ⟨by_contra fun hp => hxy (hfree k hkU hp), hkU, hxy⟩
    exact absurd (D.le_max' k hkD) (not_le.mpr hk)
  have h := (E.leads m hmP).linearCombination_sub_eq habove
  rw [(E.solves_iff f x).mp hx m hmP, (E.solves_iff f y).mp hy m hmP, sub_self] at h
  apply hm (sub_eq_zero.mp h.symm)

/-- Two solutions that agree on the free unknowns are equal. -/
theorem solution_unique
    (E : Echelon K ι V) {f : V →ₗ[K] V'} {x y : ι → V'}
    (hx : Solves f x E.equations) (hy : Solves f y E.equations)
    (hfree : ∀ i ∉ E.pivots, x i = y i) :
  x = y
  := by
  funext i
  apply E.solution_unique_on hx hy isUpperSet_univ (fun i _ => hfree i) i (Set.mem_univ i)

/-! ### Pivots -/

/-- The pivots are the leading positions of the equations in the span. -/
theorem mem_pivots_iff (E : Echelon K ι V) (i : ι) :
  i ∈ E.pivots ↔ ∃ e ∈ E.span, Leads i e.1
  := by
  constructor
  · intro hi
    exact ⟨E.equation i, Submodule.subset_span ⟨i, hi, rfl⟩, E.leads i hi⟩
  · rintro ⟨e, he, hlead⟩
    -- Were `i` free, the homogeneous system would have a solution that is one at `i` and
    -- zero beyond it, which no equation leading at `i` allows.
    by_contra hi
    obtain ⟨x, hfree, hx⟩ :=
      E.exists_solution (0 : V →ₗ[K] K) (Function.update (0 : ι → K) i 1)
    have hzero : Solves (0 : V →ₗ[K] K) (0 : ι → K) E.equations := by
      intro e _
      simp
    have habove : ∀ k, i < k → x k = 0 := by
      apply E.solution_unique_on hx hzero (U := Set.Ioi i) (isUpperSet_Ioi i)
      intro k hk hkP
      rw [hfree k hkP, Function.update_of_ne (ne_of_gt hk)]
    have h := hx.of_mem_span he
    rw [hlead.linearCombination_eq habove, hfree i hi, Function.update_self] at h
    apply one_ne_zero h

/-- The left-hand sides of an echelon system are linearly independent: at the first pivot of a
combination only the equation of that pivot has a coefficient. -/
theorem linearIndepOn (E : Echelon K ι V) :
  LinearIndepOn K (fun i => (E.equation i).1) E.pivots
  := by
  rw [linearIndepOn_iff]
  intro l hl hzero
  by_contra hne
  have hnonempty : l.support.Nonempty := Finsupp.support_nonempty_iff.mpr hne
  let m := l.support.min' hnonempty
  have hm : m ∈ l.support := l.support.min'_mem hnonempty
  have hlead := E.leads m (hl hm)
  have hlater : ∀ i ∈ l.support, i ≠ m → (l i • (E.equation i).1) m = 0 := by
    intro i hi him
    have hlt : m < i := lt_of_le_of_ne (l.support.min'_le i hi) him.symm
    rw [Finsupp.smul_apply, (E.leads i (hl hi)).2 m hlt, smul_zero]
  have hcoeff : (Finsupp.linearCombination K (fun i => (E.equation i).1) l) m = l m := by
    rw [Finsupp.linearCombination_apply, Finsupp.sum, Finsupp.finsetSum_apply,
      Finset.sum_eq_single_of_mem m hm hlater, Finsupp.smul_apply, hlead.1, smul_eq_mul, mul_one]
  rw [hzero] at hcoeff
  apply Finsupp.mem_support_iff.mp hm hcoeff.symm

/-- Echelon systems with the same span have the same pivots. -/
theorem pivots_eq_of_span_eq {E E' : Echelon K ι V} (h : E.span = E'.span) :
  E.pivots = E'.pivots
  := by
  ext i
  rw [mem_pivots_iff, mem_pivots_iff, h]

/-- Solutions of echelon systems with the same span are equal when they agree on the free
unknowns. -/
theorem solution_unique_of_span_eq
    {E E' : Echelon K ι V} (h : E.span = E'.span) {f : V →ₗ[K] V'} {x y : ι → V'}
    (hx : Solves f x E.equations) (hy : Solves f y E'.equations)
    (hfree : ∀ i ∉ E.pivots, x i = y i) :
  x = y
  := E.solution_unique hx (hy.of_span_le h.le) hfree

end Echelon

end Linear
