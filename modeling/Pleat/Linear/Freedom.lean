import Pleat.Linear.Echelon
import Mathlib.GroupTheory.Index
import Mathlib.LinearAlgebra.Basis.VectorSpace

/-!
# The freedom of an echelon system

The solutions of the homogeneous system of an echelon form are a linear image of the values
of its free unknowns.  On families of coefficients that are independent modulo the
equations, the solutions take every family of values; so over a finite field each family of
values is taken by the same number of choices, which counts those for which all values are
zero.
-/

namespace Linear

variable {K ι V V' : Type*} [Field K] [AddCommGroup V] [Module K V] [AddCommGroup V'] [Module K V']

/-- A combination depends on the unknowns in the support of its family alone. -/
theorem linearCombination_congr
    {c : ι →₀ K} {x y : ι → V'} (h : ∀ i ∈ c.support, x i = y i) :
  Finsupp.linearCombination K x c = Finsupp.linearCombination K y c
  := by
  rw [Finsupp.linearCombination_apply, Finsupp.linearCombination_apply]
  apply Finsupp.sum_congr
  intro i hi
  rw [h i hi]

theorem linearCombination_add (x y : ι → V') (c : ι →₀ K) :
  Finsupp.linearCombination K (x + y) c
    = Finsupp.linearCombination K x c + Finsupp.linearCombination K y c
  := by
  simp only [Finsupp.linearCombination_apply, Finsupp.sum, Pi.add_apply, smul_add,
    Finset.sum_add_distrib]

/-- A linear map on families of coefficients combines its values at the unknowns. -/
theorem linearCombination_single (f : (ι →₀ K) →ₗ[K] V') (c : ι →₀ K) :
  Finsupp.linearCombination K (fun i => f (Finsupp.single i 1)) c = f c
  := by
  congr 1
  apply Finsupp.lhom_ext
  intro i a
  rw [Finsupp.linearCombination_single, ← map_smul, Finsupp.smul_single, smul_eq_mul, mul_one]

/-- Families that are independent modulo `U` are combined to any values by an assignment that
vanishes on `U`. -/
theorem exists_assignment
    {κ : Type*} {U : Submodule K (ι →₀ K)} {v : κ → ι →₀ K}
    (hv : LinearIndependent K (fun a => U.mkQ (v a))) (t : κ → V') :
  ∃ x : ι → V', (∀ u ∈ U, Finsupp.linearCombination K x u = 0)
    ∧ ∀ a, Finsupp.linearCombination K x (v a) = t a
  := by
  -- The values are a linear map on the span of the classes, which extends to the quotient.
  obtain ⟨f, hf⟩ := ((Module.Basis.span hv).constr K t).exists_extend
  use fun i => (f ∘ₗ U.mkQ) (Finsupp.single i 1)
  constructor
  · intro u hu
    rw [linearCombination_single, LinearMap.comp_apply, Submodule.mkQ_apply,
      (Submodule.Quotient.mk_eq_zero U).mpr hu, map_zero]
  · intro a
    rw [linearCombination_single, LinearMap.comp_apply]
    have hbasis := (Module.Basis.span hv).constr_basis K t a
    rw [← hf, LinearMap.comp_apply, Submodule.subtype_apply, Module.Basis.span_apply] at hbasis
    apply hbasis

namespace Echelon

variable [LinearOrder ι] (E : Echelon K ι V)

/-- The solution of the homogeneous system that has the given values at the free unknowns. -/
noncomputable def extend (fill : ι → K) : ι → K :=
  (E.exists_solution (0 : V →ₗ[K] K) fill).choose

theorem extend_of_free (fill : ι → K) {i : ι} (hi : i ∉ E.pivots) :
  E.extend fill i = fill i
  := (E.exists_solution (0 : V →ₗ[K] K) fill).choose_spec.1 i hi

theorem solves_extend (fill : ι → K) :
  Solves (0 : V →ₗ[K] K) (E.extend fill) E.equations
  := (E.exists_solution (0 : V →ₗ[K] K) fill).choose_spec.2

/-- No other solution has these values. -/
theorem eq_extend {fill x : ι → K} (hx : Solves (0 : V →ₗ[K] K) x E.equations)
    (hfree : ∀ i ∉ E.pivots, x i = fill i) :
  x = E.extend fill
  := by
  apply E.solution_unique hx (E.solves_extend fill)
  intro i hi
  rw [hfree i hi, E.extend_of_free fill hi]

theorem extend_add (fill fill' : ι → K) :
  E.extend (fill + fill') = E.extend fill + E.extend fill'
  := by
  symm
  apply E.eq_extend
  · intro e he
    rw [linearCombination_add, E.solves_extend fill e he, E.solves_extend fill' e he]
    simp
  · intro i hi
    rw [Pi.add_apply, Pi.add_apply, E.extend_of_free fill hi, E.extend_of_free fill' hi]

/-! ### Counting -/

section Counting

variable {ν κ γ δ : Type*} (e : ν → ι) (col : δ → γ) (v : κ → ι →₀ K)

/-- What the solutions combine each of the families `v` to.  There is a solution for every
column `col d`; the free unknowns among the `e i` have the values `g i (col d)` in it, the
other ones are zero. -/
noncomputable def combinations : (ν → γ → K) →+ (κ → δ → K) :=
  AddMonoidHom.mk'
    (fun g a d => Finsupp.linearCombination K
      (E.extend (Function.extend e (fun i => g i (col d)) 0)) (v a))
    (by
      intro g g'
      funext a d
      have hfill : Function.extend e (fun i => (g + g') i (col d)) 0
          = Function.extend e (fun i => g i (col d)) 0
            + Function.extend e (fun i => g' i (col d)) 0 := by
        rw [← Function.extend_add, add_zero]
        rfl
      rw [hfill, extend_add, linearCombination_add, Pi.add_apply, Pi.add_apply])

variable {E e col v}

/-- The solutions take every family of values on independent families, as long as no unknown
but the `e i` occurs. -/
theorem combinations_surjective
    (he : Function.Injective e) (hcol : Function.Injective col) {U : Submodule K (ι →₀ K)}
    (hU : ∀ i ∈ E.pivots, (E.equation i).1 ∈ U)
    (hE : ∀ i ∈ E.pivots, ((E.equation i).1.support : Set ι) ⊆ Set.range e)
    (hsupport : ∀ a, ((v a).support : Set ι) ⊆ Set.range e)
    (hv : LinearIndependent K (fun a => U.mkQ (v a))) :
  Function.Surjective (E.combinations e col v)
  := by
  intro t
  have hx : ∀ d, ∃ x : ι → K, (∀ u ∈ U, Finsupp.linearCombination K x u = 0)
      ∧ ∀ a, Finsupp.linearCombination K x (v a) = t a d :=
    fun d => exists_assignment hv (fun a => t a d)
  choose x hvanish hvalue using hx
  -- The assignment of a column, restricted to the unknowns that occur, is a solution.
  have hagree : ∀ d (c : ι →₀ K), (c.support : Set ι) ⊆ Set.range e →
      Finsupp.linearCombination K (Function.extend e (x d ∘ e) 0) c
        = Finsupp.linearCombination K (x d) c := by
    intro d c hc
    apply linearCombination_congr
    intro i hi
    obtain ⟨k, rfl⟩ := hc hi
    rw [he.extend_apply]
    rfl
  use fun i => Function.extend col (fun d => x d (e i)) 0
  funext a d
  have hcolumn : (fun i => Function.extend col (fun d => x d (e i)) 0 (col d)) = x d ∘ e := by
    funext i
    rw [hcol.extend_apply]
    rfl
  have hsolution : Function.extend e (x d ∘ e) 0 = E.extend (Function.extend e (x d ∘ e) 0) := by
    apply E.eq_extend _ (fun _ _ => rfl)
    rw [E.solves_iff]
    intro i hi
    rw [hagree d _ (hE i hi), hvanish d _ (hU i hi), LinearMap.zero_apply]
  change Finsupp.linearCombination K (E.extend (Function.extend e
    (fun i => Function.extend col (fun d => x d (e i)) 0 (col d)) 0)) (v a) = t a d
  rw [hcolumn, ← hsolution, hagree d _ (hsupport a), hvalue]

/-- Of all choices of the free values, one in `|K|` for each family and column combines all of
the families to zero. -/
theorem card_combinations_eq_zero
    (hsurj : Function.Surjective (E.combinations e col v)) :
  Nat.card {g : ν → γ → K // E.combinations e col v g = 0} * Nat.card (κ → δ → K)
    = Nat.card (ν → γ → K)
  := by
  have hindex := AddSubgroup.index_ker (E.combinations e col v)
  rw [AddMonoidHom.range_eq_top.mpr hsurj, Nat.card_congr AddSubgroup.topEquiv.toEquiv] at hindex
  have hcard := (E.combinations e col v).ker.card_mul_index
  rw [hindex] at hcard
  apply hcard

end Counting

end Echelon

end Linear
