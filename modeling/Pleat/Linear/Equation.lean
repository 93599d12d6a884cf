import Mathlib.LinearAlgebra.Basis.VectorSpace
import Mathlib.LinearAlgebra.Finsupp.LinearCombination
import Mathlib.LinearAlgebra.Prod

/-!
# Systems of linear equations

An equation over a field `K` in unknowns indexed by `ι` is a finitely supported family
of coefficients together with a right-hand side in a `K`-module `V`.  Equations form a
`K`-module themselves.  An assignment takes its values in a second module `V'`, to which
the right-hand sides are carried by a linear map `f`: the identity gives the equation as
it stands, a projection the equation in one column, and `0` the homogeneous equation.

The equations an assignment solves form a submodule, so a system and its span have the
same solutions.
-/

namespace Linear

variable {K ι V V' : Type*} [Field K] [AddCommGroup V] [Module K V] [AddCommGroup V'] [Module K V']

/-- A linear equation: its coefficients and its right-hand side. -/
abbrev Equation (K ι V : Type*) [Field K] [AddCommGroup V] [Module K V] : Type _ :=
  (ι →₀ K) × V

/-- The amount by which an assignment misses an equation. -/
noncomputable def residual (f : V →ₗ[K] V') (x : ι → V') : Equation K ι V →ₗ[K] V' :=
  (Finsupp.linearCombination K x).coprod (-f)

/-- The assignment `x` satisfies every equation of `S`, with right-hand sides carried
along `f`. -/
def Solves (f : V →ₗ[K] V') (x : ι → V') (S : Set (Equation K ι V)) : Prop :=
  ∀ e ∈ S, Finsupp.linearCombination K x e.1 = f e.2

/-- Some assignment satisfies every equation of `S`. -/
def Consistent (S : Set (Equation K ι V)) : Prop :=
  ∃ x : ι → V, Solves LinearMap.id x S

/-- Combining a difference of two assignments gives the difference of the combinations. -/
theorem linearCombination_sub (c : ι →₀ K) (x y : ι → V') :
  Finsupp.linearCombination K (x - y) c
    = Finsupp.linearCombination K x c - Finsupp.linearCombination K y c
  := by
  simp only [Finsupp.linearCombination_apply, Finsupp.sum, Pi.sub_apply, smul_sub,
    Finset.sum_sub_distrib]

theorem residual_eq_zero_iff (f : V →ₗ[K] V') (x : ι → V') (e : Equation K ι V) :
  residual f x e = 0 ↔ Finsupp.linearCombination K x e.1 = f e.2
  := by
  rw [residual, LinearMap.coprod_apply, LinearMap.neg_apply, ← sub_eq_add_neg]
  apply sub_eq_zero

/-- An assignment solves a system exactly when the span of the system lies in the kernel
of its residual. -/
theorem solves_iff_span_le (f : V →ₗ[K] V') (x : ι → V') (S : Set (Equation K ι V)) :
  Solves f x S ↔ Submodule.span K S ≤ LinearMap.ker (residual f x)
  := by
  rw [Submodule.span_le]
  constructor
  · intro h e he
    apply (residual_eq_zero_iff f x e).mpr (h e he)
  · intro h e he
    apply (residual_eq_zero_iff f x e).mp (h he)

/-- A solution of a system satisfies every equation in its span. -/
theorem Solves.of_mem_span
    {f : V →ₗ[K] V'} {x : ι → V'} {S : Set (Equation K ι V)} (h : Solves f x S)
    {e : Equation K ι V} (he : e ∈ Submodule.span K S) :
  Finsupp.linearCombination K x e.1 = f e.2
  := (residual_eq_zero_iff f x e).mp ((solves_iff_span_le f x S).mp h he)

/-- A solution of a system solves every system within its span. -/
theorem Solves.of_span_le
    {f : V →ₗ[K] V'} {x : ι → V'} {S T : Set (Equation K ι V)} (h : Solves f x S)
    (hTS : Submodule.span K T ≤ Submodule.span K S) :
  Solves f x T
  := fun _ he => h.of_mem_span (hTS (Submodule.subset_span he))

/-- A consistent system spans no equation `0 = b` with `b` other than zero. -/
theorem Consistent.eq_zero_of_mem_span
    {S : Set (Equation K ι V)} (h : Consistent S) {b : V}
    (hb : ((0, b) : Equation K ι V) ∈ Submodule.span K S) :
  b = 0
  := by
  obtain ⟨x, hx⟩ := h
  have hb' := hx.of_mem_span hb
  rw [map_zero] at hb'
  apply hb'.symm

/-- A system that spans no equation `0 = b` with `b` other than zero is consistent: its
left-hand sides determine the right-hand ones, and so on all families of coefficients. -/
theorem consistent_of_eq_zero {S : Set (Equation K ι V)}
    (h : ∀ b, ((0, b) : Equation K ι V) ∈ Submodule.span K S → b = 0) :
  Consistent S
  := by
  let left : Submodule.span K S →ₗ[K] (ι →₀ K) :=
    LinearMap.fst K (ι →₀ K) V ∘ₗ (Submodule.span K S).subtype
  have hker : LinearMap.ker left = ⊥ := by
    rw [LinearMap.ker_eq_bot']
    rintro ⟨⟨c, b⟩, hmem⟩ hzero
    obtain rfl : c = 0 := hzero
    obtain rfl := h b hmem
    rfl
  obtain ⟨back, hback⟩ := @LinearMap.exists_leftInverse_of_injective K (Submodule.span K S)
    (ι →₀ K) _ _ _ _ _ left hker
  let right : (ι →₀ K) →ₗ[K] V :=
    LinearMap.snd K (ι →₀ K) V ∘ₗ (Submodule.span K S).subtype ∘ₗ back
  have hright : Finsupp.linearCombination K (fun i => right (Finsupp.single i 1)) = right := by
    apply Finsupp.lhom_ext'
    intro i
    apply LinearMap.ext_ring
    simp
  use fun i => right (Finsupp.single i 1)
  intro e he
  have hmem : back (left ⟨e, Submodule.subset_span he⟩) = ⟨e, Submodule.subset_span he⟩ :=
    LinearMap.congr_fun hback _
  rw [hright]
  change (back (left ⟨e, Submodule.subset_span he⟩) : Equation K ι V).2 = e.2
  rw [hmem]

theorem consistent_iff {S : Set (Equation K ι V)} :
  Consistent S ↔ ∀ b, ((0, b) : Equation K ι V) ∈ Submodule.span K S → b = 0
  := ⟨fun h _ hb => h.eq_zero_of_mem_span hb, consistent_of_eq_zero⟩

end Linear
