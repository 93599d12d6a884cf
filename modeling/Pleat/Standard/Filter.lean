import Pleat.Standard.Parallel

/-!
# The standard filter

The filter `StdRibbon` and its builders (`filter.rs`).  Whatever seed is chosen,
the filter answers yes for every key it was built from.
-/

namespace Pleat

/-- Why a build fails. -/
inductive BuildError
  | noSolvingSeed
  deriving DecidableEq

/-- A standard filter with `R` result columns. -/
structure StdRibbon (R : ℕ) where
  soln : Solution128 R
  deriving DecidableEq

/-- `DEFAULT_WINDOW_SHIFT` -/
def defaultWindowShift : ℕ := 16

namespace StdRibbon

variable {R : ℕ}

/-- The filter of a solution, or the error that there is none. -/
def ofSolution (soln : Option (Solution128 R)) : Except BuildError (StdRibbon R) :=
  match soln with
  | some soln => .ok ⟨soln⟩
  | none => .error .noSolvingSeed

/-- Build in arrival order. -/
def fromKeys (sizing : ℕ → ℕ → ℕ) (R : ℕ) (keys : List U64) :
    Option (Except BuildError (StdRibbon R)) :=
  (buildStd128 sizing R keys).map ofSolution

/-- Build pleated. -/
def fromKeysPleated (T : Target) (sizing : ℕ → ℕ → ℕ) (R : ℕ) (keys : List U64) :
    Option (Except BuildError (StdRibbon R)) :=
  (buildStd128Pleated T sizing R keys defaultWindowShift).map ofSolution

/-- Build in parallel. -/
def fromKeysParallel (T : Target) (sizing : ℕ → ℕ → ℕ) (R : ℕ) (keys : List U64) (threads : ℕ)
    (schedules : U32 → List ℕ) : Option (Except BuildError (StdRibbon R)) :=
  (buildStd128Parallel T sizing R keys defaultWindowShift threads schedules).map ofSolution

/-- Is the key possibly in the set? -/
def contains (f : StdRibbon R) (key : U64) : Option Bool :=
  f.soln.contains key

/-- Keep the segments that `relocate` returns; there must be as many. -/
def relocateStorage (relocate : List U128 → List U128) (f : StdRibbon R) : Option (StdRibbon R) :=
  (f.soln.relocateStorage relocate).map StdRibbon.mk

/-- The arrival build returns the first outcome among the seeds. -/
theorem fromKeys_eq (sizing : ℕ → ℕ → ℕ) (R : ℕ) (keys : List U64) :
  fromKeys sizing R keys = some (ofSolution (firstOutcome sizing R keys))
  := by
  rw [fromKeys, buildStd128_eq]
  rfl

/-- No false negatives: the build returns, and a filter it returns answers yes for every
key it was built from. -/
theorem fromKeys_contains (sizing : ℕ → ℕ → ℕ) (R : ℕ) (keys : List U64) :
  ∃ result, fromKeys sizing R keys = some result
    ∧ ∀ f, result = .ok f → ∀ key ∈ keys, f.contains key = some true
  := by
  use ofSolution (firstOutcome sizing R keys)
  constructor
  · rw [fromKeys, buildStd128_eq]
    rfl
  · intro f hf key hkey
    cases hout : firstOutcome sizing R keys with
    | none =>
        rw [hout] at hf
        nomatch hf
    | some s =>
        rw [hout, ofSolution, Except.ok.injEq] at hf
        obtain ⟨o, -, ho⟩ := List.exists_of_findSome?_eq_some hout
        rw [← hf]
        apply Banding128.contains_of_outcome ho hkey

/-- A result that passes a test of filters is a filter that passes it. -/
theorem exists_ok_of_any {R : ℕ} {result : Option (Except BuildError (StdRibbon R))}
    {test : StdRibbon R → Bool} (h : (result.any fun r => r.toOption.any test) = true) :
  ∃ f, result = some (.ok f) ∧ test f = true
  := by
  cases result with
  | none => cases h
  | some r =>
      cases r with
      | error e => cases h
      | ok f => exact ⟨f, rfl, h⟩

set_option maxRecDepth 8000 in
/-- A filter is built from a key, and it finds it. -/
theorem fromKeys_contains_five :
  ∃ f, fromKeys (fun _ _ => 0) 7 [5] = some (.ok f) ∧ f.contains 5 = some true
  := by
  obtain ⟨f, hbuild, -⟩ := @exists_ok_of_any 7 (fromKeys (fun _ _ => 0) 7 [5]) (fun _ => true) rfl
  obtain ⟨result, hresult, hcontains⟩ := fromKeys_contains (fun _ _ => 0) 7 [5]
  obtain rfl := Option.some_injective _ (hbuild.symm.trans hresult)
  exact ⟨f, hbuild, hcontains f rfl 5 (List.mem_singleton_self 5)⟩

end StdRibbon

end Pleat
