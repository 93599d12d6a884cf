import Mathlib.Data.List.Perm.Basic

/-!
# Insertions that may be deferred

Keys are inserted into a state in order.  A key that the state defers changes nothing and is
kept for later; the first key whose insertion fails ends the run.  A run is determined by
the state it starts from and the keys.
-/

namespace Deferral

variable {σ κ : Type*}

/-- From the state `s` the insertion of the keys `keys` leads to the state `s'`, with the keys
`kept` inserted in this order.  The result is the list of the keys deferred, or none when an
insertion has failed. -/
inductive Run (defers : σ → κ → Prop) (insert : σ → κ → Option (σ × Bool)) :
    (s : σ) → (keys kept : List κ) → (result : Option (List κ)) → (s' : σ) → Prop
  | nil (s : σ) : Run defers insert s [] [] (some []) s
  | deferred {s s' : σ} {k : κ} {keys kept : List κ} {result : Option (List κ)}
      (h : defers s k) (rest : Run defers insert s keys kept result s') :
      Run defers insert s (k :: keys) kept (result.map (k :: ·)) s'
  | inserted {s s₁ s' : σ} {k : κ} {keys kept : List κ} {result : Option (List κ)}
      (h : ¬ defers s k) (hinsert : insert s k = some (s₁, true))
      (rest : Run defers insert s₁ keys kept result s') :
      Run defers insert s (k :: keys) (k :: kept) result s'
  | failed {s s₁ : σ} {k : κ} {keys : List κ} (h : ¬ defers s k)
      (hinsert : insert s k = some (s₁, false)) : Run defers insert s (k :: keys) [] none s

namespace Run

variable {defers : σ → κ → Prop} {insert : σ → κ → Option (σ × Bool)} {s s' s₁ : σ}
  {keys kept : List κ} {result : Option (List κ)}

/-- A run is determined by its start and its keys. -/
theorem unique (h : Run defers insert s keys kept result s') {kept' : List κ}
    {result' : Option (List κ)} (h' : Run defers insert s keys kept' result' s₁) :
  kept = kept' ∧ result = result' ∧ s' = s₁
  := by
  induction h generalizing kept' result' with
  | nil =>
      cases h'
      exact ⟨rfl, rfl, rfl⟩
  | deferred hdefers _ ih =>
      cases h' with
      | deferred _ rest =>
          obtain ⟨rfl, rfl, rfl⟩ := ih rest
          exact ⟨rfl, rfl, rfl⟩
      | inserted hnot => exact absurd hdefers hnot
      | failed hnot => exact absurd hdefers hnot
  | inserted hnot hinsert _ ih =>
      cases h' with
      | deferred hdefers => exact absurd hdefers hnot
      | inserted _ hinsert' rest =>
          rw [hinsert, Option.some.injEq, Prod.mk.injEq] at hinsert'
          obtain ⟨rfl, -⟩ := hinsert'
          obtain ⟨rfl, rfl, rfl⟩ := ih rest
          exact ⟨rfl, rfl, rfl⟩
      | failed _ hinsert' =>
          rw [hinsert] at hinsert'
          cases hinsert'
  | failed hnot hinsert =>
      cases h' with
      | deferred hdefers => exact absurd hdefers hnot
      | inserted _ hinsert' =>
          rw [hinsert] at hinsert'
          cases hinsert'
      | failed => exact ⟨rfl, rfl, rfl⟩

/-- A run that has not failed goes on with further keys. -/
theorem append {s₂ : σ} {keys' kept' deferred : List κ} {result' : Option (List κ)}
    (h : Run defers insert s keys kept (some deferred) s₁)
    (h' : Run defers insert s₁ keys' kept' result' s₂) :
  Run defers insert s (keys ++ keys') (kept ++ kept') (result'.map (deferred ++ ·)) s₂
  := by
  generalize hresult : some deferred = result at h
  induction h generalizing deferred with
  | nil =>
      rw [Option.some.injEq] at hresult
      simpa [hresult] using h'
  | @deferred s s₁ k keys kept result hdefers _ ih =>
      obtain ⟨deferred', rfl, rfl⟩ := Option.map_eq_some_iff.mp hresult.symm
      have hrun := Run.deferred hdefers (ih h' rfl)
      rw [Option.map_map] at hrun
      apply hrun
  | inserted hnot hinsert _ ih => exact .inserted hnot hinsert (ih h' hresult)
  | failed => cases hresult

/-- The run fails exactly when some key is neither deferred nor accepted by the state that the
keys before it lead to. -/
theorem eq_none_iff (h : Run defers insert s keys kept result s') :
  result = none
    ↔ ∃ before k after kept' deferred s₁ s₂, keys = before ++ k :: after
        ∧ Run defers insert s before kept' (some deferred) s₁
        ∧ ¬ defers s₁ k ∧ insert s₁ k = some (s₂, false)
  := by
  constructor
  · intro hnone
    induction h with
    | nil => cases hnone
    | @deferred s s' k keys kept result hdefers _ ih =>
        rw [Option.map_eq_none_iff] at hnone
        obtain ⟨before, k', after, kept', deferred, s₁, s₂, rfl, hrun, hfails⟩ := ih hnone
        exact ⟨k :: before, k', after, kept', k :: deferred, s₁, s₂, rfl, .deferred hdefers hrun,
          hfails⟩
    | @inserted s t s' k keys kept result hnot hinsert _ ih =>
        obtain ⟨before, k', after, kept', deferred, s₁, s₂, rfl, hrun, hfails⟩ := ih hnone
        exact ⟨k :: before, k', after, k :: kept', deferred, s₁, s₂, rfl,
          .inserted hnot hinsert hrun, hfails⟩
    | @failed s s₁ k keys hnot hinsert =>
        exact ⟨[], k, keys, [], [], s, s₁, rfl, .nil s, hnot, hinsert⟩
  · rintro ⟨before, k, after, kept', deferred, s₁, s₂, rfl, hrun, hnot, hinsert⟩
    obtain ⟨-, hresult, -⟩ := h.unique (hrun.append (.failed hnot hinsert))
    apply hresult

/-- Each key of a run that has not failed is inserted or deferred, once. -/
theorem perm {deferred : List κ} (h : Run defers insert s keys kept (some deferred) s') :
  (kept ++ deferred).Perm keys
  := by
  generalize hresult : some deferred = result at h
  induction h generalizing deferred with
  | nil =>
      rw [Option.some.injEq] at hresult
      rw [hresult]
      apply List.Perm.refl
  | deferred _ _ ih =>
      obtain ⟨deferred', rfl, rfl⟩ := Option.map_eq_some_iff.mp hresult.symm
      apply List.perm_middle.trans ((ih rfl).cons _)
  | inserted _ _ _ ih => exact (ih hresult).cons _
  | failed => cases hresult

/-- The keys inserted are in the order of the keys. -/
theorem sublist (h : Run defers insert s keys kept result s') :
  kept.Sublist keys
  := by
  induction h with
  | nil => exact List.Sublist.refl _
  | deferred _ _ ih => exact ih.cons _
  | inserted _ _ _ ih => exact ih.cons_cons _
  | failed => exact List.nil_sublist _

end Run

end Deferral
