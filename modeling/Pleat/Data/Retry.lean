import Mathlib.Data.List.Basic
import Mathlib.Order.Basic
import Pleat.Data.Capacity

/-!
# Retry loops

A loop that tries candidates in order until one succeeds, and carries a state from one
attempt to the next.  When the state has no influence on what an attempt yields, the loop
returns what the first candidate that succeeds yields.
-/

namespace Retry

open Capacity

variable {σ ι β γ : Type*}

/-- Try the candidates in order; `none` is an attempt that panics. -/
def firstSuccess (attempt : σ → ι → Option (σ × Option β)) : List ι → σ → Option (Option β)
  | [], _ => some none
  | i :: candidates, s =>
      match attempt s i with
      | none => none
      | some (_, some x) => some (some x)
      | some (s, none) => firstSuccess attempt candidates s

/-- If every attempt from a state that satisfies `Inv` yields `outcome i`, seen through
`f`, and leaves such a state, the loop returns the first outcome. -/
theorem exists_firstSuccess (Inv : σ → Prop) {attempt : σ → ι → Option (σ × Option β)}
    {outcome : ι → Option γ} {f : β → γ}
    (h : ∀ s i, Inv s → ∃ s' r, attempt s i = some (s', r) ∧ Inv s' ∧ r.map f = outcome i)
    (candidates : List ι) {s : σ} (hs : Inv s) :
  ∃ r, firstSuccess attempt candidates s = some r ∧ r.map f = candidates.findSome? outcome
  := by
  induction candidates generalizing s with
  | nil => exact ⟨none, rfl, rfl⟩
  | cons i candidates ih =>
      obtain ⟨s', r, hattempt, hs', hr⟩ := h s i hs
      rw [firstSuccess, hattempt, List.findSome?_cons, ← hr]
      cases r with
      | none => apply ih hs'
      | some x => exact ⟨some x, rfl, rfl⟩

/-- Two ways to make the attempts, of which one may fail if `P`, yield the same otherwise from
every state that satisfies `Inv`, and leave such a state; then the loops return the same,
unless that one fails. -/
theorem exists_firstSuccess_sameUnless (Inv : σ → Prop) {P : Prop} {Found : β → Prop}
    {attempt attempt' : σ → ι → Option (σ × Option β)}
    (h : ∀ s i, Inv s → ∃ s' r, SameUnless P (attempt' s i) (some (s', r))
      ∧ attempt s i = some (s', r) ∧ Inv s' ∧ ∀ x, r = some x → Found x)
    (candidates : List ι) {s : σ} (hs : Inv s) :
  ∃ r, SameUnless P (firstSuccess attempt' candidates s) (some r)
    ∧ firstSuccess attempt candidates s = some r ∧ ∀ x, r = some x → Found x
  := by
  induction candidates generalizing s with
  | nil => exact ⟨none, .refl .., rfl, fun x hx => by cases hx⟩
  | cons i candidates ih =>
      obtain ⟨s', r, hattempt', hattempt, hs', hfound⟩ := h s i hs
      rw [firstSuccess, firstSuccess, hattempt]
      rcases hattempt' with hattempt' | ⟨hP, hnone⟩
      · rw [hattempt']
        cases r with
        | none => apply ih hs'
        | some y => exact ⟨some y, .refl .., rfl, hfound⟩
      · rw [hnone]
        cases r with
        | none =>
            obtain ⟨r, -, hrest, hfound'⟩ := ih hs'
            exact ⟨r, .inr ⟨hP, rfl⟩, hrest, hfound'⟩
        | some y => exact ⟨some y, .inr ⟨hP, rfl⟩, rfl, hfound⟩

/-- The same where neither fails. -/
theorem exists_firstSuccess_both (Inv : σ → Prop) {Found : β → Prop}
    {attempt attempt' : σ → ι → Option (σ × Option β)}
    (h : ∀ s i, Inv s → ∃ s' r, attempt' s i = some (s', r) ∧ attempt s i = some (s', r)
      ∧ Inv s' ∧ ∀ x, r = some x → Found x)
    (candidates : List ι) {s : σ} (hs : Inv s) :
  ∃ r, firstSuccess attempt' candidates s = some r ∧ firstSuccess attempt candidates s = some r
    ∧ ∀ x, r = some x → Found x
  := by
  have hnever : ∀ s i, Inv s → ∃ s' r, SameUnless False (attempt' s i) (some (s', r))
      ∧ attempt s i = some (s', r) ∧ Inv s' ∧ ∀ x, r = some x → Found x := by
    intro s i hs
    obtain ⟨s', r, hattempt', hrest⟩ := h s i hs
    exact ⟨s', r, .inl hattempt', hrest⟩
  obtain ⟨r, hloop', hrest⟩ := exists_firstSuccess_sameUnless Inv hnever candidates hs
  exact ⟨r, hloop'.eq id, hrest⟩

/-- In a list sorted by rank, the first success is the one of least rank. -/
theorem findSome?_eq_some_iff_least {rank : ι → ℕ} {candidates : List ι}
    (hsorted : candidates.Pairwise (fun i k => rank i < rank k)) {outcome : ι → Option γ} {x : γ} :
  candidates.findSome? outcome = some x
    ↔ ∃ i ∈ candidates, outcome i = some x ∧ ∀ k ∈ candidates, rank k < rank i → outcome k = none
  := by
  induction candidates with
  | nil => simp
  | cons i candidates ih =>
      obtain ⟨hfirst, hrest⟩ := List.pairwise_cons.mp hsorted
      cases hi : outcome i with
      | none =>
          rw [List.findSome?_cons_of_isNone (by simp [hi]), ih hrest]
          constructor
          · rintro ⟨k, hk, hx, hleast⟩
            use k, List.mem_cons_of_mem i hk, hx
            intro l hl hlt
            rcases List.mem_cons.mp hl with rfl | hl
            · apply hi
            · apply hleast l hl hlt
          · rintro ⟨k, hk, hx, hleast⟩
            rcases List.mem_cons.mp hk with rfl | hk
            · rw [hi] at hx
              nomatch hx
            · exact ⟨k, hk, hx, fun l hl => hleast l (List.mem_cons_of_mem i hl)⟩
      | some y =>
          rw [List.findSome?_cons_of_isSome (by simp [hi]), hi]
          constructor
          · intro hx
            use i, List.mem_cons_self .., hi.trans hx
            intro l hl hlt
            rcases List.mem_cons.mp hl with rfl | hl
            · exact absurd hlt (Nat.lt_irrefl _)
            · exact absurd hlt (Nat.lt_asymm (hfirst l hl))
          · rintro ⟨k, hk, hx, hleast⟩
            rcases List.mem_cons.mp hk with rfl | hk
            · rw [← hi, hx]
            · have hnone := hleast i (List.mem_cons_self ..) (hfirst k hk)
              rw [hi] at hnone
              nomatch hnone

end Retry
