import Mathlib.Data.List.Basic
import Mathlib.Data.Option.Basic
import Mathlib.Tactic.Common

/-!
# Runs of a machine that replies

A machine takes calls one after another; a call panics, or it returns a reply and leaves
the machine in a state.  If every call that is allowed returns and keeps an invariant, and
every other one panics, then a run panics exactly at its first call that is not allowed.  A
run of calls that leave the state as it is is described call by call.
-/

namespace Calls

variable {σ ι ω : Type*} {step : σ → ι → Option (σ × ω)}

/-- Make the calls in order; `none` is a run that panics. -/
def run (step : σ → ι → Option (σ × ω)) : σ → List ι → Option (σ × List ω)
  | s, [] => some (s, [])
  | s, call :: calls => do
      let (s, reply) ← step s call
      let (s, replies) ← run step s calls
      some (s, reply :: replies)

theorem run_cons_of_some {s s' : σ} {call : ι} {reply : ω} (h : step s call = some (s', reply))
    (calls : List ι) :
  run step s (call :: calls)
    = (run step s' calls).map (fun result => (result.1, reply :: result.2))
  := by
  rw [run, h, Option.bind_eq_bind, Option.bind_some]
  dsimp only
  cases run step s' calls with
  | none => rfl
  | some result => rfl

theorem run_cons_of_none {s : σ} {call : ι} (h : step s call = none) (calls : List ι) :
  run step s (call :: calls) = none
  := by
  rw [run, h]
  rfl

/-- What a machine does: an allowed call returns and keeps the invariant, every other call
panics. -/
structure Guarded (step : σ → ι → Option (σ × ω)) (Inv : σ → Prop) (Allowed : σ → ι → Prop) :
    Prop where
  returns : ∀ {s call}, Inv s → Allowed s call → ∃ s' reply, step s call = some (s', reply) ∧ Inv s'
  panics : ∀ {s call}, Inv s → ¬ Allowed s call → step s call = none

variable {Inv : σ → Prop} {Allowed : σ → ι → Prop}

theorem Guarded.step_eq_some (h : Guarded step Inv Allowed) {s s' : σ} {call : ι} {reply : ω}
    (hs : Inv s) (hstep : step s call = some (s', reply)) :
  Allowed s call ∧ Inv s'
  := by
  have hallowed : Allowed s call := by
    by_contra hnot
    rw [h.panics hs hnot] at hstep
    cases hstep
  obtain ⟨s'', reply', hreturns, hs''⟩ := h.returns hs hallowed
  obtain ⟨rfl, -⟩ := Prod.mk.inj (Option.some_injective _ (hreturns.symm.trans hstep))
  exact ⟨hallowed, hs''⟩

/-- A run that returns keeps the invariant. -/
theorem Guarded.run (h : Guarded step Inv Allowed) {s s' : σ} {calls : List ι} {replies : List ω}
    (hs : Inv s) (hrun : run step s calls = some (s', replies)) :
  Inv s'
  := by
  induction calls generalizing s replies with
  | nil =>
      obtain ⟨rfl, -⟩ := Prod.mk.inj (Option.some_injective _ hrun)
      apply hs
  | cons call calls ih =>
      cases hstep : step s call with
      | none =>
          rw [run_cons_of_none hstep] at hrun
          cases hrun
      | some result =>
          obtain ⟨s₁, reply⟩ := result
          rw [run_cons_of_some hstep] at hrun
          obtain ⟨⟨_, _⟩, hrest, heq⟩ := Option.map_eq_some_iff.mp hrun
          obtain ⟨rfl, -⟩ := Prod.mk.inj heq
          apply ih (h.step_eq_some hs hstep).2 hrest

/-- A run panics exactly if the calls up to some call return and that call is not allowed in the
state they leave. -/
theorem Guarded.run_eq_none_iff (h : Guarded step Inv Allowed) {s : σ} (hs : Inv s)
    (calls : List ι) :
  Calls.run step s calls = none
    ↔ ∃ pre call post s' replies, calls = pre ++ call :: post
      ∧ Calls.run step s pre = some (s', replies) ∧ ¬ Allowed s' call
  := by
  induction calls generalizing s with
  | nil =>
      apply iff_of_false (Option.some_ne_none _)
      rintro ⟨pre, call, post, s', replies, hcalls, -⟩
      cases List.append_ne_nil_of_right_ne_nil pre (List.cons_ne_nil call post) hcalls.symm
  | cons call calls ih =>
      by_cases hallowed : Allowed s call
      · obtain ⟨s₁, reply, hstep, hs₁⟩ := h.returns hs hallowed
        rw [run_cons_of_some hstep, Option.map_eq_none_iff, ih hs₁]
        constructor
        · rintro ⟨pre, call', post, s', replies, rfl, hrun, hnot⟩
          refine ⟨call :: pre, call', post, s', reply :: replies, rfl, ?_, hnot⟩
          rw [run_cons_of_some hstep, hrun]
          rfl
        · rintro ⟨pre, call', post, s', replies, hcalls, hrun, hnot⟩
          cases pre with
          | nil =>
              obtain ⟨rfl, -⟩ := List.cons.inj hcalls
              obtain ⟨rfl, -⟩ := Prod.mk.inj (Option.some_injective _ hrun)
              exact absurd hallowed hnot
          | cons first pre =>
              obtain ⟨rfl, rfl⟩ := List.cons.inj hcalls
              rw [run_cons_of_some hstep] at hrun
              obtain ⟨⟨s'', rest⟩, hrest, heq⟩ := Option.map_eq_some_iff.mp hrun
              obtain ⟨rfl, -⟩ := Prod.mk.inj heq
              exact ⟨pre, call', post, s'', rest, rfl, hrest, hnot⟩
      · apply iff_of_true (run_cons_of_none (h.panics hs hallowed) calls)
        exact ⟨[], call, calls, s, [], rfl, rfl, hallowed⟩

/-- Calls that each return what is expected of them and leave the state as it is, make a run that
does so. -/
theorem exists_run_of_steady {s : σ} {Expected : ι → ω → Prop} {calls : List ι}
    (h : ∀ call ∈ calls, ∃ reply, step s call = some (s, reply) ∧ Expected call reply) :
  ∃ replies, run step s calls = some (s, replies) ∧ List.Forall₂ Expected calls replies
  := by
  induction calls with
  | nil => exact ⟨[], rfl, .nil⟩
  | cons call calls ih =>
      obtain ⟨reply, hstep, hreply⟩ := h call (List.mem_cons_self ..)
      obtain ⟨replies, hrun, hreplies⟩ := ih (fun c hc => h c (List.mem_cons_of_mem call hc))
      refine ⟨reply :: replies, ?_, .cons hreply hreplies⟩
      rw [run_cons_of_some hstep, hrun]
      rfl

end Calls
