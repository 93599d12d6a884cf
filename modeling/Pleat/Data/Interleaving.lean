import Mathlib.Computability.StateTransition
import Mathlib.Data.List.Basic
import Mathlib.Logic.Function.Iterate

/-!
# Interleaved processes

Processes that share no state take steps one at a time, in the order of a schedule.  What
each of them ends with does not depend on the schedule: running a process to its end
gives the same after any of its steps as before it.

A thread is a process that may panic.  It is joined after as many steps as a measure says
that decreases with every step until the process has halted.
-/

namespace Interleaving

open StateTransition

variable {σ τ : Type*}

/-- Let the processes take steps in the order of the schedule, which names the process of
each step by its position. -/
def run (step : σ → σ) (schedule : List ℕ) (processes : List σ) : List σ :=
  schedule.foldl (fun processes t => processes.modify t step) processes

/-- What a step of a process leaves unchanged is unchanged by any schedule. -/
theorem map_run {step : σ → σ} {Inv : σ → Prop} {finish : σ → τ}
    (hstep : ∀ p, Inv p → Inv (step p) ∧ finish (step p) = finish p) (schedule : List ℕ)
    {processes : List σ} (h : ∀ p ∈ processes, Inv p) :
  (run step schedule processes).map finish = processes.map finish
  := by
  induction schedule generalizing processes with
  | nil => rfl
  | cons t schedule ih =>
      have hinv : ∀ p ∈ processes.modify t step, Inv p := by
        intro p hp
        obtain ⟨i, hi⟩ := List.mem_iff_getElem?.mp hp
        rw [List.getElem?_modify] at hi
        obtain ⟨q, hq, rfl⟩ := Option.map_eq_some_iff.mp hi
        have hqinv := h q (List.mem_of_getElem? hq)
        split
        · apply (hstep q hqinv).1
        · apply hqinv
      have hmap : (processes.modify t step).map finish = processes.map finish := by
        apply List.ext_getElem?
        intro i
        rw [List.getElem?_map, List.getElem?_map, List.getElem?_modify]
        cases hq : processes[i]? with
        | none => rfl
        | some q =>
            rw [Option.map_eq_map, Option.map_some, Option.map_some, Option.map_some]
            split
            · rw [(hstep q (h q (List.mem_of_getElem? hq))).2]
            · rfl
      calc (run step schedule (processes.modify t step)).map finish
          = (processes.modify t step).map finish := ih hinv
        _ = processes.map finish := hmap

/-- Steps that do the same where an invariant holds, and keep it, make the same runs. -/
theorem run_congr {step step' : σ → σ} {Inv : σ → Prop}
    (hstep : ∀ p, Inv p → step' p = step p ∧ Inv (step p)) (schedule : List ℕ)
    {processes : List σ} (h : ∀ p ∈ processes, Inv p) :
  run step' schedule processes = run step schedule processes
    ∧ ∀ p ∈ run step schedule processes, Inv p
  := by
  induction schedule generalizing processes with
  | nil => exact ⟨rfl, h⟩
  | cons t schedule ih =>
      have hsame : processes.modify t step' = processes.modify t step := by
        apply List.ext_getElem?
        intro i
        rw [List.getElem?_modify, List.getElem?_modify]
        cases hi : processes[i]? with
        | none => rfl
        | some p =>
            rw [Option.map_eq_map, Option.map_some, Option.map_eq_map, Option.map_some,
              (hstep p (h p (List.mem_of_getElem? hi))).1]
      have hinv : ∀ p ∈ processes.modify t step, Inv p := by
        intro p hp
        obtain ⟨i, hi⟩ := List.mem_iff_getElem?.mp hp
        rw [List.getElem?_modify] at hi
        obtain ⟨q, hq, rfl⟩ := Option.map_eq_some_iff.mp hi
        have hqinv := h q (List.mem_of_getElem? hq)
        split
        · apply (hstep q hqinv).2
        · apply hqinv
      change run step' schedule (processes.modify t step') = _ ∧ _
      rw [hsame]
      apply ih hinv

/-! ### Threads -/

section Threads

variable (step : σ → Option σ) (halted : σ → Bool) (fuel : σ → ℕ)

/-- A step of a thread, which stays stopped once it has panicked. -/
def stepThread (thread : Option σ) : Option σ :=
  thread.bind step

/-- Wait for a thread to return; `fuel` bounds the steps it has left. -/
def join (thread : Option σ) : Option σ :=
  let steps := (thread.map fuel).getD 0
  ((stepThread step)^[steps] thread).filter halted

/-- Let threads run in the order of the schedule, then join them in turn. -/
def scope (schedule : List ℕ) (processes : List σ) : Option (List σ) :=
  let threads := run (stepThread step) schedule (processes.map some)
  (threads.map (join step halted fuel)).mapM id

end Threads

/-- Steps of threads that do the same where an invariant holds, and keep it. -/
def Agree (step step' : σ → Option σ) (Inv : σ → Prop) : Prop :=
  ∀ p, Inv p → step' p = step p ∧ ∀ p', step p = some p' → Inv p'

namespace Agree

variable {step step' : σ → Option σ} {Inv : σ → Prop}

theorem stepThread_eq (h : Agree step step' Inv) {thread : Option σ}
    (hthread : ∀ p, thread = some p → Inv p) :
  stepThread step' thread = stepThread step thread
    ∧ ∀ p, stepThread step thread = some p → Inv p
  := by
  cases thread with
  | none => exact ⟨rfl, fun p hp => by cases hp⟩
  | some p => apply h p (hthread p rfl)

theorem join_eq (h : Agree step step' Inv) (halted : σ → Bool) (fuel : σ → ℕ)
    {thread : Option σ} (hthread : ∀ p, thread = some p → Inv p) :
  join step' halted fuel thread = join step halted fuel thread
  := by
  rw [join, join]
  congr 1
  generalize (thread.map fuel).getD 0 = steps
  induction steps generalizing thread with
  | zero => rfl
  | succ steps ih =>
      obtain ⟨hsame, hkeeps⟩ := h.stepThread_eq hthread
      rw [Function.iterate_succ_apply, Function.iterate_succ_apply, hsame]
      apply ih hkeeps

/-- They make the threads return the same, whatever the schedule. -/
theorem scope_eq (h : Agree step step' Inv) (halted : σ → Bool) (fuel : σ → ℕ)
    (schedule : List ℕ) {processes : List σ} (hinv : ∀ p ∈ processes, Inv p) :
  scope step' halted fuel schedule processes = scope step halted fuel schedule processes
  := by
  have hspawned : ∀ thread ∈ processes.map some, ∀ p, thread = some p → Inv p := by
    intro thread hthread p hp
    obtain ⟨q, hq, rfl⟩ := List.mem_map.mp hthread
    obtain rfl := Option.some_injective _ hp
    apply hinv q hq
  obtain ⟨hsame, hholds⟩ := run_congr (fun _ => h.stepThread_eq) schedule hspawned
  rw [scope, scope, hsame]
  congr 1
  apply List.map_congr_left
  intro thread hthread
  apply h.join_eq halted fuel (hholds thread hthread)

end Agree

/-- Under the invariant `Inv` a step does not panic and keeps the invariant, and decreases
the measure unless the process has halted; then it does nothing. -/
structure Terminates (step : σ → Option σ) (halted : σ → Bool) (measure : σ → ℕ)
    (Inv : σ → Prop) : Prop where
  progress : ∀ p, Inv p →
    ∃ p', step p = some p' ∧ Inv p' ∧ (halted p = false → measure p' < measure p)
  fix : ∀ p, halted p = true → step p = some p

namespace Terminates

variable {step : σ → Option σ} {halted : σ → Bool} {measure fuel : σ → ℕ} {Inv : σ → Prop}

/-- What every step keeps can be added to the invariant. -/
theorem and (h : Terminates step halted measure Inv) {P : σ → Prop}
    (hP : ∀ p p', P p → step p = some p' → P p') :
  Terminates step halted measure (fun p => Inv p ∧ P p)
  where
  progress p hp := by
    obtain ⟨p', hstep, hp', hlt⟩ := h.progress p hp.1
    exact ⟨p', hstep, ⟨hp', hP p p' hp.2 hstep⟩, hlt⟩
  fix := h.fix

theorem iterate_of_halted (h : Terminates step halted measure Inv) {p : σ} (hp : halted p = true)
    (k : ℕ) :
  (stepThread step)^[k] (some p) = some p
  := Function.iterate_fixed (h.fix p hp) k

/-- After as many steps as the measure says, the process has halted. -/
theorem exists_iterate (h : Terminates step halted measure Inv) {p : σ} (hp : Inv p) {k : ℕ}
    (hk : measure p ≤ k) :
  ∃ p', (stepThread step)^[k] (some p) = some p' ∧ Inv p' ∧ halted p' = true
  := by
  induction k generalizing p with
  | zero =>
      obtain ⟨p', -, -, hlt⟩ := h.progress p hp
      use p, rfl, hp
      cases hhalt : halted p with
      | true => rfl
      | false =>
          have := hlt hhalt
          omega
  | succ k ih =>
      cases hhalt : halted p with
      | true => exact ⟨p, h.iterate_of_halted hhalt _, hp, hhalt⟩
      | false =>
          obtain ⟨p', hstep, hp', hlt⟩ := h.progress p hp
          have := hlt hhalt
          rw [Function.iterate_succ_apply, stepThread, Option.bind_some, hstep]
          apply ih hp' (by omega)

/-- More steps than the measure says change nothing. -/
theorem iterate_eq (h : Terminates step halted measure Inv) {p : σ} (hp : Inv p) {k l : ℕ}
    (hk : measure p ≤ k) (hkl : k ≤ l) :
  (stepThread step)^[l] (some p) = (stepThread step)^[k] (some p)
  := by
  obtain ⟨c, rfl⟩ := Nat.exists_eq_add_of_le' hkl
  obtain ⟨p', hiter, -, hhalt⟩ := h.exists_iterate hp hk
  rw [Function.iterate_add_apply, hiter, h.iterate_of_halted hhalt]

/-- Joining a process returns it halted. -/
theorem exists_join (h : Terminates step halted measure Inv) (hfuel : ∀ p, measure p ≤ fuel p)
    {p : σ} (hp : Inv p) :
  ∃ p', join step halted fuel (some p) = some p' ∧ Inv p' ∧ halted p' = true
  := by
  obtain ⟨p', hiter, hp', hhalt⟩ := h.exists_iterate hp (hfuel p)
  refine ⟨p', ?_, hp', hhalt⟩
  rw [join, Option.map_some, Option.getD_some, hiter, Option.filter_some, if_pos hhalt]

/-- Joining a process gives the same after a step as before it. -/
theorem join_step (h : Terminates step halted measure Inv) (hfuel : ∀ p, measure p ≤ fuel p)
    {p p' : σ} (hp : Inv p) (hp' : Inv p') (hstep : step p = some p') :
  join step halted fuel (some p') = join step halted fuel (some p)
  := by
  have hone : (stepThread step)^[fuel p'] (some p')
      = (stepThread step)^[fuel p' + 1] (some p) := by
    rw [Function.iterate_succ_apply, stepThread, Option.bind_some, hstep]
  -- Both are the process after so many steps that it has halted.
  have hsame : (stepThread step)^[fuel p'] (some p') = (stepThread step)^[fuel p] (some p) := by
    rcases Nat.le_total (fuel p' + 1) (fuel p) with hle | hle
    · have hsub : fuel p = (fuel p - 1) + 1 := by omega
      rw [hsub, Function.iterate_succ_apply, stepThread, Option.bind_some, hstep]
      apply (h.iterate_eq hp' (hfuel p') (by omega)).symm
    · rw [hone, h.iterate_eq hp (hfuel p) hle]
  rw [join, join, Option.map_some, Option.map_some, Option.getD_some, Option.getD_some, hsame]

/-- Joining a process gives the same wherever its steps have taken it. -/
theorem join_eq_of_reaches (h : Terminates step halted measure Inv)
    (hfuel : ∀ p, measure p ≤ fuel p) {p p' : σ} (hp : Inv p) (hreach : Reaches step p p') :
  Inv p' ∧ join step halted fuel (some p') = join step halted fuel (some p)
  := by
  induction hreach with
  | refl => exact ⟨hp, rfl⟩
  | @tail q q' _ hstep ih =>
      obtain ⟨hq, hjoin⟩ := ih
      rw [Option.mem_def] at hstep
      obtain ⟨q'', hstep', hq', -⟩ := h.progress q hq
      rw [hstep, Option.some.injEq] at hstep'
      rw [← hstep'] at hq'
      exact ⟨hq', (h.join_step hfuel hq hq' hstep).trans hjoin⟩

/-- A process that comes to a halted one is joined as that. -/
theorem join_of_reaches (h : Terminates step halted measure Inv)
    (hfuel : ∀ p, measure p ≤ fuel p) {p p' : σ} (hp : Inv p) (hreach : Reaches step p p')
    (hhalt : halted p' = true) :
  join step halted fuel (some p) = some p'
  := by
  obtain ⟨-, hjoin⟩ := h.join_eq_of_reaches hfuel hp hreach
  rw [← hjoin, join, Option.map_some, Option.getD_some, h.iterate_of_halted hhalt,
    Option.filter_some, if_pos hhalt]

/-- What the threads return does not depend on the schedule. -/
theorem scope_eq (h : Terminates step halted measure Inv) (hfuel : ∀ p, measure p ≤ fuel p)
    (schedule : List ℕ) {processes : List σ} (hinv : ∀ p ∈ processes, Inv p) :
  scope step halted fuel schedule processes
    = (processes.map fun p => join step halted fuel (some p)).mapM id
  := by
  have hstep : ∀ thread, (∃ p, thread = some p ∧ Inv p) →
      (∃ p, stepThread step thread = some p ∧ Inv p)
        ∧ join step halted fuel (stepThread step thread) = join step halted fuel thread := by
    rintro _ ⟨p, rfl, hp⟩
    obtain ⟨p', hstep, hp', -⟩ := h.progress p hp
    rw [stepThread, Option.bind_some, hstep]
    exact ⟨⟨p', rfl, hp'⟩, h.join_step hfuel hp hp' hstep⟩
  have hall : ∀ thread ∈ processes.map some, ∃ p, thread = some p ∧ Inv p := by
    intro thread hthread
    obtain ⟨p, hp, rfl⟩ := List.mem_map.mp hthread
    exact ⟨p, rfl, hinv p hp⟩
  rw [scope, map_run hstep schedule hall, List.map_map]
  rfl

/-- What is read off the threads once all have returned is what is read off each when it is
joined alone. -/
theorem map_scope_eq (h : Terminates step halted measure Inv) (hfuel : ∀ p, measure p ≤ fuel p)
    (schedule : List ℕ) {processes : List σ} (hinv : ∀ p ∈ processes, Inv p) (result : σ → τ) :
  (scope step halted fuel schedule processes).map (List.map result)
    = (processes.map fun p => (join step halted fuel (some p)).map result).mapM id
  := by
  rw [h.scope_eq hfuel schedule hinv]
  clear hinv
  induction processes with
  | nil => rfl
  | cons p processes ih =>
      rw [List.map_cons, List.mapM_cons, List.map_cons, List.mapM_cons, ← ih]
      cases join step halted fuel (some p) with
      | none => rfl
      | some p' =>
          cases (processes.map fun p => join step halted fuel (some p)).mapM id with
          | none => rfl
          | some _ => rfl

/-- Whatever the schedule, each thread returns as when it is joined alone. -/
theorem exists_scope (h : Terminates step halted measure Inv) (hfuel : ∀ p, measure p ≤ fuel p)
    (schedule : List ℕ) {processes : List σ} {Returned : σ → σ → Prop}
    (hinv : ∀ p ∈ processes, Inv p)
    (hjoin : ∀ p ∈ processes, ∃ p', join step halted fuel (some p) = some p' ∧ Returned p p') :
  ∃ results, scope step halted fuel schedule processes = some results
    ∧ results.length = processes.length
    ∧ ∀ (t : ℕ) p p', processes[t]? = some p → results[t]? = some p' → Returned p p'
  := by
  rw [h.scope_eq hfuel schedule hinv]
  clear hinv
  induction processes with
  | nil => exact ⟨[], rfl, rfl, fun t p p' hp => nomatch hp⟩
  | cons p processes ih =>
      obtain ⟨p', hp, hreturned⟩ := hjoin p (List.mem_cons_self ..)
      obtain ⟨results, hmap, hlen, hall⟩ := ih fun q hq => hjoin q (List.mem_cons_of_mem p hq)
      refine ⟨p' :: results, ?_, congrArg Nat.succ hlen, ?_⟩
      · rw [List.map_cons, List.mapM_cons, id, hp, hmap]
        rfl
      · intro t q q' hq hq'
        cases t with
        | zero =>
            rw [List.getElem?_cons_zero, Option.some.injEq] at hq hq'
            rw [← hq, ← hq']
            apply hreturned
        | succ t => apply hall t q q' hq hq'

/-- Whatever the schedule, the threads return, and the invariant holds of what they return. -/
theorem exists_scope_inv (h : Terminates step halted measure Inv)
    (hfuel : ∀ p, measure p ≤ fuel p) (schedule : List ℕ) {processes : List σ}
    (hinv : ∀ p ∈ processes, Inv p) :
  ∃ results, scope step halted fuel schedule processes = some results
    ∧ results.length = processes.length ∧ ∀ p ∈ results, Inv p
  := by
  have hjoin : ∀ p ∈ processes, ∃ p', join step halted fuel (some p) = some p' ∧ Inv p' := by
    intro p hp
    obtain ⟨p', hp', hinv', -⟩ := h.exists_join hfuel (hinv p hp)
    exact ⟨p', hp', hinv'⟩
  obtain ⟨results, hscope, hlen, hall⟩ := h.exists_scope hfuel schedule hinv hjoin
  refine ⟨results, hscope, hlen, ?_⟩
  intro p hp
  obtain ⟨t, ht⟩ := List.mem_iff_getElem?.mp hp
  have hlt : t < processes.length := hlen ▸ (List.getElem?_eq_some_iff.mp ht).1
  apply hall t _ p (List.getElem?_eq_getElem hlt) ht

end Terminates

end Interleaving
