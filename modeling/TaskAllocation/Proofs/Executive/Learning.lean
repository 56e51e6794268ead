import Mathlib.Logic.Function.Iterate
import TaskAllocation.Proofs.Executive.Timing

/-!
# Estimates are told by completions

A task that is completed has run for its duration, whatever became of it before, and only
completions are folded into its estimate.  So an estimate is told by the number of
completions: it does not matter which tasks were given up, what was chosen, or in which
order tasks were completed.

## Main definitions

* `Estimate.valueAfter` — the value after so many measurements.
* `Executive.completions` — how often a task is completed during a sequence of calls.

## Main results

* `Estimate.iterate_update` — what a measurement that is made over and over does to an
  estimate.
* `Executive.Ready.estimate_work` — a timestep of work changes an estimate by a completion.
* `Executive.Timed.estimate_afterCalls` — **estimates are told by completions.**
-/

namespace TaskAllocation

namespace Estimate

variable {S : Type} [Scalar S]

/-- The value after a measurement has been folded in `n` times. -/
def valueAfter (estimate : Estimate S) (measured : S) (n : Nat) : S :=
  (fun v => estimate.alpha * measured + (1.0 - estimate.alpha) * v)^[n] estimate.value

/-- A measurement that is made over and over moves the value, and never the weight. -/
theorem iterate_update (estimate : Estimate S) (measured : S) (n : Nat) :
    ((·.update measured)^[n] estimate).alpha = estimate.alpha ∧
      ((·.update measured)^[n] estimate).value = estimate.valueAfter measured n := by
  induction n with
  | zero => exact ⟨rfl, rfl⟩
  | succ n ih =>
    obtain ⟨halpha, hvalue⟩ := ih
    rw [Function.iterate_succ_apply', valueAfter, Function.iterate_succ_apply', ← valueAfter,
      ← hvalue]
    refine ⟨halpha, ?_⟩
    rw [update, halpha]

end Estimate

namespace Executive

variable {S R : Type} [Scalar S] [UnitSource R S] {duration : TaskId → Nat} {e : Executive S R}
  {t u : TaskId} {task : Task S}

/-! ### One timestep -/

/-- **A timestep of work changes an estimate by a completion**, and by nothing else. -/
theorem Ready.estimate_work (h : e.Ready duration t)
    (htask : e.decomposition.forest.task? u = some task) :
    ∃ task', (e.work t).decomposition.forest.task? u = some task' ∧ task'.estimate =
      if (e.work t).phase = .completed u ∧ e.learns then
        task.estimate.update (Scalar.ofNat (max (duration u) 1))
      else task.estimate := by
  obtain ⟨m, hm, hw | ⟨hreached, hw⟩ | ⟨-, hw⟩⟩ := h.work_eq
  · -- given up: nothing is folded in
    obtain ⟨task', htask', hestimate, -⟩ := exists_task?_finish (e.drawn t) t true htask
    rw [hw]
    exact ⟨task', htask', by simpa using hestimate⟩
  · -- completed: what is folded in is the duration
    have helapsed : ((e.drawn t).advanced t m).elapsed = max (duration t) 1 := hreached
    obtain ⟨task', htask', hestimate, -⟩ :=
      exists_task?_finish ((e.drawn t).advanced t m) t false htask
    rw [hw]
    refine ⟨task', htask', hestimate.trans ?_⟩
    by_cases hut : u = t
    · subst hut
      have hlearns : ((e.drawn u).advanced u m).learns = e.learns := rfl
      rw [helapsed, hlearns]
      simp
    · have htu : t ≠ u := Ne.symm hut
      simp [hut, htu]
  · have hphase : ((e.drawn t).advanced t m).phase = .executing t := h.phase_eq
    rw [hw]
    exact ⟨task, htask, by simp [hphase]⟩

variable [IndexSource R]

/-! ### Calls -/

/-- How often a task is completed during a sequence of calls. -/
def completions (e : Executive S R) (t : TaskId) (calls : List Call) : Nat :=
  (e.callReports calls).countP fun r => decide (r.phase = .completed t)

theorem completions_cons (e : Executive S R) (t : TaskId) (call : Call) (calls : List Call) :
    e.completions t (call :: calls) =
      (e.call call).completions t calls + e.completions t [call] := by
  cases call with
  | timestep =>
    have hreports : e.callReports (.timestep :: calls) =
        e.callReports [.timestep] ++ (e.call .timestep).callReports calls := rfl
    rw [completions, hreports, List.countP_append, Nat.add_comm]
    rfl
  | abortCurrent => rfl
  | nextTask last => rfl

theorem completions_timestep (e : Executive S R) (t : TaskId) :
    e.completions t [.timestep] = if e.timestep.2.phase = .completed t then 1 else 0 := by
  have hphase : e.timestep.1.phase = e.timestep.2.phase := rfl
  simp [completions, callReports, List.countP_singleton, hphase]

theorem learns_call (e : Executive S R) (call : Call) : (e.call call).learns = e.learns := by
  cases call with
  | timestep => exact learns_of_settings e.settings_timestep
  | abortCurrent => exact learns_of_settings e.settings_abortCurrent
  | nextTask last => rfl

namespace Timed

/-- A call changes an estimate by a completion, and by nothing else. -/
theorem estimate_call (h : e.Timed duration) (htask : e.decomposition.forest.task? u = some task)
    (call : Call) :
    ∃ task', (e.call call).decomposition.forest.task? u = some task' ∧ task'.estimate =
      (·.update (Scalar.ofNat (max (duration u) 1)))^[
        if e.learns then e.completions u [call] else 0] task.estimate := by
  cases call with
  | timestep =>
    have hengaged : e.engaged.2.decomposition.forest.task? u = some task := by
      rw [e.forest_engaged, htask]
    obtain ⟨task', htask', hestimate⟩ := h.engaged.estimate_work hengaged
    refine ⟨task', htask', hestimate.trans ?_⟩
    rw [learns_of_settings e.settings_engaged, completions_timestep, timestep_eq]
    by_cases hdone : (e.engaged.2.work e.engaged.1).phase = .completed u
    · cases hlearns : e.learns with
      | true => simp [hdone]
      | false => simp
    · simp [hdone]
  | abortCurrent =>
    simp only [completions, callReports, List.countP_nil, ite_self, Function.iterate_zero, id_eq]
    cases hexec : e.phase.isExecuting with
    | true =>
      obtain ⟨t, ht⟩ := exists_executing hexec
      obtain ⟨task', htask', hestimate, -⟩ := exists_task?_finish e t true htask
      rw [Executive.call, abortCurrent_of_executing ht]
      exact ⟨task', htask', by simpa using hestimate⟩
    | false =>
      rw [Executive.call, abortCurrent_of_not_executing hexec]
      exact ⟨task, htask, rfl⟩
  | nextTask last =>
    refine ⟨task, ?_, by simp [completions, callReports]⟩
    rw [← htask]
    exact congrArg (Forest.task? · u) (rearranged_nextTask e last).forest

/-- **Estimates are told by completions.**  Whatever is called, an estimate is the first one
with the duration folded in once for every completion, if the executive learns, and the first
one if not. -/
theorem estimate_afterCalls (h : e.Timed duration)
    (htask : e.decomposition.forest.task? u = some task) (calls : List Call) :
    ∃ task', (e.afterCalls calls).decomposition.forest.task? u = some task' ∧ task'.estimate =
      (·.update (Scalar.ofNat (max (duration u) 1)))^[
        if e.learns then e.completions u calls else 0] task.estimate := by
  induction calls generalizing e task with
  | nil => exact ⟨task, htask, by simp [completions, callReports]⟩
  | cons call calls ih =>
    obtain ⟨next, hnext, hone⟩ := h.estimate_call htask call
    obtain ⟨task', htask', hrest⟩ := ih (h.call call) hnext
    refine ⟨task', htask', ?_⟩
    rw [hrest, hone, learns_call, ← Function.iterate_add_apply, e.completions_cons u call calls]
    cases e.learns with
    | true => rfl
    | false => rfl

end Timed

end Executive

end TaskAllocation
