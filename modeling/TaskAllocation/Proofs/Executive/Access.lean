import TaskAllocation.Proofs.Decomposition.Access
import TaskAllocation.Proofs.Executive.Calls

/-!
# Runs without lookups that miss

An executive looks up the mechanism of a task by its number, when it gets the task ready and
whenever the task works, without asking whether there is one; and its choices look up blocks
and tasks in the same way.  Here the calls are answered with every such lookup left open.  Whatever
an executive is asked for, and in whatever order, no lookup misses, and what the calls answer
is what they always do.

The one thing to know along a run is that the running task is a task.  It was when it was
chosen, and no call takes a task away, not even one that moves the focus behind the back of the
executive or that names a task that there is not.

## Main definitions

* `Executive.Answer`, `Executive.answer`, `Executive.answers` — what calls hand back.
* `Executive.checkedTimestep`, `Executive.checkedCalls` — calls with every lookup open.
* `Executive.InRange` — tasks have their mechanisms, and the running task is one.

## Main results

* `Executive.InRange.call` — every call keeps an executive in range.
* `Executive.InRange.checkedCall_eq` — no lookup of a call misses.
* `Executive.accesses_in_range` — **no lookup of a run misses.**
-/

namespace TaskAllocation

namespace Executive

variable {S R M : Type}

/-! ### Answers -/

/-- What a call hands back. -/
inductive Answer (S : Type) where
  /-- The report of a timestep. -/
  | report (report : Report S)
  /-- The task that was given up, if one was running. -/
  | aborted (task : Option TaskId)
  /-- The task that was chosen. -/
  | chosen (task : TaskId)
  deriving Repr, DecidableEq, Inhabited

/-- The task that an answer is about. -/
def Answer.task? : Answer S → Option TaskId
  | .report r => some r.task
  | .aborted t => t
  | .chosen t => some t

section Answers

variable [Scalar S] [UnitSource R S] [IndexSource R] [Performer M]

/-- What a call hands back. -/
def answer (e : Executive S R M) : Call → Answer S
  | .timestep => .report e.timestep.1
  | .abortCurrent => .aborted e.abortCurrent.1
  | .nextTask last => .chosen (e.nextTask last).1

/-- What a sequence of calls hands back. -/
def answers (e : Executive S R M) : List Call → List (Answer S)
  | [] => []
  | call :: calls => e.answer call :: (e.call call).answers calls

/-! ### Calls with every lookup open -/

/-- Let the mechanism of task `t` do one timestep. -/
def checkedCarryOn (e : Executive S R M) (t : TaskId) : Option (Executive S R M) := do
  let m ← e.mechanisms[t]?
  let m := Performer.execute m
  let e := { e with
    mechanisms := e.mechanisms.setIfInBounds t m
    elapsed := e.elapsed + 1 }
  return if Performer.isFinished m then e.finish t false else e

/-- Draw whether the running task `t` is given up; carry it on if not. -/
def checkedWork (e : Executive S R M) (t : TaskId) : Option (Executive S R M) :=
  let prob := e.abortCurve.prob (Scalar.ofNat e.elapsed) (e.decomposition.forest.estimate t)
  let (draw, source) := (UnitSource.uniform e.source : S × R)
  let e := { e with abortProb := prob, source := source }
  if draw < prob then some (e.finish t true) else e.checkedCarryOn t

/-- Choose the task after `last`.  The first task is chosen in the block with the focus, by
lookups that report their failures. -/
def checkedNextTask (e : Executive S R M) (last : Option TaskId) :
    Option (TaskId × Executive S R M) := do
  let (t, d, source) ← match last with
    | none => some (e.allocation.first e.decomposition e.source)
    | some t => e.allocation.checkedNext e.decomposition t e.source
  return (t, { e with decomposition := d, source := source })

/-- Choose the next task and get it ready to run. -/
def checkedAllocate (e : Executive S R M) : Option (TaskId × Executive S R M) := do
  let (t, e) ← { e with phase := .allocating }.checkedNextTask e.last
  let _ ← e.mechanisms[t]?
  return (t, { e with
    mechanisms := e.mechanisms.modify t Performer.reset
    elapsed := 0
    current := some t
    phase := .executing t })

/-- The running task, chosen now if none is running. -/
def checkedEngage (e : Executive S R M) : Option (TaskId × Executive S R M) :=
  match e.phase with
  | .executing t => some (t, e)
  | _ => e.checkedAllocate

/-- Run one timestep. -/
def checkedTimestep (e : Executive S R M) : Option (Report S × Executive S R M) := do
  let (t, e) ← { e with step := e.step + 1 }.checkedEngage
  let e ← e.checkedWork t
  return (e.report t, e)

/-- Answer a call. -/
def checkedCall (e : Executive S R M) : Call → Option (Answer S × Executive S R M)
  | .timestep => e.checkedTimestep.map fun (report, e) => (.report report, e)
  | .abortCurrent =>
    let (task, e) := e.abortCurrent
    some (.aborted task, e)
  | .nextTask last => (e.checkedNextTask last).map fun (task, e) => (.chosen task, e)

/-- Answer a sequence of calls. -/
def checkedCalls (e : Executive S R M) : List Call → Option (List (Answer S) × Executive S R M)
  | [] => some ([], e)
  | call :: calls => do
    let (answer, e) ← e.checkedCall call
    let (answers, e) ← e.checkedCalls calls
    return (answer :: answers, e)

end Answers

/-! ### What holds along a run -/

/-- Every task has its mechanism, and the running task is one of them. -/
structure InRange (e : Executive S R M) : Prop where
  equipped : e.Equipped
  running : ∀ t, e.phase = .executing t → t < e.decomposition.forest.size

/-- An executive begins in range. -/
theorem inRange_of_start [Scalar S] {d : Decomposition S} (hd : d.Coherent) {a : Allocation S}
    {abort : AbortCurve S} {learns : Bool} {source : R} {mechanisms : Array M}
    {e : Executive S R M} (hstart : start d a abort learns source mechanisms = .ok e) :
    e.InRange := by
  refine ⟨equipped_of_start hd hstart, ?_⟩
  obtain ⟨-, -, rfl⟩ := start_eq_ok_iff.mp hstart
  exact fun t ht => nomatch ht

namespace InRange

variable [Scalar S] [UnitSource R S] [IndexSource R] [Performer M]
  {e : Executive S R M} {t : TaskId}

/-- The task that a timestep is spent on is a task. -/
theorem lt_size_engaged (h : e.InRange) : e.engaged.1 < e.decomposition.forest.size := by
  cases hexec : e.phase.isExecuting with
  | true =>
    obtain ⟨t, ht⟩ := exists_executing hexec
    rw [engaged_of_executing ht]
    exact h.running t ht
  | false =>
    have hbegun : ({ e with step := e.step + 1 } : Executive S R M).Equipped :=
      ⟨h.equipped.coherent, h.equipped.size_eq⟩
    rw [engaged_of_not_executing hexec]
    exact hbegun.allocate.1

/-- **Every call keeps an executive in range.** -/
theorem call (h : e.InRange) (call : Call) : (e.call call).InRange := by
  refine ⟨h.equipped.call call, fun t ht => ?_⟩
  rw [size_eq_of_outline (e.outline_call call)]
  cases call with
  | timestep =>
    -- it is about the task that it was spent on
    obtain ⟨-, -, -, htask⟩ := e.timestep_keeps
    change e.timestep.2.phase = .executing t at ht
    rw [ht] at htask
    cases htask
    exact h.lt_size_engaged
  | abortCurrent =>
    -- nothing is running any more
    change e.abortCurrent.2.phase = .executing t at ht
    unfold Executive.abortCurrent at ht
    split at ht
    · cases ht
    · next hnone => exact absurd ht (hnone t)
  | nextTask last => exact h.running t ht

theorem afterCalls (h : e.InRange) (calls : List Call) : (e.afterCalls calls).InRange := by
  induction calls generalizing e with
  | nil => exact h
  | cons call calls ih => exact ih (h.call call)

/-- What is answered is about a task. -/
theorem lt_size_of_answer (h : e.InRange) (call : Call)
    (ht : (e.answer call).task? = some t) : t < e.decomposition.forest.size := by
  cases call with
  | timestep =>
    cases ht
    exact h.lt_size_engaged
  | abortCurrent =>
    have hgiven : e.abortCurrent.1 = some t := ht
    unfold Executive.abortCurrent at hgiven
    split at hgiven
    · next u hu =>
      cases hgiven
      exact h.running t hu
    · cases hgiven
  | nextTask last =>
    cases ht
    exact (h.equipped.nextTask last).1

theorem lt_size_of_mem_answers (h : e.InRange) {calls : List Call} {answer : Answer S}
    (hanswer : answer ∈ e.answers calls) (ht : answer.task? = some t) :
    t < e.decomposition.forest.size := by
  induction calls generalizing e with
  | nil => cases hanswer
  | cons call calls ih =>
    rcases List.mem_cons.mp hanswer with rfl | hrest
    · exact h.lt_size_of_answer call ht
    · rw [← size_eq_of_outline (e.outline_call call)]
      exact ih (h.call call) hrest

end InRange

/-! ### No lookup misses -/

section Checked

variable [Scalar S] [UnitSource R S]

theorem checkedWork_eq [Performer M] {e : Executive S R M} {t : TaskId}
    (ht : t < e.mechanisms.size) : e.checkedWork t = some (e.work t) := by
  have hm : e.mechanisms[t]? = some e.mechanisms[t] := Array.getElem?_eq_getElem ht
  unfold checkedWork work
  dsimp only
  split
  · rfl
  · simp only [checkedCarryOn, carryOn, hm]
    rfl

variable [IndexSource R]

namespace Equipped

variable {e : Executive S R M}

theorem checkedNextTask_eq (h : e.Equipped) (last : Option TaskId) :
    e.checkedNextTask last = some (e.nextTask last) := by
  cases last with
  | none => rfl
  | some t =>
    unfold checkedNextTask Executive.nextTask
    dsimp only
    rw [h.coherent.checkedNext_eq]
    rfl

variable [Performer M]

theorem checkedAllocate_eq (h : e.Equipped) : e.checkedAllocate = some e.allocate := by
  have hbegun : ({ e with phase := .allocating } : Executive S R M).Equipped :=
    ⟨h.coherent, h.size_eq⟩
  obtain ⟨hlt, hnext⟩ := hbegun.nextTask e.last
  rw [← size_eq_of_outline (rearranged_nextTask _ e.last).outline_eq] at hlt
  obtain ⟨m, hm⟩ := hnext.exists_mechanism hlt
  unfold checkedAllocate Executive.allocate
  rw [hbegun.checkedNextTask_eq, Option.bind_eq_bind, Option.bind_some]
  generalize ({ e with phase := .allocating } : Executive S R M).nextTask e.last = chosen at hm ⊢
  obtain ⟨t, e'⟩ := chosen
  simp only [hm]
  rfl

theorem checkedEngage_eq (h : e.Equipped) : e.checkedEngage = some e.engage := by
  unfold checkedEngage engage
  cases e.phase with
  | executing t => rfl
  | _ => exact h.checkedAllocate_eq

end Equipped

namespace InRange

variable [Performer M] {e : Executive S R M}

/-- The task that a timestep is spent on still has its mechanism once it is chosen. -/
theorem lt_size_mechanisms_engaged (h : e.InRange) :
    e.engaged.1 < e.engaged.2.mechanisms.size := by
  rw [h.equipped.engaged.size_eq, size_eq_of_outline e.outline_engaged]
  exact h.lt_size_engaged

theorem checkedTimestep_eq (h : e.InRange) : e.checkedTimestep = some e.timestep := by
  have hwork := checkedWork_eq h.lt_size_mechanisms_engaged
  have hbegun : ({ e with step := e.step + 1 } : Executive S R M).Equipped :=
    ⟨h.equipped.coherent, h.equipped.size_eq⟩
  unfold checkedTimestep
  rw [hbegun.checkedEngage_eq, Option.bind_eq_bind, Option.bind_some]
  change (e.engaged.2.checkedWork e.engaged.1).bind _ = _
  rw [hwork, Option.bind_some, timestep_eq]
  rfl

/-- **No lookup of a call misses**, and what the call answers is what it always does. -/
theorem checkedCall_eq (h : e.InRange) (call : Call) :
    e.checkedCall call = some (e.answer call, e.call call) := by
  cases call with
  | timestep =>
    rw [checkedCall, h.checkedTimestep_eq]
    rfl
  | abortCurrent => rfl
  | nextTask last =>
    rw [checkedCall, h.equipped.checkedNextTask_eq]
    rfl

theorem checkedCalls_eq (h : e.InRange) (calls : List Call) :
    e.checkedCalls calls = some (e.answers calls, e.afterCalls calls) := by
  induction calls generalizing e with
  | nil => rfl
  | cons call calls ih =>
    rw [checkedCalls, h.checkedCall_eq, Option.bind_eq_bind, Option.bind_some]
    dsimp only
    rw [ih (h.call call)]
    rfl

end InRange

end Checked

/-- **No lookup of a run misses.**  An executive was set up on a decomposition that was built
from its root by any calls.  Whatever it is then asked for, with whatever draws, there are at
every time as many mechanisms as tasks; what is answered is about one of these tasks; and
with every lookup left open the calls have the answers that they always have, and leave the
executive as they always do. -/
theorem accesses_in_range {R₀ : Type} [Scalar S] [UnitSource R₀ S] [IndexSource R₀]
    [UnitSource R S] [IndexSource R] [Performer M] (root : TaskSpec S) (curve : Logistic S)
    (building : List (Decomposition.Call S R₀)) {a : Allocation S} {abort : AbortCurve S}
    {learns : Bool} {source : R} {mechanisms : Array M} {e : Executive S R M}
    (hstart : start ((Decomposition.single root curve).run building) a abort learns source
      mechanisms = .ok e) (calls : List Call) :
    (e.afterCalls calls).mechanisms.size = mechanisms.size ∧
      (e.afterCalls calls).decomposition.forest.size = mechanisms.size ∧
      (∀ answer ∈ e.answers calls, ∀ t, answer.task? = some t → t < mechanisms.size) ∧
      e.checkedCalls calls = some (e.answers calls, e.afterCalls calls) := by
  have h := inRange_of_start ((Decomposition.Coherent.single root curve).run building) hstart
  have hcount : e.decomposition.forest.size = mechanisms.size := by
    obtain ⟨-, hsize, rfl⟩ := start_eq_ok_iff.mp hstart
    exact hsize.symm
  have hafter := size_eq_of_outline (e.outline_afterCalls calls)
  refine ⟨?_, hafter.trans hcount, fun answer hanswer t ht => ?_, h.checkedCalls_eq calls⟩
  · rw [(h.afterCalls calls).equipped.size_eq, hafter, hcount]
  · rw [← hcount]
    exact h.lt_size_of_mem_answers hanswer ht

/-- Two levels of tasks, with a walk that is asked to go on after a task that there is not. -/
theorem accesses_in_range_two_levels :
    ∃ e, startTwoLevels .neighbour [] #[3, 2, 2, 1, 0] = .ok e ∧
      (e.checkedCalls [.timestep, .nextTask (some 9), .abortCurrent, .timestep]).isSome := by
  obtain ⟨e, hstart⟩ := exists_startTwoLevels .neighbour [] #[3, 2, 2, 1, 0] rfl
  refine ⟨e, hstart, ?_⟩
  rw [(accesses_in_range _ _ _ hstart _).2.2.2]
  rfl

end Executive

end TaskAllocation
