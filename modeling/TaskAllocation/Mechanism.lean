/-!
# Mechanisms

What carries out a task can do one timestep, tell whether it is done, and go back to
its start.  The mechanism of a simulation is a counter that is done after a fixed
number of timesteps.

## Main definitions

* `Performer` — what it takes to carry out a task.
* `Mechanism.lasting` — a mechanism of a given duration.
* `Mechanism.execute`, `Mechanism.reset`, `Mechanism.isFinished`.
-/

namespace TaskAllocation

/-- States of something that carries out a task. -/
class Performer (M : Type) where
  /-- Do one timestep. -/
  execute : M → M
  /-- Whether the task is done. -/
  isFinished : M → Bool
  /-- Go back to the start. -/
  reset : M → M

/-- A mechanism that needs a fixed number of timesteps. -/
structure Mechanism where
  /-- The timesteps needed. -/
  duration : Nat
  /-- The timesteps done. -/
  progress : Nat
  deriving Repr, Inhabited, DecidableEq

namespace Mechanism

/-- A mechanism at its start that needs `duration` timesteps, and at least one. -/
def lasting (duration : Nat) : Mechanism where
  duration := max duration 1
  progress := 0

/-- Do one timestep. -/
def execute (m : Mechanism) : Mechanism := { m with progress := m.progress + 1 }

/-- Go back to the start. -/
def reset (m : Mechanism) : Mechanism := { m with progress := 0 }

/-- Whether all the timesteps needed are done. -/
def isFinished (m : Mechanism) : Bool := m.duration ≤ m.progress

instance : Performer Mechanism where
  execute := execute
  isFinished := isFinished
  reset := reset

theorem isFinished_iff (m : Mechanism) : m.isFinished = true ↔ m.duration ≤ m.progress := by
  simp [isFinished]

@[simp]
theorem duration_execute (m : Mechanism) : m.execute.duration = m.duration := rfl

@[simp]
theorem progress_execute (m : Mechanism) : m.execute.progress = m.progress + 1 := rfl

@[simp]
theorem duration_reset (m : Mechanism) : m.reset.duration = m.duration := rfl

@[simp]
theorem progress_reset (m : Mechanism) : m.reset.progress = 0 := rfl

end Mechanism

end TaskAllocation
