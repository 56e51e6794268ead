import TaskAllocation.Executive

/-!
# Configurations

A configuration lays down everything that a run depends on: the tasks and how they split,
the curves of the three decisions, and the policies.

## Main definitions

* `TaskEntry` — a task as it is configured.
* `Config` — a configuration.
* `Config.standard` — the configuration used where none is given.
-/

namespace TaskAllocation

/-- A task as it is configured. -/
structure TaskEntry (S : Type) where
  /-- The name of the task. -/
  name : String
  /-- The names of its parts; none for a leaf. -/
  parts : List String
  /-- First value of its estimate. -/
  initial : S
  /-- Weight of a measurement, if it is not the common one. -/
  alpha : Option S
  /-- The timesteps that the task takes, if they are laid down. -/
  duration : Option UInt64
  deriving Repr, Inhabited, DecidableEq

/-- Everything that a run depends on.  The first task is the root. -/
structure Config (S : Type) where
  /-- The seed of the first agent. -/
  seed : Option UInt64
  /-- Whether completed tasks change their estimates. -/
  learns : Bool
  /-- How the next task is chosen. -/
  allocation : AllocationPolicy
  /-- Where the focus starts. -/
  focus : FocusPolicy
  /-- The common weight of a measurement. -/
  alpha : S
  /-- The curve of the abort decision. -/
  abort : AbortCurve S
  /-- How a member of a block is chosen. -/
  partitioning : Partitioning S
  /-- The curve that decides whether the focus stays. -/
  stay : Logistic S
  /-- The tasks. -/
  tasks : List (TaskEntry S)
  deriving Repr, Inhabited, DecidableEq

namespace Config

variable {S : Type} [Scalar S]

/-- The tasks of the standard configuration: collecting splits into harvesting and
dropping at a cache, and harvesting into foraging and transport. -/
def standardTasks : List (TaskEntry S) := [
  { name := "collect", parts := ["harvest", "cache_drop"], initial := 40.0
    alpha := none, duration := some 30 },
  { name := "harvest", parts := ["forage", "transport"], initial := 25.0
    alpha := none, duration := some 20 },
  { name := "cache_drop", parts := [], initial := 15.0, alpha := none, duration := some 12 },
  { name := "forage", parts := [], initial := 10.0, alpha := none, duration := some 8 },
  { name := "transport", parts := [], initial := 10.0, alpha := none, duration := some 14 }]

/-- The configuration used where none is given. -/
def standard : Config S where
  seed := none
  learns := true
  allocation := .neighbour
  focus := .root
  alpha := 0.8
  abort := AbortCurve.standard
  partitioning := Partitioning.standard
  stay := Logistic.standard
  tasks := standardTasks

end Config

end TaskAllocation
