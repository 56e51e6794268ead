import TaskAllocation.Estimate

/-!
# Tasks

A task either is carried out as it stands or splits into exactly two parts.
Tasks are numbered in the order in which they are declared; a task that hangs
under no other is its own parent.

## Main definitions

* `TaskSpec` — what is declared about a task.
* `Task` — a declared task with its place among the others and its history.
* `Task.record` — take note of how long the task has just run.
-/

namespace TaskAllocation

/-- The number of a task, in order of declaration. -/
abbrev TaskId := Nat

/-- The number of a block, in order of creation. -/
abbrev BlockId := Nat

/-- What is declared about a task. -/
structure TaskSpec (S : Type) where
  /-- The name of the task. -/
  name : String
  /-- Weight of a new measurement in the estimate. -/
  alpha : S
  /-- First value of the estimate. -/
  initial : S
  deriving Repr, Inhabited, DecidableEq

/-- A task among the declared ones. -/
structure Task (S : Type) where
  /-- The number of the task. -/
  id : TaskId
  /-- The name of the task. -/
  name : String
  /-- The task that this one is a part of, or the task itself. -/
  parent : TaskId
  /-- The two parts of a split task. -/
  parts : Option (TaskId × TaskId)
  /-- How long the task is thought to take. -/
  estimate : Estimate S
  /-- How long the task ran the last time it ended, completed or not. -/
  lastExecTime : S
  /-- The part that was given up most recently. -/
  lastAborted : Option TaskId
  deriving Repr, Inhabited, DecidableEq

namespace Task

variable {S : Type} [Scalar S]

/-- The task numbered `id` as it is declared: unlinked, whole, without history. -/
def ofSpec (id : TaskId) (spec : TaskSpec S) : Task S where
  id := id
  name := spec.name
  parent := id
  parts := none
  estimate := Estimate.start spec.alpha spec.initial
  lastExecTime := 0.0
  lastAborted := none

/-- A leaf has no parts. -/
def isLeaf (t : Task S) : Bool := t.parts.isNone

/-- A split task has two parts. -/
def isSplit (t : Task S) : Bool := t.parts.isSome

/-- Whether the task is a part of another. -/
def hasParent (t : Task S) : Bool := t.parent != t.id

/-- Take note that the task has run for `measured`, and fold that into the
estimate if `learn` is set. -/
def record (t : Task S) (measured : S) (learn : Bool) : Task S :=
  { t with
    lastExecTime := measured
    estimate := if learn then t.estimate.update measured else t.estimate }

end Task

end TaskAllocation
