import TaskAllocation.Partitioning

/-!
# Choosing the next task

Three policies: walk between neighbouring blocks and choose within the one that is
reached, take the task with the smallest estimate, or take any task.

## Main definitions

* `AllocationPolicy`, `Allocation` — the policy and the parameters of the walk.
* `Allocation.neighbourStep` — one step of the walk, which may fail.
* `Allocation.neighbour` — the same with the root as the way out of a failure.
* `Allocation.cheapest`, `Allocation.anyTask` — the other two policies.
* `Allocation.next` — the task after a given one.
-/

namespace TaskAllocation

/-- How the next task is chosen. -/
inductive AllocationPolicy where
  /-- Walk between neighbouring blocks. -/
  | neighbour
  /-- Take the task with the smallest estimate. -/
  | cheapest
  /-- Take any task. -/
  | random
  deriving Repr, DecidableEq, Inhabited

/-- A policy with the parameters of the walk. -/
structure Allocation (S : Type) where
  /-- How the next task is chosen. -/
  policy : AllocationPolicy
  /-- How a member of a block is chosen. -/
  partitioning : Partitioning S
  deriving Repr, Inhabited, DecidableEq

namespace Allocation

/-! ### The walk -/

section Walk

variable {S R : Type} [Scalar S] [UnitSource R S]

/-- Move the focus after task `t` has run, and choose a member of the block that has
it then. -/
def neighbourStep (a : Allocation S) (d : Decomposition S) (t : TaskId) (source : R) :
    Except TopologyError TaskId × Decomposition S × R :=
  match d.moveFocus t source with
  | (.error e, d, source) => (.error e, d, source)
  | (.ok (), d, source) =>
    match d.focus with
    | none => (.error .noTasks, d, source)
    | some k => a.partitioning.choose d k source

/-- The next task of the walk.  Where the step fails, the walk starts again at the
top: the root of the tree is the next task and its block gets the focus. -/
def neighbour (a : Allocation S) (d : Decomposition S) (t : TaskId) (source : R) :
    TaskId × Decomposition S × R :=
  match d.focus with
  | none => (Forest.root, d, source)
  | some _ =>
    match a.neighbourStep d t source with
    | (.ok next, d, source) => (next, d, source)
    | (.error _, d, source) => (Forest.root, d.resetFocus, source)

/-- The first task of all: a member of the block with the focus, whatever the
policy, and the root if no block has it. -/
def first (a : Allocation S) (d : Decomposition S) (source : R) : TaskId × Decomposition S × R :=
  match d.focus with
  | none => (Forest.root, d, source)
  | some k =>
    match a.partitioning.choose d k source with
    | (.ok t, d, source) => (t, d, source)
    | (.error _, d, source) => (Forest.root, d, source)

end Walk

/-! ### The other policies -/

section Global

variable {S R : Type} [Scalar S] [IndexSource R]

/-- The cheaper of the best task so far and the next one: a task has to be cheaper
to win. -/
def cheaper (best : Option (Task S)) (t : Task S) : Option (Task S) :=
  match best with
  | some b => if t.estimate.value < b.estimate.value then some t else best
  | none => some t

/-- The task with the smallest estimate, the one declared first among equals. -/
def cheapest (d : Decomposition S) : TaskId :=
  match d.forest.tasks.toList.foldl cheaper none with
  | some t => t.id
  | none => Forest.root

/-- Any task, all equally likely. -/
def anyTask (d : Decomposition S) (source : R) : TaskId × R :=
  IndexSource.below d.forest.size source

end Global

/-! ### The next task -/

/-- The task after `t`. -/
def next {S R : Type} [Scalar S] [IndexSource R] [UnitSource R S] (a : Allocation S)
    (d : Decomposition S) (t : TaskId) (source : R) : TaskId × Decomposition S × R :=
  match a.policy with
  | .neighbour => a.neighbour d t source
  | .cheapest => (cheapest d, d, source)
  | .random =>
    let (t, source) := anyTask d source
    (t, d, source)

end Allocation

end TaskAllocation
