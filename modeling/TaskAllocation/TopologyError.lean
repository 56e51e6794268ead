import TaskAllocation.Task

/-!
# What can be wrong with a decomposition

## Main definitions

* `TopologyError` — the ways in which tasks and blocks fail to fit together.
* `TopologyError.message` — the wording shown to the user, who knows a block as a
  "TAB", a task allocation block.
-/

namespace TaskAllocation

/-- A way in which tasks and blocks fail to fit together. -/
inductive TopologyError where
  /-- A task is to be split into other than two different parts. -/
  | notTwoParts (count : Nat)
  /-- No task has this number. -/
  | unknownTask (task : TaskId)
  /-- No task has this name. -/
  | unknownName (name : String)
  /-- A task of this name is declared already. -/
  | duplicateName (name : String)
  /-- The task is a part of `parent` already. -/
  | alreadyPart (task parent : TaskId)
  /-- A task cannot be a part of itself. -/
  | ownPart (task : TaskId)
  /-- The part is the root of the tree or lies above its parent-to-be. -/
  | cycle (parent task : TaskId)
  /-- The task is split already. -/
  | alreadySplit (task : TaskId)
  /-- No block has this number. -/
  | unknownBlock (block : BlockId)
  /-- The member heads no block of its own. -/
  | noBlockBelow (block : BlockId) (task : TaskId)
  /-- The head of the block is a part in more than one other block. -/
  | severalBlocksAbove (block : BlockId)
  /-- The task cannot be reached from the root. -/
  | disconnected (task : TaskId)
  /-- The task does not belong to the block where it is looked for. -/
  | notInBlock (block : BlockId) (task : TaskId)
  /-- There are no tasks at all. -/
  | noTasks
  /-- The task cannot become active in the block headed by `root`. -/
  | notMember (root task : TaskId)
  deriving Repr, DecidableEq, Inhabited

/-- The wording of an error. -/
def TopologyError.message : TopologyError → String
  | .notTwoParts count => s!"Bifurcating task needs exactly 2 children, got {count}"
  | .unknownTask task => s!"Unknown task id {task}"
  | .unknownName name => s!"Unknown task name '{name}'"
  | .duplicateName name => s!"Duplicate task name '{name}'"
  | .alreadyPart task parent => s!"Task {task} already has parent {parent}"
  | .ownPart task => s!"Task {task} cannot be its own child"
  | .cycle parent task => s!"Making {task} a child of {parent} would create a cycle"
  | .alreadySplit task => s!"Task {task} already has children"
  | .unknownBlock block => s!"Unknown TAB id {block}"
  | .noBlockBelow block task => s!"Task {task} has no TAB below TAB {block}"
  | .severalBlocksAbove block => s!"TAB {block} has more than one parent TAB"
  | .disconnected task => s!"Task {task} is not reachable from the root"
  | .notInBlock block task => s!"Task {task} is not a member of TAB {block}"
  | .noTasks => "Task tree is empty"
  | .notMember root task => s!"Task {task} is not a member of the TAB rooted at {root}"

end TaskAllocation
