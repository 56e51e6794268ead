import TaskAllocation.Block
import TaskAllocation.Forest
import TaskAllocation.Likelihood

/-!
# Decompositions

A decomposition is a forest of tasks with one block for every split task, in the
order in which the tasks were split.  Once there is a block, one of them has the
*focus*: the next task is chosen among its members.

## Main definitions

* `Decomposition` — forest, blocks and focus.
* `Decomposition.single`, `add`, `split`, `record` — how one is built and kept up to
  date.
* `Decomposition.blockOf?` — the block that a task heads.
* `Decomposition.above`, `below`, `level` — moving between blocks the way
  their tasks are linked.
-/

namespace TaskAllocation

/-- The probabilities of staying in the block that has the focus. -/
structure StayProbs (S : Type) where
  /-- After the split task of the block has run. -/
  up : S
  /-- After one of its parts has run. -/
  down : S
  deriving Repr, Inhabited, DecidableEq

/-- A forest of tasks with its blocks. -/
structure Decomposition (S : Type) where
  /-- The declared tasks. -/
  forest : Forest S
  /-- One block for every split task. -/
  blocks : Array (Block S)
  /-- The block among whose members the next task is chosen. -/
  focus : Option BlockId
  /-- The curve that decides whether the focus stays. -/
  stayCurve : Logistic S
  /-- The probabilities of staying that were used last. -/
  lastStay : Option (StayProbs S)
  deriving Repr, Inhabited

namespace Decomposition

variable {S : Type} [Scalar S]

/-! ### Building -/

/-- A decomposition of the root task alone. -/
def single (root : TaskSpec S) (stayCurve : Logistic S) : Decomposition S where
  forest := Forest.empty.push root
  blocks := #[]
  focus := none
  stayCurve := stayCurve
  lastStay := none

/-- Declare a task. -/
def add (d : Decomposition S) (spec : TaskSpec S) :
    Except TopologyError (TaskId × Decomposition S) :=
  (d.forest.add spec).map fun (id, forest) => (id, { d with forest := forest })

/-- Split a task into the listed parts and open a block for it.  The first block
gets the focus, and so does that of the root. -/
def split (d : Decomposition S) (parent : TaskId) (parts : List TaskId) :
    Except TopologyError (BlockId × Decomposition S) :=
  (d.forest.split parent parts).map fun ((first, second), forest) =>
    let id := d.blocks.size
    (id, { d with
      forest := forest
      blocks := d.blocks.push (Block.new parent first second)
      focus := if d.focus.isNone ∨ parent = Forest.root then some id else d.focus })

/-- Take note that a task has run for `measured`. -/
def record (d : Decomposition S) (t : TaskId) (measured : S) (learn : Bool) :
    Except TopologyError (Decomposition S) :=
  (d.forest.record t measured learn).map fun forest => { d with forest := forest }

/-- Take note that a task was given up: its parent, if it has one, remembers it. -/
def noteAborted (d : Decomposition S) (t : TaskId) : Decomposition S :=
  match d.forest.task? t with
  | some task =>
    if task.hasParent then { d with forest := d.forest.noteAborted task.parent t } else d
  | none => d

/-- Check that all tasks hang under the root. -/
def validate (d : Decomposition S) : Except TopologyError Unit := d.forest.validate

/-! ### Blocks -/

/-- The block with a given number. -/
def block? (d : Decomposition S) (k : BlockId) : Option (Block S) := d.blocks[k]?

/-- The block with a given number, or the error that there is none. -/
def block (d : Decomposition S) (k : BlockId) : Except TopologyError (Block S) :=
  match d.block? k with
  | some b => .ok b
  | none => .error (.unknownBlock k)

/-- The block that has the focus. -/
def focused? (d : Decomposition S) : Option (Block S) := d.focus.bind d.block?

/-- The block that a task heads. -/
def blockOf? (d : Decomposition S) (t : TaskId) : Option BlockId :=
  d.blocks.findIdx? (·.root == t)

/-- The estimate of the task that heads a block. -/
def blockEstimate (d : Decomposition S) (k : BlockId) : S :=
  match d.block? k with
  | some b => d.forest.estimate b.root
  | none => 0.0

/-! ### Moving between blocks -/

/-- The blocks other than `k` in which `t` is a part. -/
def withPart (d : Decomposition S) (k : BlockId) (t : TaskId) : List BlockId :=
  (List.range d.blocks.size).filter fun j => j != k && (d.block? j).any (·.isPart t)

/-- The block above: the one in which the head of `k` is a part. -/
def above (d : Decomposition S) (k : BlockId) : Except TopologyError (Option BlockId) :=
  match d.block k with
  | .error e => .error e
  | .ok b =>
    match d.withPart k b.root with
    | [] => .ok none
    | [j] => .ok (some j)
    | _ => .error (.severalBlocksAbove k)

/-- The block below: the one that `t`, a part in `k`, heads. -/
def below (d : Decomposition S) (k : BlockId) (t : TaskId) : Except TopologyError BlockId :=
  match d.block k with
  | .error e => .error e
  | .ok b =>
    if b.isPart t then
      match d.blockOf? t with
      | some j => .ok j
      | none => .error (.noBlockBelow k t)
    else .error (.notInBlock k t)

/-- At most `bound` blocks upwards from `k`. -/
def levelUpTo (d : Decomposition S) : (bound : Nat) → BlockId → Except TopologyError Nat
  | 0, _ => .ok 0
  | bound + 1, k =>
    match d.above k with
    | .error e => .error e
    | .ok none => .ok 0
    | .ok (some j) => (d.levelUpTo bound j).map (· + 1)

/-- How many blocks lie above a block.  The way up never meets a block twice, so as
many steps as there are blocks suffice, and one more to find that a number is not
that of a block. -/
def level (d : Decomposition S) (k : BlockId) : Except TopologyError Nat :=
  d.levelUpTo (d.blocks.size + 1) k

end Decomposition

end TaskAllocation
