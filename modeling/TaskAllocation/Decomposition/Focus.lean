import TaskAllocation.Decomposition
import TaskAllocation.Draw

/-!
# The focus of a decomposition

The focus starts at a block chosen by a policy.  After a task has run it may move
by one level: from the head of a block to the block above, from a part to the
block that the part heads.  A draw below the probability of staying keeps it where
it is.

## Main definitions

* `FocusPolicy`, `Decomposition.initFocus` — where the focus starts.
* `Crossing`, `Decomposition.crossing?` — the way that is open after a task has run.
* `Decomposition.moveFocus` — draw, and take that way or stay.
* `Decomposition.resetFocus` — back to the block of the root.
-/

namespace TaskAllocation

/-- Where the focus starts. -/
inductive FocusPolicy where
  /-- At the block of the root. -/
  | root
  /-- At any block. -/
  | random
  /-- At the block deepest down, the first such in pre-order. -/
  | deepest
  deriving Repr, DecidableEq, Inhabited

/-- The way to another block that is open after a member of the block with the
focus has run. -/
structure Crossing (S : Type) where
  /-- Whether it leads upwards, from the head of the block. -/
  upward : Bool
  /-- The block above, if there is one. -/
  above : Option BlockId
  /-- The probabilities of not taking it. -/
  stay : StayProbs S
  deriving Repr, DecidableEq

namespace Decomposition

/-! ### Where the focus starts -/

section Start

variable {S R : Type} [Scalar S] [IndexSource R]

/-- The better of the deepest block so far and that of the next task: a block has
to lie deeper to win.  A task that there is not would lie at the top. -/
def deeper (d : Decomposition S) (best : Option (BlockId × Nat)) (t : TaskId) :
    Option (BlockId × Nat) :=
  match d.blockOf? t with
  | some k =>
    let depth := (d.forest.depth t).toOption.getD 0
    match best with
    | some (_, deepest) => if deepest < depth then some (k, depth) else best
    | none => some (k, depth)
  | none => best

/-- The first block in pre-order that lies deepest. -/
def deepestBlock? (d : Decomposition S) : Option BlockId :=
  (d.forest.preorder.foldl d.deeper none).map (·.1)

/-- The block of the root. -/
def rootBlock? (d : Decomposition S) : Option BlockId := d.blockOf? Forest.root

/-- Give the focus to a block, if one is named. -/
def withFocus (d : Decomposition S) (k : Option BlockId) : Decomposition S :=
  match k with
  | some k => { d with focus := some k }
  | none => d

/-- Give the focus to the block that the policy names.  Without blocks there is
nothing to do, and nothing is drawn. -/
def initFocus (d : Decomposition S) (policy : FocusPolicy) (source : R) :
    Decomposition S × R :=
  if d.blocks.isEmpty then (d, source)
  else
    match policy with
    | .root => (d.withFocus d.rootBlock?, source)
    | .deepest => (d.withFocus d.deepestBlock?, source)
    | .random =>
      let (k, source) := IndexSource.below d.blocks.size source
      (d.withFocus (some k), source)

/-- Give the focus back to the block of the root. -/
def resetFocus (d : Decomposition S) : Decomposition S := d.withFocus d.rootBlock?

end Start

/-! ### Moving the focus -/

section Move

variable {S R : Type} [Scalar S] [UnitSource R S]

/-- The probabilities of staying in block `k` below block `above`; at the top the
block is weighed against itself. -/
def stayProbs (d : Decomposition S) (k : BlockId) (above : Option BlockId) : StayProbs S :=
  let here := d.blockEstimate k
  let there := match above with
    | some j => d.blockEstimate j
    | none => here
  { up := stayProb d.stayCurve here there
    down := stayProb d.stayCurve there here }

/-- The way that is open after task `t` has run while block `k` had the focus.  None
is after the root of the tree, and none after a leaf. -/
def crossing? (d : Decomposition S) (k : BlockId) (t : TaskId) :
    Except TopologyError (Option (Crossing S)) := do
  let b ← d.block k
  let task ← d.forest.task t
  if (b.isRoot t && t == Forest.root) || (b.isPart t && !task.isSplit) then return none
  if !b.contains t then throw (.notInBlock k t)
  let above ← d.above k
  return some { upward := b.isRoot t, above := above, stay := d.stayProbs k above }

/-- Where an open way leads, given a draw: to the block above, to the block that
`t` heads, or nowhere if the draw is below the probability of staying. -/
def destination (d : Decomposition S) (k : BlockId) (t : TaskId) (c : Crossing S) (draw : S) :
    Except TopologyError BlockId :=
  if c.upward then
    match c.above with
    | some j => .ok (if c.stay.up ≤ draw then j else k)
    | none => .ok k
  else if c.stay.down ≤ draw then d.below k t
  else .ok k

/-- Move the focus, or not, after task `t` has run.  One draw is made if a way is
open and none otherwise; a failure leaves focus and draws as they are at that
point. -/
def moveFocus (d : Decomposition S) (t : TaskId) (source : R) :
    Except TopologyError Unit × Decomposition S × R :=
  match d.focus with
  | none => (.ok (), d, source)
  | some k =>
    match d.crossing? k t with
    | .error e => (.error e, d, source)
    | .ok none => (.ok (), d, source)
    | .ok (some c) =>
      let (draw, source) := (UnitSource.uniform source : S × R)
      let d := { d with lastStay := some c.stay }
      match d.destination k t c draw with
      | .error e => (.error e, d, source)
      | .ok target => (.ok (), { d with focus := some target }, source)

end Move

end Decomposition

end TaskAllocation
