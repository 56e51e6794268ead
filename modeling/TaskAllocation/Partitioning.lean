import TaskAllocation.Decomposition.Focus

/-!
# Whole or in part

Within a block there is a choice between running the split task whole and running
one of its parts.  A first draw decides between whole and parts, and only then a
second between the parts; the part that was given up most recently is less likely
to be taken again.

## Main definitions

* `Partitioning` — the parameters of the choice.
* `Partitioning.wholeProb`, `firstProb`, `probs` — the two probabilities.
* `Partitioning.choose` — choose a member of a block and make it active.
-/

namespace TaskAllocation

/-- How to choose between a task and its parts. -/
structure Partitioning (S : Type) where
  /-- The curve that gives the probability of running the task whole. -/
  curve : Logistic S
  /-- Always take a part.  This wins over `never`. -/
  always : Bool
  /-- Never take a part. -/
  never : Bool
  /-- How much the probability of a part drops below one half if it was given up
  most recently. -/
  bias : S
  deriving Repr, Inhabited, DecidableEq

namespace Partitioning

variable {S R : Type} [Scalar S] [UnitSource R S]

/-- The choice made where nothing else is asked for. -/
def standard : Partitioning S where
  curve := Logistic.standard
  always := false
  never := false
  bias := 0.0

/-- The probability of running a task whole whose parts are estimated at `parts`
together. -/
def wholeProb (p : Partitioning S) (parts whole : S) : S :=
  if p.always then 0.0
  else if p.never then 1.0
  else TaskAllocation.wholeProb p.curve parts whole

/-- The probability of the first part once a part is to be run. -/
def firstProb (p : Partitioning S) (lastAborted : Option TaskId) (first second : TaskId) : S :=
  if lastAborted = some first then 0.5 - p.bias
  else if lastAborted = some second then 0.5 + p.bias
  else 0.5

/-! ### Choosing a member -/

/-- A member that was chosen, with the probabilities that were used. -/
structure Choice (S : Type) where
  /-- The chosen member. -/
  task : TaskId
  /-- The probability of the whole task. -/
  wholeProb : S
  /-- The probability of the first part, if it came to a second draw. -/
  firstProb : Option S
  deriving Repr, DecidableEq

/-- Draw a member of a block, given the probability of the whole task and that of
the first part. -/
def draw (b : Block S) (wholeProb firstProb : S) (source : R) : Choice S × R :=
  let (u, source) := (UnitSource.uniform source : S × R)
  if u < wholeProb then
    ({ task := b.root, wholeProb := wholeProb, firstProb := none }, source)
  else
    let (w, source) := (UnitSource.uniform source : S × R)
    ({ task := if w < firstProb then b.first else b.second
       wholeProb := wholeProb
       firstProb := some firstProb }, source)

/-- Make the chosen member active, and keep the probabilities that were used. -/
def Choice.apply (c : Choice S) (b : Block S) : Except TopologyError (Block S) :=
  { b with
    lastWholeProb := some c.wholeProb
    lastFirstProb := c.firstProb.or b.lastFirstProb }.activate c.task

/-- The probabilities of a block: that of the whole task, and that of the first part once a
part is to be run. -/
def probs (p : Partitioning S) (f : Forest S) (b : Block S) : Except TopologyError (S × S) := do
  let root ← f.task b.root
  let first ← f.task b.first
  let second ← f.task b.second
  return (p.wholeProb (first.estimate.value + second.estimate.value) root.estimate.value,
    p.firstProb root.lastAborted b.first b.second)

/-- Choose a member of block `k` and make it active. -/
def choose (p : Partitioning S) (d : Decomposition S) (k : BlockId) (source : R) :
    Except TopologyError TaskId × Decomposition S × R :=
  match d.block k with
  | .error e => (.error e, d, source)
  | .ok b =>
    match p.probs d.forest b with
    | .error e => (.error e, d, source)
    | .ok (whole, first) =>
      let (choice, source) := draw b whole first source
      match choice.apply b with
      | .error e => (.error e, d, source)
      | .ok b => (.ok choice.task, { d with blocks := d.blocks.setIfInBounds k b }, source)

end Partitioning

end TaskAllocation
