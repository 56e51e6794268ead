import TaskAllocation.TopologyError

/-!
# Task allocation blocks

A block is a split task together with its two parts.  Of these three members one
is active once the block has been used, and the block remembers which one was
active before; what happened at the last change can be read off these two.

## Main definitions

* `Block` — the three members, the active and the previously active one, and the
  probabilities that were used last.
* `Block.activate` — make a member active.
* `Block.taskChanged`, `Block.levelChanged`, `Block.wentToPart` — what the last
  change did.
-/

namespace TaskAllocation

/-- A split task and its two parts. -/
structure Block (S : Type) where
  /-- The split task. -/
  root : TaskId
  /-- Its first part. -/
  first : TaskId
  /-- Its second part. -/
  second : TaskId
  /-- The active member. -/
  active : Option TaskId
  /-- The member that was active before. -/
  last : Option TaskId
  /-- The probability of keeping the task whole that was used last. -/
  lastWholeProb : Option S
  /-- The probability of the first part that was used last. -/
  lastFirstProb : Option S
  deriving Repr, Inhabited, DecidableEq

namespace Block

variable {S : Type}

/-- The block of a task that has just been split. -/
def new (root first second : TaskId) : Block S where
  root := root
  first := first
  second := second
  active := none
  last := none
  lastWholeProb := none
  lastFirstProb := none

/-! ### Members -/

/-- Whether `t` is the split task. -/
def isRoot (b : Block S) (t : TaskId) : Bool := t == b.root

/-- Whether `t` is one of the two parts. -/
def isPart (b : Block S) (t : TaskId) : Bool := t == b.first || t == b.second

/-- Whether `t` is a member. -/
def contains (b : Block S) (t : TaskId) : Bool := b.isRoot t || b.isPart t

theorem isRoot_iff (b : Block S) (t : TaskId) : b.isRoot t = true ↔ t = b.root := by
  simp [isRoot]

theorem isPart_iff (b : Block S) (t : TaskId) :
    b.isPart t = true ↔ t = b.first ∨ t = b.second := by
  simp [isPart]

theorem contains_iff (b : Block S) (t : TaskId) :
    b.contains t = true ↔ t = b.root ∨ t = b.first ∨ t = b.second := by
  simp [contains, isRoot, isPart]

/-- Make a member active. -/
def activate (b : Block S) (t : TaskId) : Except TopologyError (Block S) :=
  if b.contains t then .ok { b with last := b.active, active := some t }
  else .error (.notMember b.root t)

theorem activate_eq_ok_iff {b c : Block S} {t : TaskId} :
    b.activate t = .ok c ↔
      b.contains t = true ∧ c = { b with last := b.active, active := some t } := by
  unfold activate
  split
  · rename_i h
    simp [h, eq_comm]
  · rename_i h
    simp [h]

theorem activate_eq_error_iff {b : Block S} {t : TaskId} {e : TopologyError} :
    b.activate t = .error e ↔ b.contains t = false ∧ e = .notMember b.root t := by
  unfold activate
  split
  · rename_i h
    simp [h]
  · rename_i h
    simp [h, eq_comm]

/-! ### What the last change did -/

/-- Whether the split task is active. -/
def rootActive (b : Block S) : Bool := b.active == some b.root

/-- Whether the first part is active. -/
def firstActive (b : Block S) : Bool := b.active == some b.first

/-- Whether the second part is active. -/
def secondActive (b : Block S) : Bool := b.active == some b.second

/-- Whether the active member differs from the one before. -/
def taskChanged (b : Block S) : Bool := b.active != b.last

/-- Whether the last change went from the split task to a part or back. -/
def levelChanged (b : Block S) : Bool :=
  match b.last, b.active with
  | some last, some active => b.isRoot last != b.isRoot active
  | _, _ => false

/-- Whether the last change went from the split task to a part. -/
def wentToPart (b : Block S) : Bool :=
  match b.last, b.active with
  | some last, some active => b.isRoot last && b.isPart active
  | _, _ => false

end Block

end TaskAllocation
