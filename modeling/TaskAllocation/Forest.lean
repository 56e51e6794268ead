import TaskAllocation.NameTable
import TaskAllocation.TopologyError

/-!
# The forest of declared tasks

Tasks are only ever added, and are linked by splitting a task into two parts that
hang nowhere yet.  Links can be made in any order, so what grows is a forest; once
every task but the first hangs under another, it is one tree with task `0` at its
root.

## Main definitions

* `Forest` — the declared tasks in order, and a table of their names.
* `Forest.add` — declare one more task, under a new name.
* `Forest.lineage` — a task, its parent, the parent of that, up to the top.
* `Forest.split` — split a task into two parts.
* `Forest.preorder` — the tasks under the root, each before its parts.
* `Forest.validate` — check that everything hangs under the root.
-/

namespace TaskAllocation

/-- The declared tasks, each at the place that is its number, and a table that leads from
names to numbers. -/
structure Forest (S : Type) where
  /-- The tasks in order of declaration. -/
  tasks : Array (Task S)
  /-- The numbers of the tasks, listed under their names. -/
  names : List (String × TaskId)
  deriving Repr, Inhabited

namespace Forest

variable {S : Type} [Scalar S]

/-- No tasks. -/
def empty : Forest S where
  tasks := #[]
  names := []

/-- The number of tasks. -/
def size (f : Forest S) : Nat := f.tasks.size

/-- The number of the root of the tree. -/
def root : TaskId := 0

/-- The root, once a task has been declared. -/
def root? (f : Forest S) : Option TaskId :=
  if f.tasks.isEmpty then none else some root

/-! ### Looking up tasks -/

/-- The task with a given number. -/
def task? (f : Forest S) (t : TaskId) : Option (Task S) := f.tasks[t]?

/-- The task with a given number, or the error that there is none. -/
def task (f : Forest S) (t : TaskId) : Except TopologyError (Task S) :=
  match f.task? t with
  | some task => .ok task
  | none => .error (.unknownTask t)

/-- The number that is listed under a name. -/
def idOf? (f : Forest S) (name : String) : Option TaskId := f.names.lookup name

/-- The parent of a task; the number itself if there is no such task. -/
def parent (f : Forest S) (t : TaskId) : TaskId :=
  match f.task? t with
  | some task => task.parent
  | none => t

/-- The two parts of a task, if it is split. -/
def parts? (f : Forest S) (t : TaskId) : Option (TaskId × TaskId) :=
  (f.task? t).bind (·.parts)

/-- The estimate of a task; zero if there is no such task. -/
def estimate (f : Forest S) (t : TaskId) : S :=
  match f.task? t with
  | some task => task.estimate.value
  | none => 0.0

/-! ### Lineages -/

/-- At most `bound` steps upwards from a task. -/
def lineageUpTo (f : Forest S) : (bound : Nat) → TaskId → List TaskId
  | 0, t => [t]
  | bound + 1, t =>
    if f.parent t = t then [t] else t :: f.lineageUpTo bound (f.parent t)

/-- A task, its parent, the parent of that, up to a task that is its own parent.
A lineage never repeats a task, so as many steps as there are tasks suffice. -/
def lineage (f : Forest S) (t : TaskId) : List TaskId := f.lineageUpTo f.size t

/-- Whether `above` is `t` or lies above it. -/
def isAncestor (f : Forest S) (above t : TaskId) : Bool := (f.lineage t).contains above

/-- How many tasks lie above an existing task. -/
def depth (f : Forest S) (t : TaskId) : Except TopologyError Nat :=
  (f.task t).map fun _ => (f.lineage t).length - 1

/-! ### Growing the forest -/

/-- One more task at the end, and its number under its name. -/
def push (f : Forest S) (spec : TaskSpec S) : Forest S where
  tasks := f.tasks.push (Task.ofSpec f.size spec)
  names := NameTable.enter spec.name f.size f.names

@[simp]
theorem size_push (f : Forest S) (spec : TaskSpec S) : (f.push spec).size = f.size + 1 :=
  Array.size_push _

/-- Declare a task; its number is the number of tasks before it. -/
def add (f : Forest S) (spec : TaskSpec S) : Except TopologyError (TaskId × Forest S) :=
  match f.idOf? spec.name with
  | some _ => .error (.duplicateName spec.name)
  | none => .ok (f.size, f.push spec)

theorem add_eq_ok_iff {f g : Forest S} {spec : TaskSpec S} {id : TaskId} :
    f.add spec = .ok (id, g) ↔
      f.idOf? spec.name = none ∧ id = f.size ∧ g = f.push spec := by
  unfold add
  split
  · rename_i h
    simp [h]
  · rename_i h
    simp [h, eq_comm]

/-- Check that `t` can become a part of `parent`: it is another task, hangs
nowhere yet, is not the root and does not lie above `parent`. -/
def checkPart (f : Forest S) (parent t : TaskId) : Except TopologyError Unit :=
  if t = parent then .error (.ownPart t)
  else
    match f.task t with
    | .error e => .error e
    | .ok task =>
      if task.hasParent then .error (.alreadyPart t task.parent)
      else if t = root ∨ f.isAncestor t parent then .error (.cycle parent t)
      else .ok ()

/-- Hang two tasks under a third. -/
def link (f : Forest S) (parent first second : TaskId) : Forest S :=
  { f with
    tasks := ((f.tasks.modify first fun t => { t with parent := parent }).modify second
      fun t => { t with parent := parent }).modify parent
      fun t => { t with parts := some (first, second) } }

omit [Scalar S] in
@[simp]
theorem size_link (f : Forest S) (parent first second : TaskId) :
    (f.link parent first second).size = f.size := by
  simp [link, size]

/-- Split `parent` into the listed parts, of which there have to be two. -/
def split (f : Forest S) (parent : TaskId) (parts : List TaskId) :
    Except TopologyError ((TaskId × TaskId) × Forest S) :=
  match parts with
  | [first, second] => do
    let whole ← f.task parent
    if whole.isSplit then throw (.alreadySplit parent)
    if first = second then throw (.notTwoParts 1)
    f.checkPart parent first
    f.checkPart parent second
    return ((first, second), f.link parent first second)
  | _ => .error (.notTwoParts parts.length)

/-- Take note that a task has run for `measured`. -/
def record (f : Forest S) (t : TaskId) (measured : S) (learn : Bool) :
    Except TopologyError (Forest S) :=
  (f.task t).map fun _ => { f with tasks := f.tasks.modify t (·.record measured learn) }

theorem record_eq_ok_iff {f g : Forest S} {t : TaskId} {measured : S} {learn : Bool} :
    f.record t measured learn = .ok g ↔
      t < f.size ∧ g = { f with tasks := f.tasks.modify t (·.record measured learn) } := by
  unfold record task task?
  by_cases h : t < f.tasks.size
  · simp [h, size, Except.map, eq_comm]
  · simp [h, size, Except.map]

/-- Take note that `part` was given up while it hung under `parent`. -/
def noteAborted (f : Forest S) (parent part : TaskId) : Forest S :=
  { f with tasks := f.tasks.modify parent fun t => { t with lastAborted := some part } }

omit [Scalar S] in
@[simp]
theorem size_noteAborted (f : Forest S) (parent part : TaskId) :
    (f.noteAborted parent part).size = f.size := by
  simp [noteAborted, size]

/-! ### The tree under the root -/

/-- Visit at most `bound` tasks, those on the stack and what hangs under them,
each before its parts. -/
def visit (f : Forest S) : (bound : Nat) → (stack : List TaskId) → List TaskId
  | 0, _ => []
  | _ + 1, [] => []
  | bound + 1, t :: stack =>
    match f.parts? t with
    | some (first, second) => t :: f.visit bound (first :: second :: stack)
    | none => t :: f.visit bound stack

/-- The tasks under the root, each before its parts and the first part with all
that hangs under it before the second. -/
def preorder (f : Forest S) : List TaskId :=
  match f.root? with
  | some top => f.visit f.size [top]
  | none => []

/-- Check that there are tasks and that all but the root hang under another. -/
def validate (f : Forest S) : Except TopologyError Unit :=
  if f.tasks.isEmpty then .error .noTasks
  else
    match (f.tasks.toList.drop 1).find? (!·.hasParent) with
    | some stray => .error (.disconnected stray.id)
    | none => .ok ()

end Forest

end TaskAllocation
