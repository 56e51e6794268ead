import TaskAllocation.Config.Validation

/-!
# Building what a configuration describes

## Main definitions

* `Config.decomposition` — the tasks of a configuration with their blocks.
* `Config.executive` — an executive that is ready to run.
* `BuildError` — why there is none.
-/

namespace TaskAllocation

/-- Why an executive cannot be built. -/
inductive BuildError (S : Type) where
  /-- A parameter is out of range. -/
  | fault (fault : ConfigFault S)
  /-- The tasks do not fit together. -/
  | topology (error : TopologyError)
  /-- The executive cannot be set up. -/
  | executive (error : ExecutiveError)
  deriving Repr, DecidableEq, Inhabited

/-- The wording of an error. -/
def BuildError.message : BuildError Float → String
  | .fault f => f.message
  | .topology e => s!"Invalid task topology: {e.message}"
  | .executive e => e.message

namespace Config

variable {S R M : Type} [Scalar S]

/-- What is declared about a task. -/
def spec (c : Config S) (t : TaskEntry S) : TaskSpec S where
  name := t.name
  alpha := t.alpha.getD c.alpha
  initial := t.initial

/-- The number of the task with a given name, or the error that there is none. -/
def idOf (d : Decomposition S) (name : String) : Except TopologyError TaskId :=
  match d.forest.idOf? name with
  | some id => .ok id
  | none => .error (.unknownName name)

/-- Declare a task. -/
def declare (c : Config S) (d : Decomposition S) (t : TaskEntry S) :
    Except TopologyError (Decomposition S) :=
  (d.add (c.spec t)).map (·.2)

/-- Split a task into its parts, unless it is a leaf. -/
def splitEntry (d : Decomposition S) (t : TaskEntry S) :
    Except TopologyError (Decomposition S) :=
  if t.parts.isEmpty then .ok d
  else do
    let parent ← idOf d t.name
    let parts ← t.parts.mapM (idOf d)
    return (← d.split parent parts).2

/-- The tasks of a configuration with their blocks: all tasks are declared, then split,
and in the end they have to form one tree. -/
def decomposition (c : Config S) : Except TopologyError (Decomposition S) :=
  match c.tasks with
  | [] => .error .noTasks
  | root :: rest => do
    let d ← rest.foldlM c.declare (Decomposition.single (c.spec root) c.stay)
    let d ← c.tasks.foldlM splitEntry d
    d.validate
    return d

/-- An executive for a configuration, with the given mechanisms. -/
def executive [IndexSource R] (c : Config S) (source : R) (mechanisms : Array M) :
    Except (BuildError S) (Executive S R M) :=
  match c.validate with
  | .error fault => .error (.fault fault)
  | .ok () =>
    match c.decomposition with
    | .error e => .error (.topology e)
    | .ok d =>
      let (d, source) := d.initFocus c.focus source
      let allocation : Allocation S := { policy := c.allocation, partitioning := c.partitioning }
      (Executive.start d allocation c.abort c.learns source mechanisms).mapError .executive

end Config

end TaskAllocation
