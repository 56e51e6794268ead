import TaskAllocation.Allocation
import TaskAllocation.Mechanism

/-!
# The executive

The executive runs tasks one after another.  In every timestep it chooses a task if
none is running, draws whether the task is given up, carries it on by one timestep
if not, and reports.  A task that ends, either way, is remembered as the last one.

## Main definitions

* `Phase` — where the executive is in its cycle.
* `Executive` — decomposition, policies, mechanisms and the running task.
* `Executive.timestep` — run one timestep.
* `Executive.abortCurrent` — give up the running task from outside.
* `Executive.nextTask` — choose a task without running it.
* `Report` — what a timestep shows.
-/

namespace TaskAllocation

/-- Where the executive is in its cycle. -/
inductive Phase where
  /-- Nothing has run yet. -/
  | idle
  /-- A task is being chosen. -/
  | allocating
  /-- The task is running. -/
  | executing (task : TaskId)
  /-- The task has run to its end. -/
  | completed (task : TaskId)
  /-- The task was given up. -/
  | aborted (task : TaskId)
  deriving Repr, DecidableEq, Inhabited

/-- What a timestep shows. -/
structure Report (S : Type) where
  /-- The number of the timestep, from one. -/
  step : Nat
  /-- The task that the timestep was spent on. -/
  task : TaskId
  /-- Its name. -/
  taskName : String
  /-- Where the executive is after the timestep. -/
  phase : Phase
  /-- The timesteps that the task has run for. -/
  elapsed : Nat
  /-- The head of the block with the focus. -/
  focusRoot : Option TaskId
  /-- The probability with which the task was given up. -/
  abortProb : S
  /-- The probability of the whole task used last in the block with the focus. -/
  wholeProb : Option S
  /-- The probabilities of keeping the focus used last. -/
  stayProbs : Option (StayProbs S)
  deriving Repr, Inhabited, DecidableEq

/-- Why an executive cannot be set up. -/
inductive ExecutiveError where
  /-- There are not as many mechanisms as tasks. -/
  | mechanismCount (count tasks : Nat)
  /-- The tasks do not form one tree. -/
  | topology (error : TopologyError)
  deriving Repr, DecidableEq, Inhabited

/-- The wording of an error. -/
def ExecutiveError.message : ExecutiveError → String
  | .mechanismCount count tasks => s!"{count} mechanisms given for {tasks} tasks"
  | .topology error => error.message

/-- Tasks, policies and mechanisms, and the task that is running. -/
structure Executive (S R : Type) (M : Type := Mechanism) where
  /-- The tasks and their blocks. -/
  decomposition : Decomposition S
  /-- How the next task is chosen. -/
  allocation : Allocation S
  /-- How a running task is given up. -/
  abortCurve : AbortCurve S
  /-- Whether completed tasks change their estimates. -/
  learns : Bool
  /-- Where draws come from. -/
  source : R
  /-- What carries out the tasks, in the order of the tasks. -/
  mechanisms : Array M
  /-- Where the cycle is. -/
  phase : Phase
  /-- The running task. -/
  current : Option TaskId
  /-- The task that ended last. -/
  last : Option TaskId
  /-- The timesteps that the running task, or else the last one, has run for. -/
  elapsed : Nat
  /-- The timesteps begun so far. -/
  step : Nat
  /-- The probability of giving up that was used last. -/
  abortProb : S
  deriving Repr, Inhabited

namespace Executive

variable {S R M : Type} [Scalar S]

/-- An executive before its first timestep.  The tasks have to form one tree, and
every task needs its mechanism. -/
def start (decomposition : Decomposition S) (allocation : Allocation S)
    (abortCurve : AbortCurve S) (learns : Bool) (source : R) (mechanisms : Array M) :
    Except ExecutiveError (Executive S R M) :=
  match decomposition.validate with
  | .error e => .error (.topology e)
  | .ok () =>
    if mechanisms.size = decomposition.forest.size then
      .ok {
        decomposition := decomposition
        allocation := allocation
        abortCurve := abortCurve
        learns := learns
        source := source
        mechanisms := mechanisms
        phase := .idle
        current := none
        last := none
        elapsed := 0
        step := 0
        abortProb := 0.0 }
    else .error (.mechanismCount mechanisms.size decomposition.forest.size)

/-! ### Ending a task -/

/-- End task `t`, completed or given up.  Its time is recorded, and folded into the
estimate only if it was completed. -/
def finish (e : Executive S R M) (t : TaskId) (givenUp : Bool) : Executive S R M :=
  let d := e.decomposition
  let d := match d.record t (Scalar.ofNat e.elapsed) (e.learns && !givenUp) with
    | .ok recorded => recorded
    | .error _ => d
  { e with
    decomposition := if givenUp then d.noteAborted t else d
    phase := if givenUp then .aborted t else .completed t
    current := none
    last := some t }

/-- Give up the running task, if there is one. -/
def abortCurrent (e : Executive S R M) : Option TaskId × Executive S R M :=
  match e.phase with
  | .executing t => (some t, e.finish t true)
  | _ => (none, e)

/-! ### Carrying on a task -/

/-- Let the mechanism of task `t` do one timestep, and end the task if it is done. -/
def carryOn [Performer M] (e : Executive S R M) (t : TaskId) : Executive S R M :=
  match e.mechanisms[t]? with
  | none => e
  | some m =>
    let m := Performer.execute m
    let e := { e with
      mechanisms := e.mechanisms.setIfInBounds t m
      elapsed := e.elapsed + 1 }
    if Performer.isFinished m then e.finish t false else e

/-- The report of a timestep spent on task `t`. -/
def report (e : Executive S R M) (t : TaskId) : Report S :=
  let focused := e.decomposition.focused?
  { step := e.step
    task := t
    taskName := ((e.decomposition.forest.task? t).map (·.name)).getD ""
    phase := e.phase
    elapsed := e.elapsed
    focusRoot := focused.map (·.root)
    abortProb := e.abortProb
    wholeProb := focused.bind (·.lastWholeProb)
    stayProbs := e.decomposition.lastStay }

section Draws

variable [UnitSource R S]

/-- Draw whether the running task `t` is given up; carry it on if not. -/
def work [Performer M] (e : Executive S R M) (t : TaskId) : Executive S R M :=
  let prob := e.abortCurve.prob (Scalar.ofNat e.elapsed) (e.decomposition.forest.estimate t)
  let (draw, source) := (UnitSource.uniform e.source : S × R)
  let e := { e with abortProb := prob, source := source }
  if draw < prob then e.finish t true else e.carryOn t

variable [IndexSource R]

/-! ### Choosing a task -/

/-- Choose the task after `last`, or the first task if there is none. -/
def nextTask (e : Executive S R M) (last : Option TaskId) : TaskId × Executive S R M :=
  let (t, d, source) := match last with
    | none => e.allocation.first e.decomposition e.source
    | some t => e.allocation.next e.decomposition t e.source
  (t, { e with decomposition := d, source := source })

variable [Performer M]

/-- Choose the next task and get it ready to run. -/
def allocate (e : Executive S R M) : TaskId × Executive S R M :=
  let (t, e) := { e with phase := .allocating }.nextTask e.last
  (t, { e with
    mechanisms := e.mechanisms.modify t Performer.reset
    elapsed := 0
    current := some t
    phase := .executing t })

/-- The running task, chosen now if none is running. -/
def engage (e : Executive S R M) : TaskId × Executive S R M :=
  match e.phase with
  | .executing t => (t, e)
  | _ => e.allocate

/-! ### Timesteps -/

/-- Run one timestep. -/
def timestep (e : Executive S R M) : Report S × Executive S R M :=
  let (t, e) := { e with step := e.step + 1 }.engage
  let e := e.work t
  (e.report t, e)

/-- Run timesteps, collecting their reports behind those given. -/
def timestepsFrom : (count : Nat) → Array (Report S) → Executive S R M →
    Array (Report S) × Executive S R M
  | 0, reports, e => (reports, e)
  | count + 1, reports, e =>
    let (report, e) := e.timestep
    timestepsFrom count (reports.push report) e

/-- Run a number of timesteps. -/
def timesteps (e : Executive S R M) (count : Nat) : Array (Report S) × Executive S R M :=
  timestepsFrom count #[] e

end Draws

end Executive

end TaskAllocation
