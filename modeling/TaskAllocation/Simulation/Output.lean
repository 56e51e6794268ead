import TaskAllocation.Columns
import TaskAllocation.Json.Writer
import TaskAllocation.Simulation

/-!
# What a simulation prints

Reports and runs are printed as JSON, one on a line, or a run as a small table.

## Main definitions

* `Report.toDocument`, `AgentRun.toDocument` — the documents that are printed.
* `AgentRun.lines` — a run as a small table.
-/

namespace TaskAllocation

open Document

/-- The document of a phase: its name, and the task that it is about. -/
def Phase.toDocument : Phase → Document
  | .idle => .table [("state", .text "idle")]
  | .allocating => .table [("state", .text "allocating")]
  | .executing t => .table [("state", .text "executing"), ("task", ofNat t)]
  | .completed t => .table [("state", .text "completed"), ("task", ofNat t)]
  | .aborted t => .table [("state", .text "aborted"), ("task", ofNat t)]

/-- The document of the probabilities of keeping the focus. -/
def StayProbs.toDocument (p : StayProbs Float) : Document :=
  .table [("up", .number p.up), ("down", .number p.down)]

/-- The document of a report. -/
def Report.toDocument (r : Report Float) : Document :=
  .table [
    ("step", ofNat r.step),
    ("task", ofNat r.task),
    ("task_name", .text r.taskName),
    ("state", r.phase.toDocument),
    ("elapsed", ofNat r.elapsed),
    ("active_tab_root", ofOption ofNat r.focusRoot),
    ("abort_prob", .number r.abortProb),
    ("partition_prob", ofOption .number r.wholeProb),
    ("switch_probs", ofOption StayProbs.toDocument r.stayProbs)]

/-- The document of a summary. -/
def Summary.toDocument (s : Summary Float) : Document :=
  .table [
    ("completed", ofNat s.completed),
    ("aborted", ofNat s.aborted),
    ("final_estimate", .number s.finalEstimate)]

/-- The document of a run, without its reports. -/
def AgentRun.toDocument (r : AgentRun Float) : Document :=
  .table [
    ("agent", ofNat r.agent),
    ("seed", ofNat r.seed.toNat),
    ("steps", ofNat r.steps),
    ("tasks", .table (r.tasks.map fun (name, s) => (name, s.toDocument)))]

/-! ### Tables -/

/-- The line of a task. -/
def Summary.line (name : String) (s : Summary Float) : String :=
  let completed := padStart 5 (toString s.completed)
  let aborted := padStart 5 (toString s.aborted)
  let estimate := padStart 8 (fixedPlaces 2 s.finalEstimate)
  s!"  {padEnd 16 name} completed {completed}  aborted {aborted}  estimate {estimate}"

/-- The lines of a run: a heading, and one for every task. -/
def AgentRun.lines (r : AgentRun Float) : List String :=
  s!"Agent {r.agent} (seed {r.seed}): {r.steps} steps" ::
    r.tasks.map fun (name, s) => s.line name

end TaskAllocation
