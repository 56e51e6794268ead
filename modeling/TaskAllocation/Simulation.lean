import TaskAllocation.Config.Build

/-!
# Simulations

A simulation runs agents that share a configuration and nothing else: each has its own
executive, mechanisms and generator, whose seed is that of the simulation plus the number
of the agent.  How a generator is made of a seed is left open: `seeded` is given wherever
an agent is run.

## Main definitions

* `Simulation.start` — a simulation of a configuration that passes its checks.
* `Simulation.agentSeed`, `Simulation.agentExecutive` — what an agent runs on.
* `Simulation.runOn` — run an agent.
* `AgentRun`, `Summary` — what comes of it.
-/

namespace TaskAllocation

/-- How often a task ended, and what it is estimated at in the end. -/
structure Summary (S : Type) where
  /-- How often it was completed. -/
  completed : Nat
  /-- How often it was given up. -/
  aborted : Nat
  /-- Its estimate in the end. -/
  finalEstimate : S
  deriving Repr, Inhabited, DecidableEq

/-- What comes of running an agent. -/
structure AgentRun (S : Type) where
  /-- The number of the agent. -/
  agent : Nat
  /-- The seed that it ran on. -/
  seed : UInt64
  /-- The timesteps that it ran for. -/
  steps : Nat
  /-- A summary of every task, in the order of their names. -/
  tasks : List (String × Summary S)
  /-- The reports of all timesteps, if they were to be kept. -/
  reports : Array (Report S)
  deriving Repr, Inhabited

/-- A configuration that has passed its checks, with a seed. -/
structure Simulation (S : Type) where
  /-- The configuration. -/
  config : Config S
  /-- The seed of agent `0`. -/
  baseSeed : UInt64
  deriving Repr, Inhabited

/-- The timesteps that a task takes if they are not laid down. -/
def defaultDuration : Nat := 10

namespace Simulation

variable {S R : Type} [Scalar S]

/-- A simulation of a configuration.  `fresh` is the seed if none is laid down. -/
def start (config : Config S) (fresh : UInt64) : Except (ConfigFault S) (Simulation S) :=
  config.validate.map fun _ => { config := config, baseSeed := config.seed.getD fresh }

/-- The seed of an agent. -/
def agentSeed (s : Simulation S) (agent : Nat) : UInt64 := s.baseSeed + UInt64.ofNat agent

/-- The mechanism of a task. -/
def mechanism (t : TaskEntry S) : Mechanism :=
  Mechanism.lasting ((t.duration.map UInt64.toNat).getD defaultDuration)

/-- The executive of an agent. -/
def agentExecutive [IndexSource R] (s : Simulation S) (seeded : UInt64 → R) (agent : Nat) :
    Except (BuildError S) (Executive S R) :=
  s.config.executive (seeded (s.agentSeed agent)) (s.config.tasks.map mechanism).toArray

/-! ### Summaries -/

/-- The summary of a task, given the reports of a run. -/
def summary (reports : Array (Report S)) (t : Task S) : Summary S where
  completed := reports.countP fun r => decide (r.phase = .completed t.id)
  aborted := reports.countP fun r => decide (r.phase = .aborted t.id)
  finalEstimate := t.estimate.value

/-- The summaries of all tasks, in the order of their names. -/
def summaries (d : Decomposition S) (reports : Array (Report S)) : List (String × Summary S) :=
  (d.forest.tasks.toList.map fun t => (t.name, summary reports t)).mergeSort
    fun a b => decide (a.1 ≤ b.1)

/-- Run an agent for a number of timesteps. -/
def runOn [IndexSource R] [UnitSource R S] (s : Simulation S) (seeded : UInt64 → R)
    (agent steps : Nat) (keepReports : Bool) : Except (BuildError S) (AgentRun S) :=
  (s.agentExecutive seeded agent).map fun e =>
    let (reports, e) := e.timesteps steps
    { agent := agent
      seed := s.agentSeed agent
      steps := steps
      tasks := summaries e.decomposition reports
      reports := if keepReports then reports else #[] }

end Simulation

end TaskAllocation
