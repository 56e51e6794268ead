import TaskAllocation.CommandLine.Discovery
import TaskAllocation.CommandLine.Manual
import TaskAllocation.Config.Schema
import TaskAllocation.Draw.ChaCha
import TaskAllocation.Simulation.Output

/-!
# Sessions

A session is one call of the program.  What comes of it is worked out from the arguments
and from what the program can see of the machine; nothing is printed or written before.

## Main definitions

* `Simulation.run` — run an agent on the generator of the program.
* `SessionError` — why a command fails.
* `Outcome` — what comes of a session.
* `Host.load` — the configuration that is in force.
* `Host.carryOut` — carry out a command.
* `Host.session` — the outcome of a call with given arguments.
-/

namespace TaskAllocation

/-- Run an agent for a number of timesteps, on the generator of the program. -/
def Simulation.run (s : Simulation Float) (agent steps : Nat) (keepReports : Bool) :
    Except (BuildError Float) (AgentRun Float) :=
  s.runOn ChaCha.ofSeed agent steps keepReports

namespace CommandLine

/-- Why a command fails. -/
inductive SessionError where
  /-- A file cannot be read. -/
  | unreadable (path : String)
  /-- A file holds no configuration. -/
  | badConfig (path : String) (error : ConfigTextError ReadError)
  /-- A parameter of the configuration is out of range. -/
  | badParameter (fault : ConfigFault Float)
  /-- The home directory is not known. -/
  | noHome
  /-- Something that is no directory stands where one is needed. -/
  | noDirectory (path : String)
  deriving Repr, DecidableEq, Inhabited

/-- The wording of an error. -/
def SessionError.message : SessionError → String
  | .unreadable path => s!"Could not load configuration {Json.quote path}"
  | .badConfig path e => s!"Could not load configuration {Json.quote path}: {e.message}"
  | .badParameter fault => fault.message
  | .noHome => "Could not determine home directory"
  | .noDirectory path => s!"Failed to write config file: no directory {Json.quote path}"

/-- What comes of a session. -/
structure Outcome where
  /-- The code that the program ends with. -/
  exitCode : Nat
  /-- The text that is printed. -/
  printed : String
  /-- The lines for those who watch over the program. -/
  complaints : List String
  /-- The file that is written, with its text. -/
  written : Option (String × String)
  deriving Repr, DecidableEq, Inhabited

namespace Outcome

/-- A text is printed. -/
def ofText (text : String) : Outcome where
  exitCode := 0
  printed := text
  complaints := []
  written := none

/-- Lines are printed. -/
def ofLines (lines : List String) : Outcome := ofText (textOfLines lines)

/-- Nothing comes of it. -/
def failure (exitCode : Nat) (complaint : String) : Outcome where
  exitCode := exitCode
  printed := ""
  complaints := [complaint]
  written := none

end Outcome

namespace Host

/-! ### The configuration -/

/-- The configuration in a file. -/
def loadFile (h : Host) (path : String) : Except SessionError (Config Float) :=
  match (h.inspect path).text? with
  | none => .error (.unreadable path)
  | some text => (Config.ofToml text).mapError (.badConfig path)

/-- The configuration that is in force: that of the named file, or else of the first file
among the candidates, or else the standard one. -/
def load (h : Host) (path : Option String) : Except SessionError (Config Float) :=
  match path <|> h.activeConfig with
  | some path => h.loadFile path
  | none => .ok Config.standard

/-! ### Runs -/

/-- The lines of a run. -/
def runLines (o : RunOptions) (r : AgentRun Float) : List String :=
  r.reports.toList.map (fun report => Json.write report.toDocument)
    ++ if o.json then [Json.write r.toDocument] else r.lines

/-- Run every agent.  One that cannot be run does not keep the others from it. -/
def runAgents (s : Simulation Float) (o : RunOptions) : Outcome :=
  let runs := (List.range o.agents).map fun agent => s.run agent o.steps o.trace
  let complaints := runs.filterMap fun
    | .ok _ => none
    | .error e => some s!"Agent failed: {e.message}"
  { exitCode := if complaints.isEmpty then 0 else 1
    printed := textOfLines (runs.flatMap fun
      | .ok r => runLines o r
      | .error _ => [])
    complaints := complaints
    written := none }

/-- Run a simulation.  A seed that is asked for takes the place of the one configured. -/
def runSimulation (h : Host) (o : RunOptions) : Except SessionError Outcome := do
  let config ← h.load o.config
  let config := { config with seed := o.seed <|> config.seed }
  let s ← (Simulation.start config h.freshSeed).mapError .badParameter
  return runAgents s o

/-! ### Configurations -/

/-- Print the configuration that is in force. -/
def showConfig (h : Host) (path : Option String) : Except SessionError Outcome :=
  (h.load path).map fun config => Outcome.ofText config.toToml

/-- Write the standard configuration to the home directory, unless there is one. -/
def initConfig (h : Host) : Except SessionError Outcome :=
  match h.home with
  | none => .error .noHome
  | some home =>
    let path := userConfig home
    let outcome := Outcome.ofLines [s!"Configuration file: {Json.quote path}"]
    match h.inspect (userDirectory home), h.inspect path with
    | .file _, _ => .error (.noDirectory (userDirectory home))
    | _, .missing => .ok { outcome with written := some (path, Config.standard.toToml) }
    | _, _ => .ok outcome

/-! ### Sessions -/

/-- Carry out a command. -/
def carryOut (h : Host) : Command → Except SessionError Outcome
  | .run options => h.runSimulation options
  | .showConfig path => h.showConfig path
  | .showDiscovery => .ok (Outcome.ofLines h.discoveryLines)
  | .initConfig => h.initConfig

/-- What is printed where no command is carried out. -/
def explain (e : UsageError) : Outcome :=
  match e with
  | .help command => Outcome.ofLines (manual command)
  | .version => Outcome.ofLines [s!"{programName} {programVersion}"]
  | .noCommand => { Outcome.failure e.exitCode e.message with complaints := manual none }
  | _ => Outcome.failure e.exitCode s!"error: {e.message}"

/-- The outcome of a call with given arguments, the first of which is the name that the
program was called by. -/
def session (h : Host) (arguments : List String) : Outcome :=
  match Command.ofArguments arguments with
  | .error e => explain e
  | .ok command =>
    match h.carryOut command with
    | .ok outcome => outcome
    | .error e => Outcome.failure 1 s!"Error: {e.message}"

end Host

end CommandLine

end TaskAllocation
