import TaskAllocation.Columns
import TaskAllocation.CommandLine.Arguments

/-!
# The manual

What is printed when help is asked for: what the program or a command does, how it is
called, and what it takes.

## Main definitions

* `CommandName.about` — what a command does.
* `manual` — the manual of the program, or of one command.
-/

namespace TaskAllocation.CommandLine

/-- The name of the program. -/
def programName : String := "tabwalk"

/-- The version of the program. -/
def programVersion : String := "0.1.0"

/-- What the program does. -/
def programAbout : String :=
  "Stochastic hierarchical task allocation over bifurcating task graphs"

/-- What a command does. -/
def CommandName.about : CommandName → String
  | .run => "Simulate agents running the allocation engine"
  | .showConfig => "Print the effective configuration as TOML"
  | .showDiscovery => "Show configuration discovery information"
  | .initConfig => "Write the default configuration to ~/.tabwalk/config.toml"

/-- What an option does. -/
def OptionName.about : OptionName → String
  | .value .config => "Configuration file path"
  | .value .steps => s!"Timesteps to simulate per agent [default: {standardSteps}]"
  | .value .agents => s!"Number of independent agents [default: {standardAgents}]"
  | .value .seed => "Base RNG seed, overriding the configuration"
  | .flag .json => "Print summaries as JSON lines"
  | .flag .trace => "Print every timestep report as a JSON line"
  | .flag .help => "Print help"

/-- How an option is written. -/
def OptionName.form (o : OptionName) : String :=
  let letter := match o.letter? with
    | some c => String.ofList ['-', c, ',', ' ']
    | none => "    "
  let value := match o with
    | .value v => " <" ++ v.long.map Char.toUpper ++ ">"
    | .flag _ => ""
  letter ++ "--" ++ o.long ++ value

/-- The lines of the manual of a command. -/
def CommandName.manual (c : CommandName) : List String :=
  let call := if c.options.length = 1 then "" else " [OPTIONS]"
  [c.about, "", s!"Usage: {programName} {c.text}{call}", "", "Options:"]
    ++ listing (c.options.map fun o => (o.form, o.about))

/-- The lines of the manual of the program, or of one command. -/
def manual : Option CommandName → List String
  | some c => c.manual
  | none =>
    [programAbout, "", s!"Usage: {programName} [COMMAND]", "", "Commands:"]
      ++ listing (CommandName.all.map (fun c => (c.text, c.about))
        ++ [(helpWord, "Print this message or the help of the given subcommand(s)")])
      ++ ["", "Options:"]
      ++ listing [("-h, --help", "Print help"), ("-V, --version", "Print version")]

end TaskAllocation.CommandLine
