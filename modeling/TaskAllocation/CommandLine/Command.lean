/-!
# Commands

What the program can be asked for, by which options, and why it may refuse.

## Main definitions

* `CommandName`, `Command` — the commands, without and with what they are asked for.
* `UsageError` — why nothing is carried out.
* `OptionName`, `CommandName.options` — the options of a command.
-/

namespace TaskAllocation.CommandLine

/-! ### Commands -/

/-- The names of the commands. -/
inductive CommandName where
  /-- Run a simulation. -/
  | run
  /-- Print the configuration that is in force. -/
  | showConfig
  /-- Print where a configuration is looked for. -/
  | showDiscovery
  /-- Write the standard configuration to the home directory. -/
  | initConfig
  deriving Repr, DecidableEq, Inhabited

/-- All commands. -/
def CommandName.all : List CommandName := [.run, .showConfig, .showDiscovery, .initConfig]

/-- How a command is written. -/
def CommandName.text : CommandName → String
  | .run => "run"
  | .showConfig => "show-config"
  | .showDiscovery => "show-discovery"
  | .initConfig => "init-config"

/-- The command that a text stands for. -/
def CommandName.ofText? (text : String) : Option CommandName :=
  CommandName.all.find? fun c => c.text == text

/-- What a run is asked for. -/
structure RunOptions where
  /-- The file that holds the configuration, if one is named. -/
  config : Option String
  /-- The timesteps of every agent. -/
  steps : Nat
  /-- The number of agents. -/
  agents : Nat
  /-- The seed that takes the place of the one configured. -/
  seed : Option UInt64
  /-- Whether runs are printed as JSON. -/
  json : Bool
  /-- Whether the report of every timestep is printed. -/
  trace : Bool
  deriving Repr, DecidableEq, Inhabited

/-- What can be asked for. -/
inductive Command where
  /-- Run a simulation. -/
  | run (options : RunOptions)
  /-- Print the configuration that is in force, or the one in a given file. -/
  | showConfig (config : Option String)
  /-- Print where a configuration is looked for. -/
  | showDiscovery
  /-- Write the standard configuration to the home directory. -/
  | initConfig
  deriving Repr, DecidableEq, Inhabited

/-- Why nothing is carried out. -/
inductive UsageError where
  /-- No command is named. -/
  | noCommand
  /-- The manual is asked for, of one command or as a whole. -/
  | help (command : Option CommandName)
  /-- The version is asked for. -/
  | version
  /-- There is no such command. -/
  | unknownCommand (word : String)
  /-- An argument that the command does not take. -/
  | unknownArgument (argument : String)
  /-- An option that takes a value has none, or an empty one that has to name a file. -/
  | noValue (option : String)
  /-- A value that is no number, or too large a one. -/
  | badNumber (option value : String)
  /-- An option is given twice. -/
  | repeated (option : String)
  /-- An option that takes no value has one. -/
  | needlessValue (option : String)
  /-- A run of no agents. -/
  | noAgents
  deriving Repr, DecidableEq, Inhabited

/-- The wording of an error. -/
def UsageError.message : UsageError → String
  | .noCommand => "a command is required"
  | .help _ => "help"
  | .version => "version"
  | .unknownCommand word => s!"unrecognized subcommand '{word}'"
  | .unknownArgument argument => s!"unexpected argument '{argument}' found"
  | .noValue name => s!"a value is required for '{name}' but none was supplied"
  | .badNumber name value => s!"invalid value '{value}' for '{name}'"
  | .repeated name => s!"the argument '{name}' cannot be used multiple times"
  | .needlessValue name => s!"unexpected value for '{name}' found; no more were expected"
  | .noAgents => "At least one agent is required"

/-- The code that the program ends with: none where it was asked for information, `1` for
a command that makes no sense, `2` for one that cannot be read. -/
def UsageError.exitCode : UsageError → Nat
  | .help _ => 0
  | .version => 0
  | .noAgents => 1
  | _ => 2

/-! ### Options -/

/-- The options that take a value. -/
inductive ValueOption where
  /-- The file that holds the configuration. -/
  | config
  /-- The timesteps of every agent. -/
  | steps
  /-- The number of agents. -/
  | agents
  /-- The seed. -/
  | seed
  deriving Repr, DecidableEq, Inhabited

/-- The options that take no value. -/
inductive Flag where
  /-- Print runs as JSON. -/
  | json
  /-- Print the report of every timestep. -/
  | trace
  /-- Print the manual. -/
  | help
  deriving Repr, DecidableEq, Inhabited

/-- The options. -/
inductive OptionName where
  /-- One that takes a value. -/
  | value (o : ValueOption)
  /-- One that takes none. -/
  | flag (f : Flag)
  deriving Repr, DecidableEq, Inhabited

/-- The long name of an option that takes a value. -/
def ValueOption.long : ValueOption → String
  | .config => "config"
  | .steps => "steps"
  | .agents => "agents"
  | .seed => "seed"

/-- The long name of a flag. -/
def Flag.long : Flag → String
  | .json => "json"
  | .trace => "trace"
  | .help => "help"

/-- The long name of an option. -/
def OptionName.long : OptionName → String
  | .value o => o.long
  | .flag f => f.long

/-- The letter of an option, if it has one. -/
def OptionName.letter? : OptionName → Option Char
  | .value .config => some 'c'
  | .value .steps => some 's'
  | .value .agents => some 'a'
  | .flag .help => some 'h'
  | _ => none

/-- The options of a command, as its manual lists them. -/
def CommandName.options : CommandName → List OptionName
  | .run => [.value .config, .value .steps, .value .agents, .value .seed, .flag .json,
      .flag .trace, .flag .help]
  | .showConfig => [.value .config, .flag .help]
  | .showDiscovery => [.flag .help]
  | .initConfig => [.flag .help]

/-- The option of a command with a given long name. -/
def CommandName.option? (c : CommandName) (long : String) : Option OptionName :=
  c.options.find? fun o => o.long == long

/-- The option of a command with a given letter. -/
def CommandName.letter? (c : CommandName) (letter : Char) : Option OptionName :=
  c.options.find? fun o => o.letter? == some letter

end TaskAllocation.CommandLine
