import TaskAllocation.CommandLine.Command
import TaskAllocation.Document.Scanner

/-!
# Arguments

The command line names a command and then its options, some of which take a value.  A
value may stand in the same argument as its option or in the next one; in the second
case it is looked at only when the next option is met, or at the end.

## Main definitions

* `Word` — an argument by its shape.
* `Settings` — what the options of a command have been set to.
* `Reading` — what has been gathered from the arguments of a command so far.
* `Command.ofArguments` — the command that a list of arguments asks for.
-/

namespace TaskAllocation.CommandLine

/-! ### Arguments by their shape -/

/-- An argument by its shape. -/
inductive Word where
  /-- Two dashes: no options follow. -/
  | separator
  /-- A long name behind two dashes, with a value behind an equals sign. -/
  | long (name : String) (value : Option String)
  /-- Letters behind one dash. -/
  | letters (first : Char) (rest : List Char)
  /-- Anything else, a single dash too. -/
  | plain
  deriving Repr, DecidableEq, Inhabited

/-- The shape of an argument. -/
def Word.ofText (argument : String) : Word :=
  match argument.toList with
  | ['-', '-'] => .separator
  | '-' :: '-' :: rest =>
    let name := String.ofList (rest.takeWhile (· ≠ '='))
    match rest.dropWhile (· ≠ '=') with
    | [] => .long name none
    | _ :: value => .long name (some (String.ofList value))
  | '-' :: first :: rest => .letters first rest
  | _ => .plain

/-- The value that stands right behind a letter, with or without an equals sign. -/
def attachedValue? : List Char → Option String
  | [] => none
  | '=' :: rest => some (String.ofList rest)
  | rest => some (String.ofList rest)

/-! ### Values -/

/-- What the options of a command have been set to. -/
structure Settings where
  /-- The file that holds the configuration. -/
  config : Option String
  /-- The timesteps of every agent. -/
  steps : Option Nat
  /-- The number of agents. -/
  agents : Option Nat
  /-- The seed. -/
  seed : Option Nat
  /-- Whether runs are printed as JSON. -/
  json : Bool
  /-- Whether the report of every timestep is printed. -/
  trace : Bool
  deriving Repr, DecidableEq, Inhabited

/-- Nothing is set. -/
def Settings.none : Settings where
  config := Option.none
  steps := Option.none
  agents := Option.none
  seed := Option.none
  json := false
  trace := false

/-- The number in a text: decimal digits, perhaps behind a plus sign, that stand for a
word of 64 bits. -/
def wordOfText? (text : String) : Option Nat :=
  let digits := match text.toList with
    | '+' :: rest => rest
    | rest => rest
  match digits with
  | [] => none
  | _ =>
    if digits.all Char.isDigit then
      let n := numberOfDigits 10 digits
      if n < UInt64.size then some n else none
    else none

/-- Read the value of an option that is a number, unless it has one. -/
def setNumber (o : ValueOption) (old : Option Nat) (value : String) :
    Except UsageError Nat :=
  match old, wordOfText? value with
  | some _, _ => .error (.repeated o.long)
  | none, some n => .ok n
  | none, none => .error (.badNumber o.long value)

/-- Set an option, unless it has been set. -/
def Settings.set (s : Settings) (o : ValueOption) (value : String) :
    Except UsageError Settings :=
  match o with
  | .config =>
    if s.config.isSome then .error (.repeated o.long)
    else if value.isEmpty then .error (.noValue o.long)
    else .ok { s with config := some value }
  | .steps => (setNumber o s.steps value).map fun n => { s with steps := some n }
  | .agents => (setNumber o s.agents value).map fun n => { s with agents := some n }
  | .seed => (setNumber o s.seed value).map fun n => { s with seed := some n }

/-! ### Reading the arguments of a command -/

/-- What has been gathered from the arguments of a command. -/
structure Reading where
  /-- What the options have been set to. -/
  settings : Settings
  /-- The last option, with the value from the argument behind it, if it has not been
  looked at. -/
  pending : Option (ValueOption × Option String)
  /-- Whether two dashes have been met. -/
  closed : Bool
  deriving Repr, DecidableEq, Inhabited

namespace Reading

/-- Before the first argument. -/
def start : Reading where
  settings := Settings.none
  pending := none
  closed := false

/-- Look at the value of the last option. -/
def settle (r : Reading) : Except UsageError Reading :=
  match r.pending with
  | none => .ok r
  | some (o, none) => .error (.noValue o.long)
  | some (o, some value) =>
    (r.settings.set o value).map fun s => { r with settings := s, pending := none }

/-- Take an option that needs a value, which stands in the same argument or the next. -/
def option (r : Reading) (o : ValueOption) (attached : Option String) :
    Except UsageError Reading := do
  let r ← r.settle
  match attached with
  | none => return { r with pending := some (o, none) }
  | some value => return { r with settings := ← r.settings.set o value }

/-- Take a flag of a command. -/
def flag (r : Reading) (c : CommandName) (f : Flag) : Except UsageError Reading := do
  let r ← r.settle
  match f with
  | .help => .error (.help (some c))
  | .json =>
    if r.settings.json then .error (.repeated f.long)
    else return { r with settings := { r.settings with json := true } }
  | .trace =>
    if r.settings.trace then .error (.repeated f.long)
    else return { r with settings := { r.settings with trace := true } }

/-- Take an option by its long name. -/
def long (r : Reading) (c : CommandName) (name : String) (value : Option String) :
    Except UsageError Reading :=
  match c.option? name, value with
  | none, _ => .error (.unknownArgument ("--" ++ name))
  | some (.value o), _ => r.option o value
  | some (.flag f), some _ => .error (.needlessValue f.long)
  | some (.flag f), none => r.flag c f

/-- Take letters, of which the first that needs a value has the rest for it. -/
def letters (r : Reading) (c : CommandName) : List Char → Except UsageError Reading
  | [] => .ok r
  | letter :: rest =>
    match c.letter? letter with
    | none => .error (.unknownArgument (String.ofList ['-', letter]))
    | some (.value o) => r.option o (attachedValue? rest)
    | some (.flag f) => do (← r.flag c f).letters c rest

/-- Take an argument that is no option: it is the value of the option before it. -/
def plain (r : Reading) (argument : String) : Except UsageError Reading :=
  match r.pending with
  | some (o, none) => .ok { r with pending := some (o, some argument) }
  | _ => .error (.unknownArgument argument)

/-- Take the next argument. -/
def take (c : CommandName) (r : Reading) (argument : String) : Except UsageError Reading :=
  if r.closed then .error (.unknownArgument argument)
  else
    match Word.ofText argument with
    | .separator => .ok { r with closed := true }
    | .long name value => r.long c name value
    | .letters first rest => r.letters c (first :: rest)
    | .plain => r.plain argument

end Reading

/-! ### The command -/

/-- The timesteps of every agent if they are not given. -/
def standardSteps : Nat := 1000

/-- The number of agents if it is not given. -/
def standardAgents : Nat := 1

/-- What a run is asked for, given what its options have been set to. -/
def RunOptions.ofSettings (s : Settings) : RunOptions where
  config := s.config
  steps := s.steps.getD standardSteps
  agents := s.agents.getD standardAgents
  seed := s.seed.map UInt64.ofNat
  json := s.json
  trace := s.trace

/-- A command, given what its options have been set to.  A run needs an agent. -/
def CommandName.withSettings (c : CommandName) (s : Settings) : Except UsageError Command :=
  match c with
  | .run =>
    let options := RunOptions.ofSettings s
    if options.agents = 0 then .error .noAgents else .ok (.run options)
  | .showConfig => .ok (.showConfig s.config)
  | .showDiscovery => .ok .showDiscovery
  | .initConfig => .ok .initConfig

/-- Read the arguments of a command. -/
def CommandName.withArguments (c : CommandName) (arguments : List String) :
    Except UsageError Command := do
  let r ← arguments.foldlM (Reading.take c) Reading.start
  c.withSettings (← r.settle).settings

/-- How the manual is asked for. -/
def helpWord : String := "help"

/-- The manual that is asked for: as a whole, or of one command. -/
def helpOn : List String → UsageError
  | [] => .help none
  | word :: rest =>
    match CommandName.ofText? word, rest with
    | some c, [] => .help (some c)
    | some _, next :: _ => .unknownCommand next
    | none, next :: _ => .unknownCommand (if word == helpWord then next else word)
    | none, [] => if word == helpWord then .help none else .unknownCommand word

/-- The error in arguments that have two dashes where a command should stand. -/
def behindSeparator : List String → UsageError
  | [] => .noCommand
  | word :: _ =>
    if (CommandName.ofText? word).isSome || word == helpWord then .unknownArgument word
    else .unknownCommand word

/-- The error in arguments that start with a long option in place of a command. -/
def leadingLong (name : String) (value : Option String) : UsageError :=
  if name == "help" then if value.isSome then .needlessValue name else .help none
  else if name == "version" then if value.isSome then .needlessValue name else .version
  else .unknownArgument ("--" ++ name)

/-- The error in arguments that start with a letter in place of a command. -/
def leadingLetter (letter : Char) : UsageError :=
  if letter = 'h' then .help none
  else if letter = 'V' then .version
  else .unknownArgument (String.ofList ['-', letter])

/-- The command that a list of arguments asks for; the first is the name that the program
was called by. -/
def Command.ofArguments : List String → Except UsageError Command
  | [] => .error .noCommand
  | [_] => .error .noCommand
  | _ :: word :: rest =>
    match Word.ofText word with
    | .separator => .error (behindSeparator rest)
    | .long name value => .error (leadingLong name value)
    | .letters first _ => .error (leadingLetter first)
    | .plain =>
      if word == helpWord then .error (helpOn rest)
      else
        match CommandName.ofText? word with
        | some c => c.withArguments rest
        | none => .error (.unknownCommand word)

end TaskAllocation.CommandLine
