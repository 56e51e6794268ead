import TaskAllocation.Json.Writer

/-!
# Where a configuration is looked for

A configuration that no file is named for is looked for in the working directory, then in
the directory of the program within the home directory.  The first of these that is a
file is used.

## Main definitions

* `joinPath` — a path with another step.
* `userDirectory`, `userConfig` — where the configuration of a user is kept.
* `PathStatus`, `Host` — what the program can see of the machine that it runs on.
* `Host.candidates`, `Host.activeConfig` — the files that are looked at, and the one used.
* `Host.discoveryLines` — an account of this.
-/

namespace TaskAllocation.CommandLine

/-! ### Paths -/

/-- A path with another step.  A slash is put between them unless one is there or there is
nothing before it. -/
def joinPath (path step : String) : String :=
  if path.isEmpty || path.endsWith "/" then path ++ step else path ++ "/" ++ step

/-- The configuration that is looked for in the working directory. -/
def localConfigName : String := "tabwalk.toml"

/-- The directory of the program within a home directory. -/
def userDirectoryName : String := ".tabwalk"

/-- The configuration within the directory of the program. -/
def userConfigName : String := "config.toml"

/-- The directory of the program, given a home directory. -/
def userDirectory (home : String) : String := joinPath home userDirectoryName

/-- The configuration of a user, given a home directory. -/
def userConfig (home : String) : String := joinPath (userDirectory home) userConfigName

/-! ### The machine -/

/-- What a path leads to. -/
inductive PathStatus where
  /-- Nothing is there. -/
  | missing
  /-- Something is there that is not a file. -/
  | directory
  /-- A file, with its text if it can be read. -/
  | file (text : Option String)
  deriving Repr, DecidableEq, Inhabited

/-- Whether a path leads to a file. -/
def PathStatus.isFile : PathStatus → Bool
  | .file _ => true
  | _ => false

/-- The text that a path leads to, if it can be read. -/
def PathStatus.text? : PathStatus → Option String
  | .file text => text
  | _ => none

/-- The wording of an account. -/
def PathStatus.mark : PathStatus → String
  | .missing => "✗ NOT FOUND"
  | .directory => "✗ NOT A FILE"
  | .file _ => "✓ EXISTS"

/-- What the program can see of the machine that it runs on. -/
structure Host where
  /-- The working directory. -/
  workingDirectory : String
  /-- The home directory of the user, if it is known. -/
  home : Option String
  /-- The seed to use where none is laid down. -/
  freshSeed : UInt64
  /-- What a path leads to. -/
  inspect : String → PathStatus

namespace Host

/-- The files that a configuration is looked for in, the first one first. -/
def candidates (h : Host) : List String :=
  joinPath h.workingDirectory localConfigName :: (h.home.map userConfig).toList

/-- The file that the configuration is in, if there is one. -/
def activeConfig (h : Host) : Option String :=
  h.candidates.find? fun path => (h.inspect path).isFile

/-- The line of one of the files. -/
def candidateLine (h : Host) (path : String) (place : Nat) : String :=
  s!"  {place}. {Json.quote path} - {(h.inspect path).mark}"

/-- An account of where a configuration is looked for. -/
def discoveryLines (h : Host) : List String :=
  let active := match h.activeConfig with
    | some path => Json.quote path
    | none => "Built-in defaults"
  ["Configuration Discovery Hierarchy:", ""]
    ++ (h.candidates.zipIdx 1).map (fun (path, place) => h.candidateLine path place)
    ++ ["", s!"Active configuration: {active}"]

end Host

end TaskAllocation.CommandLine
