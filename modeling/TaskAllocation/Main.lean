import TaskAllocation.CommandLine.Session

/-!
# The program

The program gathers what a session depends on, has its outcome worked out, and brings it
about.

## Main definitions

* `machine` — what can be seen of the machine.
* `main` — the program.
-/

namespace TaskAllocation.CommandLine

/-- The code of the machine for reading a directory as if it were a file. -/
def isDirectoryCode : UInt32 := 21

/-- What a path leads to. -/
def look (path : String) : IO PathStatus := do
  try
    return .file (some (← IO.FS.readFile path))
  catch
    | .noFileOrDirectory .. => return .missing
    | .inappropriateType _ code _ =>
      return if code = isDirectoryCode then .directory else .missing
    | _ => return .file none

/-- The files that a session may look at, with what they lead to. -/
def survey (h : Host) (arguments : List String) : IO (List (String × PathStatus)) := do
  let named := match Command.ofArguments arguments with
    | .ok (.run options) => options.config.toList
    | .ok (.showConfig path) => path.toList
    | _ => []
  let kept := (h.home.map userDirectory).toList
  (named ++ kept ++ h.candidates).mapM fun path => return (path, ← look path)

/-- What can be seen of the machine. -/
def machine (arguments : List String) : IO Host := do
  let directory ← IO.currentDir
  let home ← IO.getEnv "HOME"
  let profile ← IO.getEnv "USERPROFILE"
  let seed ← IO.rand 0 0x7fffffff
  let h : Host := {
    workingDirectory := toString directory
    home := home <|> profile
    freshSeed := UInt64.ofNat seed
    inspect := fun _ => .missing }
  let seen ← survey h arguments
  return { h with inspect := fun path => (seen.lookup path).getD .missing }

/-- Bring an outcome about. -/
def settleOutcome (h : Host) (o : Outcome) : IO UInt32 := do
  if let some (path, text) := o.written then
    if let some home := h.home then
      IO.FS.createDirAll (userDirectory home)
    IO.FS.writeFile path text
  for complaint in o.complaints do
    IO.eprintln complaint
  IO.print o.printed
  return UInt32.ofNat o.exitCode

end TaskAllocation.CommandLine

open TaskAllocation.CommandLine

/-- Carry out the command that is asked for. -/
def main (arguments : List String) : IO UInt32 := do
  let arguments := programName :: arguments
  let h ← machine arguments
  try
    settleOutcome h (h.session arguments)
  catch e =>
    IO.eprintln s!"Error: {e}"
    return 1
