import TaskAllocation.Toml.Quoted
import TaskAllocation.Toml.Scalar
import TaskAllocation.Toml.Table

/-!
# Reading TOML

The text is read line by line into entries and headers, and these are put together into
one table.  Lists and inline tables may go over several lines, and then there may be line
breaks and comments everywhere but within dotted names.

## Main definitions

* `Toml.dottedName` — a name or several with dots between them.
* `Toml.value` — a value.
* `Toml.Line`, `Toml.line?` — what one line says.
* `Toml.read` — a whole text.
-/

namespace TaskAllocation.Toml

open Scanner

/-- The greatest nesting of values, and the greatest number of names with dots between
them. -/
def depthLimit : Nat := 80

/-! ### Blanks and comments -/

/-- Skip blanks within a line. -/
def blanks : Scanner Unit := skipWhile isBlank

/-- Skip a comment, if one is next. -/
def comment : Scanner Unit := do
  if ← accept "#" then skipWhile isPlain

/-- Skip blanks, comments and line breaks. -/
def blankLines : Scanner Unit := do
  let _ ← collect do
    blanks
    comment
    let breaks ← lineBreak
    if breaks.isEmpty then return none else return some ()
  return ()

/-- Read the end of a line: nothing but blanks and a comment may precede it. -/
def lineEnd : Scanner Unit := do
  blanks
  comment
  let breaks ← lineBreak
  if breaks.isEmpty ∧ (← peek?).isSome then stuck

/-! ### Names -/

/-- Whether a character can stand in a name without quotation marks. -/
def isNameChar (c : Char) : Bool := c.isAlphanum || c = '_' || c = '-'

/-- Read a name. -/
def simpleName : Scanner String := do
  if ← accept "\"" then return String.ofList (← basic)
  else if ← accept "'" then return String.ofList (← literal)
  else
    let cs ← takeWhile isNameChar
    if cs.isEmpty then stuck else return String.ofList cs

/-- Read names with dots between them: those before the last dot, and the last one. -/
def dottedName : Scanner (List String × String) := do
  let first ← simpleName
  let others ← collect do
    blanks
    if ← accept "." then
      blanks
      return some (← simpleName)
    else return none
  if depthLimit ≤ others.length then fail .tooDeep
  else
    let names := first :: others
    return (names.dropLast, names.getLastD first)

/-! ### Values -/

/-- Read a name and the value that it is given.  `blank` skips what may stand around the
equality sign. -/
def entry (blank : Scanner Unit) (value : Scanner Document) : Scanner Entry := do
  let (path, name) ← dottedName
  blank
  expect "="
  blank
  return { path := path, name := name, value := ← value }

/-- Read a value, with at most `levels` lists and inline tables inside each other. -/
def value : (levels : Nat) → Scanner Document
  | 0 => do
    match ← quoted? with
    | some s => return .text s
    | none => word
  | levels + 1 => do
    if ← accept "[" then
      return .array (← separated (value levels) blankLines "]" true)
    else if ← accept "\x7b" then
      let entries ← separated (entry blankLines (value levels)) blankLines "\x7d" true
      match tableOfEntries entries with
      | .ok d => return d
      | .error e => fail e
    else
      match ← quoted? with
      | some s => return .text s
      | none => word

/-! ### Lines -/

/-- What a line says. -/
inductive Line where
  /-- It gives a name a value. -/
  | entry (e : Entry)
  /-- It opens a table. -/
  | header (path : List String) (name : String) (repeated : Bool)
  deriving Inhabited

/-- Read the next line that says something, if there is one. -/
def line? : Scanner (Option Line) := do
  blankLines
  if (← peek?).isNone then return none
  else if ← accept "[[" then
    blanks
    let (path, name) ← dottedName
    blanks
    expect "]]"
    lineEnd
    return some (.header path name true)
  else if ← accept "[" then
    blanks
    let (path, name) ← dottedName
    blanks
    expect "]"
    lineEnd
    return some (.header path name false)
  else
    let e ← entry blanks (value depthLimit)
    lineEnd
    return some (.entry e)

/-- The entries before the first header, and the sections. -/
def sections : List Line → List Entry × List Section
  | [] => ([], [])
  | .entry e :: rest =>
    let (entries, others) := sections rest
    (e :: entries, others)
  | .header path name repeated :: rest =>
    let (entries, others) := sections rest
    ([], { path := path, name := name, repeated := repeated, entries := entries } :: others)

/-- Read a whole text.  A byte order mark at its start is skipped. -/
def read (s : String) : Except ReadError (List (String × Document)) := do
  let lines ← Scanner.run (do
    let _ ← accept "\ufeff"
    collect line?) s
  let (entries, others) := sections lines
  assemble entries others

end TaskAllocation.Toml
