import TaskAllocation.Document

/-!
# Writing TOML

A table is written as its plain values, followed by one section for every table and for
every item of a list of tables in it, with a blank line between sections.  A list of
more than one item takes one line for each.

## Main definitions

* `Toml.numberFormat` — how numbers are laid out.
* `Toml.quote` — a text in the quotation marks that suit it.
* `Toml.writeValue` — a value behind an equality sign.
* `Toml.write` — a whole table.
-/

namespace TaskAllocation.Toml

/-- Numbers are written without an exponent, and whole ones with a zero behind the
point.  Of two shortest decimals that are equally near the one farther from zero is
written. -/
def numberFormat : NumberFormat where
  tie := .awayFromZero
  positional _ := true
  wholeMark := ".0"
  notANumber := "nan"
  infinity := "inf"

/-! ### Texts -/

/-- Whether a character cannot be written without an escape anywhere. -/
def isControl (c : Char) : Bool :=
  (c.toNat < 0x20 ∨ c.toNat = 0x7f) ∧ c ≠ '\t' ∧ c ≠ '\n'

/-- The greatest number of times that a character stands in a row, given how many times
it has just stood. -/
def longestRun (mark : Char) : (run : Nat) → List Char → Nat
  | run, [] => run
  | run, c :: rest =>
    if c = mark then longestRun mark (run + 1) rest else max run (longestRun mark 0 rest)

/-- The last four hexadecimal digits of a number, in capitals. -/
def fourDigits (n : Nat) : List Char :=
  [n / 4096 % 16, n / 256 % 16, n / 16 % 16, n % 16].map fun d => (Nat.digitChar d).toUpper

/-- How a character other than a quotation mark is written where escapes are read. -/
def escaped (multiline : Bool) (c : Char) : List Char :=
  if c = '\\' then ['\\', '\\']
  else if c = '\x08' then ['\\', 'b']
  else if c = '\t' then ['\\', 't']
  else if c = '\x0c' then ['\\', 'f']
  else if c = '\r' then ['\\', 'r']
  else if c = '\n' then if multiline then ['\n'] else ['\\', 'n']
  else if isControl c then ['\\', 'u'] ++ fourDigits c.toNat
  else [c]

/-- A text where escapes are read.  On one line every quotation mark is escaped; over
several lines only the third in a row, `run` of which have just been written. -/
def escapeAll (multiline : Bool) : (run : Nat) → List Char → List Char
  | _, [] => []
  | run, c :: rest =>
    if c = '"' then
      if multiline ∧ run < 2 then '"' :: escapeAll multiline (run + 1) rest
      else '\\' :: '"' :: escapeAll multiline 0 rest
    else escaped multiline c ++ escapeAll multiline 0 rest

/-- A text between double quotation marks. -/
def basicText (cs : List Char) : String := "\"" ++ String.ofList (escapeAll false 0 cs) ++ "\""

/-- A text between single quotation marks. -/
def literalText (cs : List Char) : String := "\x27" ++ String.ofList cs ++ "\x27"

/-- What opens a text over several lines: a line break that is left out if the text has
line breaks itself. -/
def opening (cs : List Char) : String := if cs.contains '\n' then "\n" else ""

/-- A text between three double quotation marks. -/
def basicBlockText (cs : List Char) : String :=
  "\"\"\"" ++ opening cs ++ String.ofList (escapeAll true 0 cs) ++ "\"\"\""

/-- A text between three single quotation marks. -/
def literalBlockText (cs : List Char) : String :=
  "\x27\x27\x27" ++ opening cs ++ String.ofList cs ++ "\x27\x27\x27"

/-- A text in the first kind of quotation marks in which it needs no escape, and with
escapes if there is none. -/
def quote (s : String) : String :=
  let cs := s.toList
  let plain := !cs.any isControl
  let backslash := cs.contains '\\'
  let multiline := cs.contains '\n'
  let doubles := longestRun '"' 0 cs
  let singles := longestRun '\x27' 0 cs
  if plain ∧ !backslash ∧ !multiline ∧ doubles = 0 then basicText cs
  else if plain ∧ !multiline ∧ singles = 0 then literalText cs
  else if plain ∧ !backslash ∧ doubles ≤ 2 then basicBlockText cs
  else if plain ∧ singles ≤ 2 then literalBlockText cs
  else if multiline then basicBlockText cs
  else basicText cs

/-! ### Names -/

/-- A name, between quotation marks if it needs them. -/
def writeName (name : String) : String :=
  if !name.isEmpty ∧ name.all fun c => c.isAlphanum ∨ c = '_' ∨ c = '-' then name
  else basicText name.toList

/-- Names with dots between them. -/
def writePath (path : List String) : String := ".".intercalate (path.map writeName)

/-! ### Values -/

mutual

/-- A value. -/
def writeValue : Document → String
  | .null => "\x7b\x7d"
  | .flag b => if b then "true" else "false"
  | .integer n => toString n
  | .number x => numberFormat.render x
  | .text s => quote s
  | .numeral s => s
  | .moment s => s
  | .array items =>
    match writeItems items with
    | [] => "[]"
    | [item] => "[" ++ item ++ "]"
    | many => "[\n" ++ String.join (many.map fun item => "    " ++ item ++ ",\n") ++ "]"
  | .table fields => "\x7b " ++ ", ".intercalate (writeFields fields) ++ " \x7d"

/-- The items of a list. -/
def writeItems : List Document → List String
  | [] => []
  | d :: rest => writeValue d :: writeItems rest

/-- The fields of a table on one line. -/
def writeFields : List (String × Document) → List String
  | [] => []
  | (name, d) :: rest => (writeName name ++ " = " ++ writeValue d) :: writeFields rest

end

/-! ### Sections -/

/-- Whether a value gets sections of its own. -/
def hasSections : Document → Bool
  | .table _ => true
  | .array items => !items.isEmpty && items.all Document.isTable
  | _ => false

/-- The lines of the fields that get no section of their own. -/
def writeLines (fields : List (String × Document)) : String :=
  String.join <| (fields.filter fun field => !hasSections field.2).map fun (name, d) =>
    writeName name ++ " = " ++ writeValue d ++ "\n"

mutual

/-- The sections of the fields of the table at a path. -/
def writeSections (path : List String) : List (String × Document) → List String
  | [] => []
  | (name, d) :: rest => writeSection (path ++ [name]) d ++ writeSections path rest

/-- The sections of the value at a path. -/
def writeSection (path : List String) : Document → List String
  | .table fields =>
    ("[" ++ writePath path ++ "]\n" ++ writeLines fields) :: writeSections path fields
  | .array items => if hasSections (.array items) then writeTables path items else []
  | _ => []

/-- The sections of a list of tables at a path. -/
def writeTables (path : List String) : List Document → List String
  | [] => []
  | .table fields :: rest =>
    ("[[" ++ writePath path ++ "]]\n" ++ writeLines fields) :: writeSections path fields
      ++ writeTables path rest
  | _ :: rest => writeTables path rest

end

/-- A whole table. -/
def write (fields : List (String × Document)) : String :=
  let lines := writeLines fields
  let sections := writeSections [] fields
  "\n".intercalate (if lines.isEmpty then sections else lines :: sections)

end TaskAllocation.Toml
