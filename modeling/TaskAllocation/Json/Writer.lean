import TaskAllocation.Document

/-!
# Writing JSON

Documents are written on one line, without blanks, the fields of a table in their
order.

## Main definitions

* `Json.numberFormat` — how numbers are laid out.
* `Json.quote` — a text between quotation marks.
* `Json.write` — a document on one line.
-/

namespace TaskAllocation.Json

/-- Numbers with a leading digit from `10 ^ -5` to `10 ^ 15` are written without an
exponent, whole ones with a zero behind the point, and of two shortest decimals that are
equally near the even one is written.  What is no number, or infinite, is written as no
value. -/
def numberFormat : NumberFormat where
  tie := .toEven
  positional e := -5 ≤ e ∧ e < 16
  wholeMark := ".0"
  notANumber := "null"
  infinity := "null"

/-- The text of a number. -/
def number (x : Float) : String :=
  if x.isFinite then numberFormat.render x else "null"

/-- The two digits of a number below `256` to the base sixteen. -/
def twoDigits (n : Nat) : List Char :=
  [Nat.digitChar (n / 16), Nat.digitChar (n % 16)]

/-- How a character is written between quotation marks. -/
def escaped (c : Char) : List Char :=
  if c = '"' then ['\\', '"']
  else if c = '\\' then ['\\', '\\']
  else if c = '\n' then ['\\', 'n']
  else if c = '\r' then ['\\', 'r']
  else if c = '\t' then ['\\', 't']
  else if c = '\x08' then ['\\', 'b']
  else if c = '\x0c' then ['\\', 'f']
  else if c.toNat < 32 then ['\\', 'u', '0', '0'] ++ twoDigits c.toNat
  else [c]

/-- A text between quotation marks. -/
def quote (s : String) : String := "\"" ++ String.ofList (s.toList.flatMap escaped) ++ "\""

mutual

/-- A document on one line. -/
def write : Document → String
  | .null => "null"
  | .flag b => if b then "true" else "false"
  | .integer n => toString n
  | .number x => number x
  | .text s => quote s
  | .numeral s => s
  | .moment s => quote s
  | .array items => "[" ++ ",".intercalate (writeItems items) ++ "]"
  | .table fields => "\x7b" ++ ",".intercalate (writeFields fields) ++ "\x7d"

/-- The items of a list, each on one line. -/
def writeItems : List Document → List String
  | [] => []
  | d :: rest => write d :: writeItems rest

/-- The fields of a table, each on one line. -/
def writeFields : List (String × Document) → List String
  | [] => []
  | (name, d) :: rest => (quote name ++ ":" ++ write d) :: writeFields rest

end

end TaskAllocation.Json
