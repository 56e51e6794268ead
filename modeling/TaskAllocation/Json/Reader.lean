import TaskAllocation.Document
import TaskAllocation.Document.Scanner

/-!
# Reading JSON

Whole numbers stay whole as long as they fit into 64 bits, with a sign or without; all
other numbers are read in double precision.

## Main definitions

* `Json.value` — a value at the front of a text.
* `Json.read` — a whole text.
-/

namespace TaskAllocation.Json

open Scanner

/-- What may stand between values. -/
def isBlank (c : Char) : Bool := c = ' ' ∨ c = '\t' ∨ c = '\n' ∨ c = '\r'

/-- Skip blanks. -/
def blanks : Scanner Unit := skipWhile isBlank

/-! ### Texts -/

/-- Read what an escape stands for, behind its backslash.  Characters beyond `U+FFFF`
are two escapes that belong together. -/
def escape : Scanner Char := do
  match ← next with
  | '"' => return '"'
  | '\\' => return '\\'
  | '/' => return '/'
  | 'b' => return '\x08'
  | 'f' => return '\x0c'
  | 'n' => return '\n'
  | 'r' => return '\r'
  | 't' => return '\t'
  | 'u' =>
    let high := numberOfDigits 16 (← times scanHexDigit 4)
    if 0xD800 ≤ high ∧ high < 0xDC00 then
      expect "\\u"
      let low := numberOfDigits 16 (← times scanHexDigit 4)
      if 0xDC00 ≤ low ∧ low < 0xE000 then
        return Char.ofNat (0x10000 + (high - 0xD800) * 0x400 + (low - 0xDC00))
      else fail .badEscape
    else if high.isValidChar then return Char.ofNat high
    else fail .badEscape
  | _ => fail .badEscape

/-- Read a text behind its opening quotation mark. -/
def text : Scanner String := do
  let cs ← collect do
    match ← next with
    | '"' => return none
    | '\\' => return some (← escape)
    | c => if c.toNat < 32 then fail (.unexpected c) else return some c
  return String.ofList cs

/-! ### Numbers -/

/-- Read digits, of which there has to be one. -/
def digits : Scanner (List Char) := do
  let ds ← takeWhile Char.isDigit
  if ds.isEmpty then stuck else return ds

/-- Read a fraction, which may be missing. -/
def fraction : Scanner (Option (List Char)) := do
  if ← accept "." then return some (← digits) else return none

/-- Read an exponent, which may be missing. -/
def exponent : Scanner (Option Int) := do
  match ← peek? with
  | some c =>
    if c = 'e' ∨ c = 'E' then
      let _ ← next
      let negative ← accept "-"
      if !negative then let _ ← accept "+"
      let n : Int := numberOfDigits 10 (← digits)
      return some (if negative then -n else n)
    else return none
  | none => return none

/-- The value of a number without fraction and exponent: whole if it fits into 64 bits
and is not a negative zero. -/
def wholeNumber (negative : Bool) (n : Nat) : Document :=
  if negative then
    if 0 < n ∧ n ≤ UInt64.size / 2 then .integer (-n) else .number (-(Decimal.toFloat ⟨n, 0⟩))
  else if n < UInt64.size then .integer n
  else .number (Decimal.toFloat ⟨n, 0⟩)

/-- Read a number. -/
def scanNumber : Scanner Document := do
  let negative ← accept "-"
  let whole ← digits
  if 1 < whole.length ∧ whole.head? = some '0' then fail (.badWord (String.ofList whole))
  let places ← fraction
  let power ← exponent
  if places.isNone ∧ power.isNone then
    return wholeNumber negative (numberOfDigits 10 whole)
  else
    let places := places.getD []
    let magnitude := Decimal.toFloat
      ⟨numberOfDigits 10 (whole ++ places), power.getD 0 - places.length⟩
    if magnitude.isFinite then return .number (if negative then -magnitude else magnitude)
    else fail (.badWord (String.ofList whole))

/-! ### Values -/

/-- Read a value, with at most `levels` lists and tables inside each other. -/
def value : (levels : Nat) → Scanner Document
  | 0 => fail .tooDeep
  | levels + 1 => do
    if ← accept "\x7b" then
      let field : Scanner (String × Document) := do
        expect "\""
        let name ← text
        blanks
        expect ":"
        blanks
        return (name, ← value levels)
      return .table (← separated field blanks "\x7d" false)
    else if ← accept "[" then
      return .array (← separated (value levels) blanks "]" false)
    else if ← accept "\"" then return .text (← text)
    else if ← accept "true" then return .flag true
    else if ← accept "false" then return .flag false
    else if ← accept "null" then return .null
    else scanNumber

/-- The greatest nesting that is read. -/
def depthLimit : Nat := 128

/-- Read a whole text. -/
def read (s : String) : Except ReadError Document :=
  Scanner.run (do
    blanks
    let d ← value depthLimit
    blanks
    return d) s

end TaskAllocation.Json
