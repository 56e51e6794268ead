import TaskAllocation.Document.Scanner

/-!
# Quoted texts of TOML

A text stands between double quotation marks, and then escapes are read in it, or
between single ones, and then everything stands for itself.  Three quotation marks
instead of one admit line breaks: one right after the opening is left out, and a
backslash at the end of a line takes the break and the blanks that follow it with it.

## Main definitions

* `Toml.basic`, `Toml.literal` — texts on one line.
* `Toml.basicBlock`, `Toml.literalBlock` — texts that may go over several lines.
* `Toml.quoted?` — any of the four.
-/

namespace TaskAllocation.Toml

open Scanner

/-- Whether a character may stand in a text or a comment: anything but control
characters, of which only the tabulator is allowed. -/
def isPlain (c : Char) : Bool := c = '\t' ∨ (0x20 ≤ c.toNat ∧ c.toNat ≠ 0x7f)

/-- Read what an escape stands for, behind its backslash. -/
def escape : Scanner Char := do
  match ← next with
  | 'b' => return '\x08'
  | 't' => return '\t'
  | 'n' => return '\n'
  | 'f' => return '\x0c'
  | 'r' => return '\r'
  | 'e' => return '\x1b'
  | '"' => return '"'
  | '\\' => return '\\'
  | 'x' => scanCharacter 2
  | 'u' => scanCharacter 4
  | 'U' => scanCharacter 8
  | _ => fail .badEscape

/-- Read a character that stands for itself. -/
def plain : Scanner Char := do
  match ← peek? with
  | some c => if isPlain c then next else stuck
  | none => stuck

/-! ### On one line -/

/-- Read a text with escapes, behind its opening quotation mark. -/
def basic : Scanner (List Char) :=
  collect do
    if ← accept "\"" then return none
    else if ← accept "\\" then return some (← escape)
    else return some (← plain)

/-- Read a text without escapes, behind its opening quotation mark. -/
def literal : Scanner (List Char) :=
  collect do
    if ← accept "'" then return none
    else return some (← plain)

/-! ### Over several lines -/

/-- What follows the blanks and line breaks at the front. -/
def dropBreaks : List Char → List Char
  | ' ' :: rest => dropBreaks rest
  | '\t' :: rest => dropBreaks rest
  | '\n' :: rest => dropBreaks rest
  | '\r' :: '\n' :: rest => dropBreaks rest
  | rest => rest

/-- What follows a backslash at the end of a line, the break and the blanks after it
left out; nothing if the line does not end there. -/
def continuation? (cs : List Char) : Option (List Char) :=
  match cs.dropWhile fun c => c = ' ' ∨ c = '\t' with
  | '\n' :: rest => some (dropBreaks rest)
  | '\r' :: '\n' :: rest => some (dropBreaks rest)
  | _ => none

/-- Read a line break, if one is next. -/
def lineBreak : Scanner (List Char) := do
  if ← accept "\n" then return ['\n']
  else if ← accept "\r\n" then return ['\r', '\n']
  else return []

/-- Read what stands behind the opening marks up to the closing ones, at most `count`
pieces.  Up to two more quotation marks may precede the closing three. -/
def blockUpTo (mark : Char) (piece : Scanner (List Char)) : (count : Nat) → Scanner (List Char)
  | 0 => stuck
  | count + 1 => do
    let marks ← takeWhile (· = mark)
    if 5 < marks.length then fail (.unexpected mark)
    else if 3 ≤ marks.length then return marks.drop 3
    else
      let cs ← if marks.isEmpty then piece else pure marks
      return cs ++ (← blockUpTo mark piece count)

/-- Read a text behind its three opening marks, a line break right after them left
out. -/
def block (mark : Char) (piece : Scanner (List Char)) : Scanner (List Char) := do
  let _ ← lineBreak
  blockUpTo mark piece (← repetitions)

/-- Read a line break or a character that stands for itself. -/
def plainOrBreak : Scanner (List Char) := do
  let breaks ← lineBreak
  if breaks.isEmpty then return [← plain] else return breaks

/-- Read what a backslash leads in: an escape, or the end of a line that goes on. -/
def escapeOrBreak : Scanner (List Char) := fun bound cs =>
  match continuation? cs with
  | some rest => .ok ([], rest)
  | none => (escape.bind fun c => Scanner.pure [c]) bound cs

/-- Read a text with escapes over several lines. -/
def basicBlock : Scanner (List Char) :=
  block '"' do
    if ← accept "\\" then escapeOrBreak else plainOrBreak

/-- Read a text without escapes over several lines. -/
def literalBlock : Scanner (List Char) := block '\x27' plainOrBreak

/-! ### Any text -/

/-- Read a text, if one is next. -/
def quoted? : Scanner (Option String) := do
  if ← accept "\"\"\"" then return some (String.ofList (← basicBlock))
  else if ← accept "'''" then return some (String.ofList (← literalBlock))
  else if ← accept "\"" then return some (String.ofList (← basic))
  else if ← accept "'" then return some (String.ofList (← literal))
  else return none

end TaskAllocation.Toml
