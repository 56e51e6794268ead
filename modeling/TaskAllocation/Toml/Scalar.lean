import TaskAllocation.Document
import TaskAllocation.Document.Scanner

/-!
# Unquoted values of TOML

Truth values, numbers, dates and times are single words.  Underscores may stand between
two digits of a number; a whole number may also be given in hexadecimal, octal or binary
digits.  A word that only begins as such a number does is a numeral all the same: it stands
for no number, but this is of no account until the number is asked for.

## Main definitions

* `Toml.number?`, `Toml.whole?` — the number that a word stands for.
* `Toml.isNumeral` — whether a word is a numeral, though it stands for no number.
* `Toml.isMoment` — whether a word is a date, a time of day or both.
* `Toml.word?` — the value that a word stands for.
* `Toml.word` — read a word.
-/

namespace TaskAllocation.Toml

/-! ### Digits -/

/-- Digits without the underscores between them; there has to be a digit on either side
of each. -/
def ungroup (base : Nat) : List Char → Option (List Char)
  | [] => none
  | [c] => if (digitValue? base c).isSome then some [c] else none
  | c :: '_' :: rest =>
    if (digitValue? base c).isSome then (ungroup base rest).map (c :: ·) else none
  | c :: rest => if (digitValue? base c).isSome then (ungroup base rest).map (c :: ·) else none

/-- Decimal digits that do not start with a superfluous zero. -/
def decimalDigits (cs : List Char) : Option (List Char) :=
  (ungroup 10 cs).filter fun ds => ds.length ≤ 1 ∨ ds.head? ≠ some '0'

/-- A sign, which may be missing, and what follows it. -/
def splitSign : List Char → Bool × List Char
  | '-' :: rest => (true, rest)
  | '+' :: rest => (false, rest)
  | cs => (false, cs)

/-! ### Whole numbers -/

/-- The whole number that a word stands for. -/
def whole? (word : List Char) : Option Int :=
  match word with
  | '0' :: 'x' :: rest => (ungroup 16 rest).map fun ds => numberOfDigits 16 ds
  | '0' :: 'o' :: rest => (ungroup 8 rest).map fun ds => numberOfDigits 8 ds
  | '0' :: 'b' :: rest => (ungroup 2 rest).map fun ds => numberOfDigits 2 ds
  | _ =>
    let (negative, cs) := splitSign word
    (decimalDigits cs).map fun ds =>
      let n : Int := numberOfDigits 10 ds
      if negative then -n else n

/-! ### Numbers with a fraction or an exponent -/

/-- The two sides of the first character of a kind, without it. -/
def splitAt? (p : Char → Bool) (cs : List Char) : Option (List Char × List Char) :=
  match cs.span (!p ·) with
  | (before, _ :: after) => some (before, after)
  | (_, []) => none

/-- The magnitude of a number with a fraction, an exponent or both; beyond the range of
double precision it is infinite. -/
def magnitude? (cs : List Char) : Option Float := do
  let (significand, power) := match splitAt? (fun c => c = 'e' ∨ c = 'E') cs with
    | some (before, after) => (before, some after)
    | none => (cs, none)
  let (whole, places) := match splitAt? (· = '.') significand with
    | some (before, after) => (before, some after)
    | none => (significand, none)
  if power.isNone ∧ places.isNone then none
  let whole ← decimalDigits whole
  let places ← match places with
    | some ds => ungroup 10 ds
    | none => some []
  let power ← match power with
    | some e =>
      let (negative, ds) := splitSign e
      (ungroup 10 ds).map fun ds =>
        let n : Int := numberOfDigits 10 ds
        if negative then -n else n
    | none => some 0
  return Decimal.toFloat ⟨numberOfDigits 10 (whole ++ places), power - places.length⟩

/-- The number that a word other than a whole number stands for. -/
def number? (word : List Char) : Option Document :=
  let (negative, cs) := splitSign word
  let signed (x : Float) : Document := .number (if negative then -x else x)
  if cs = ['i', 'n', 'f'] then some (signed (1.0 / 0.0))
  else if cs = ['n', 'a', 'n'] then some (signed (0.0 / 0.0))
  else (magnitude? cs).map fun x =>
    if x.isFinite then signed x else .numeral (String.ofList word)

/-! ### Numerals that stand for no number -/

/-- Whether every underscore stands between two hexadecimal digits; `before` tells whether
such a digit comes before the characters. -/
def groupsMatch (before : Bool) : List Char → Bool
  | [] => true
  | ['_'] => false
  | '_' :: c :: rest => before && (digitValue? 16 c).isSome && groupsMatch true rest
  | c :: rest => groupsMatch (digitValue? 16 c).isSome rest

/-- Whether a word is a numeral, though it need not stand for a number.  It is one if it
names a base and has no digits, or if it begins with a group of decimal digits and is
grouped well, whatever its other characters are.  A point, an exponent and a space belong
to values of other kinds. -/
def isNumeral (word : List Char) : Bool :=
  match word with
  | ['0', 'x'] | ['0', 'o'] | ['0', 'b'] => true
  | _ =>
    let (digits, rest) := (splitSign word).2.span Char.isDigit
    digits.head?.any (· ≠ '0')
      && rest.head? = some '_'
      && groupsMatch true rest
      && rest.all fun c => c ≠ '.' && c ≠ 'e' && c ≠ 'E' && c ≠ ' '

/-! ### Dates and times -/

/-- The number that exactly `count` digits stand for, and what follows them. -/
def takeNumber? (count : Nat) (cs : List Char) : Option (Nat × List Char) :=
  let ds := cs.take count
  if ds.length = count ∧ ds.all Char.isDigit then
    some (numberOfDigits 10 ds, cs.drop count)
  else none

/-- What follows a given character. -/
def after? (c : Char) : List Char → Option (List Char)
  | d :: rest => if c = d then some rest else none
  | [] => none

/-- The number of days of a month. -/
def daysIn (year month : Nat) : Nat :=
  if month = 2 then
    if year % 4 = 0 ∧ (year % 100 ≠ 0 ∨ year % 400 = 0) then 29 else 28
  else if month = 4 ∨ month = 6 ∨ month = 9 ∨ month = 11 then 30
  else 31

/-- What follows a date that exists. -/
def date? (cs : List Char) : Option (List Char) := do
  let (year, cs) ← takeNumber? 4 cs
  let (month, cs) ← takeNumber? 2 (← after? '-' cs)
  let (day, cs) ← takeNumber? 2 (← after? '-' cs)
  if 1 ≤ month ∧ month ≤ 12 ∧ 1 ≤ day ∧ day ≤ daysIn year month then some cs else none

/-- What follows hours and minutes. -/
def clock? (cs : List Char) : Option (List Char) := do
  let (hour, cs) ← takeNumber? 2 cs
  let (minute, cs) ← takeNumber? 2 (← after? ':' cs)
  if hour < 24 ∧ minute < 60 then some cs else none

/-- What follows a time of day; seconds may be missing, and those that are given may
have a fraction. -/
def time? (cs : List Char) : Option (List Char) := do
  let cs ← clock? cs
  match cs with
  | ':' :: rest =>
    let (second, rest) ← takeNumber? 2 rest
    if 60 < second then none
    match rest with
    | '.' :: d :: rest => if d.isDigit then some (rest.dropWhile Char.isDigit) else none
    | _ => some rest
  | _ => some cs

/-- Whether this is a time zone, or nothing. -/
def isZone : List Char → Bool
  | [] => true
  | 'Z' :: rest | 'z' :: rest => rest.isEmpty
  | '+' :: rest | '-' :: rest => clock? rest = some []
  | _ => false

/-- Whether a word is a date, a time of day, or a date and a time of day in some time
zone. -/
def isMoment (word : List Char) : Bool :=
  match date? word with
  | some [] => true
  | some (c :: rest) => (c = 'T' ∨ c = 't' ∨ c = ' ') ∧ (time? rest).any isZone
  | none => time? word = some []

/-! ### Words -/

/-- Whether this is a blank within a line. -/
def isBlank (c : Char) : Bool := c = ' ' || c = '\t'

/-- Whether a character can stand in an unquoted value: neither a blank, nor the end of a
line, nor one of the characters that hold a text together. -/
def isWordChar (c : Char) : Bool :=
  !(isBlank c || c = '\n' || c = '\r' || c = '=' || c = ',' || c = '#'
    || c = '[' || c = ']' || c = '\x7b' || c = '\x7d')

/-- The value that a word stands for. -/
def word? (word : List Char) : Option Document :=
  if word = ['t', 'r', 'u', 'e'] then some (.flag true)
  else if word = ['f', 'a', 'l', 's', 'e'] then some (.flag false)
  else if isMoment word then some (.moment (String.ofList word))
  else
    let number := ((whole? word).map .integer).or (number? word)
    number.or (if isNumeral word then some (.numeral (String.ofList word)) else none)

/-- Read blanks and the part of a word behind them.  Blanks that a quotation mark or the
end of the value comes after are left in place. -/
def nextPart : Scanner (Option (List Char)) := do
  let (gap, rest) := (← Scanner.rest).span isBlank
  if gap.isEmpty ∨ !rest.head?.any (fun c => isWordChar c && c ≠ '"' && c ≠ '\'') then
    return none
  Scanner.skipWhile isBlank
  return some (gap ++ (← Scanner.takeWhile isWordChar))

/-- Read an unquoted value.  Blanks within it belong to it, as the one between a date and a
time of day does. -/
def word : Scanner Document := do
  let first ← Scanner.takeWhile isWordChar
  if first.isEmpty then Scanner.stuck
  let whole := first ++ (← Scanner.collect nextPart).flatten
  match word? whole with
  | some d => return d
  | none => Scanner.fail (.badWord (String.ofList whole))

end TaskAllocation.Toml
