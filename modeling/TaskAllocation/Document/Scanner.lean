/-!
# Scanners

A scanner reads something from the front of a text and hands back what follows it, or
says why it could not.  Repetition is bounded by the length of the whole text, which no
repetition that makes headway can exceed; every scanner is told this bound.

## Main definitions

* `ReadError` — why a text cannot be read.
* `Scanner` — the type of scanners, a monad.
* `Scanner.collect` — repeat a scanner until it says that it is done.
* `Scanner.run` — read a whole text.
-/

namespace TaskAllocation

/-- Why a text cannot be read. -/
inductive ReadError where
  /-- The text ends too early. -/
  | unexpectedEnd
  /-- A character stands where it cannot. -/
  | unexpected (c : Char)
  /-- A number or a word that stands for no value. -/
  | badWord (word : String)
  /-- An escape that stands for no character. -/
  | badEscape
  /-- A name that is taken already. -/
  | duplicate (name : String)
  /-- Something is to be put under a name that cannot take it. -/
  | closed (name : String)
  /-- Values are nested too deeply. -/
  | tooDeep
  deriving Repr, DecidableEq, Inhabited

/-- The wording of an error. -/
def ReadError.message : ReadError → String
  | .unexpectedEnd => "unexpected end"
  | .unexpected c => s!"unexpected character {c}"
  | .badWord word => s!"{word} is not a value"
  | .badEscape => "unknown escape"
  | .duplicate name => s!"duplicate key {name}"
  | .closed name => s!"{name} cannot be extended"
  | .tooDeep => "nested too deeply"

/-- Reads a value from the front of a text, given how often anything may be repeated. -/
def Scanner (α : Type) : Type := (bound : Nat) → List Char → Except ReadError (α × List Char)

namespace Scanner

variable {α β : Type}

/-- Read nothing. -/
protected def pure (a : α) : Scanner α := fun _ cs => .ok (a, cs)

/-- Read one thing after another. -/
protected def bind (s : Scanner α) (f : α → Scanner β) : Scanner β := fun bound cs =>
  match s bound cs with
  | .ok (a, rest) => f a bound rest
  | .error e => .error e

instance : Monad Scanner where
  pure := Scanner.pure
  bind := Scanner.bind

/-- Give up. -/
def fail (e : ReadError) : Scanner α := fun _ _ => .error e

/-- Give up at the next character. -/
def stuck : Scanner α := fun _ cs =>
  match cs with
  | [] => .error .unexpectedEnd
  | c :: _ => .error (.unexpected c)

/-! ### Characters -/

/-- What is left of the text. -/
def rest : Scanner (List Char) := fun _ cs => .ok (cs, cs)

/-- The next character, left in place. -/
def peek? : Scanner (Option Char) := fun _ cs => .ok (cs.head?, cs)

/-- The next character. -/
def next : Scanner Char := fun _ cs =>
  match cs with
  | [] => .error .unexpectedEnd
  | c :: rest => .ok (c, rest)

/-- Read a text if it is next. -/
def accept (expected : String) : Scanner Bool := fun _ cs =>
  if expected.toList.isPrefixOf cs then .ok (true, cs.drop expected.length) else .ok (false, cs)

/-- Read a text that has to be next. -/
def expect (expected : String) : Scanner Unit := do
  if !(← accept expected) then stuck

/-- Read the longest run of characters of a kind. -/
def takeWhile (p : Char → Bool) : Scanner (List Char) := fun _ cs => .ok (cs.span p)

/-- Skip the longest run of characters of a kind. -/
def skipWhile (p : Char → Bool) : Scanner Unit := fun _ cs => .ok ((), cs.dropWhile p)

/-! ### Repetition -/

/-- Repeat a scanner a number of times. -/
def times (s : Scanner α) : (count : Nat) → Scanner (List α)
  | 0 => return []
  | count + 1 => return (← s) :: (← times s count)

/-- Repeat a scanner until it returns nothing, at most `count` times. -/
def collectUpTo (step : Scanner (Option α)) : (count : Nat) → Scanner (List α)
  | 0 => stuck
  | count + 1 => do
    match ← step with
    | none => return []
    | some a => return a :: (← collectUpTo step count)

/-- How often anything may be repeated. -/
def repetitions : Scanner Nat := fun bound cs => .ok (bound, cs)

/-- Repeat a scanner until it returns nothing.  Every repetition that returns something
has to read something. -/
def collect (step : Scanner (Option α)) : Scanner (List α) := do
  collectUpTo step (← repetitions)

/-- Read items with commas between them up to a closing text.  A comma may also follow
the last item if `trailing` is set.  `blank` skips what may stand around items. -/
def separated (item : Scanner α) (blank : Scanner Unit) (closing : String) (trailing : Bool) :
    Scanner (List α) := do
  blank
  if ← accept closing then return []
  let first ← item
  let others ← collect do
    blank
    if ← accept "," then
      blank
      if trailing then
        if ← accept closing then return none
      return some (← item)
    else
      expect closing
      return none
  return first :: others

/-- Read a whole text. -/
def run (s : Scanner α) (text : String) : Except ReadError α :=
  let cs := text.toList
  match s (cs.length + 1) cs with
  | .ok (a, []) => .ok a
  | .ok (_, c :: _) => .error (.unexpected c)
  | .error e => .error e

end Scanner

/-! ### Digits -/

/-- The value of a digit in a base up to sixteen. -/
def digitValue? (base : Nat) (c : Char) : Option Nat :=
  let value :=
    if '0' ≤ c ∧ c ≤ '9' then some (c.toNat - '0'.toNat)
    else if 'a' ≤ c ∧ c ≤ 'f' then some (c.toNat - 'a'.toNat + 10)
    else if 'A' ≤ c ∧ c ≤ 'F' then some (c.toNat - 'A'.toNat + 10)
    else none
  value.filter (· < base)

/-- The number that digits stand for; other characters count as zeros. -/
def numberOfDigits (base : Nat) (digits : List Char) : Nat :=
  digits.foldl (fun n c => n * base + (digitValue? base c).getD 0) 0

/-- Read a hexadecimal digit. -/
def scanHexDigit : Scanner Char := do
  let c ← Scanner.next
  if (digitValue? 16 c).isSome then return c else Scanner.fail .badEscape

/-- Read a character given by its number in hexadecimal digits. -/
def scanCharacter (digits : Nat) : Scanner Char := do
  let cs ← Scanner.times scanHexDigit digits
  let code := numberOfDigits 16 cs
  if code.isValidChar then return Char.ofNat code else Scanner.fail .badEscape

end TaskAllocation
