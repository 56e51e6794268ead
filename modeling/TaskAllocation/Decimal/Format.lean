import TaskAllocation.Decimal

/-!
# Writing numbers

The digits of a number are chosen by `Dyadic.shortest`; how they are laid out differs
between the places where numbers are written, and each such place has its own
`NumberFormat`.

## Main definitions

* `NumberFormat` — the decisions of a layout.
* `NumberFormat.render` — a number in the fewest digits that read back.
* `fixedPlaces` — a number rounded to a fixed number of places.
-/

namespace TaskAllocation

/-- How a number is laid out. -/
structure NumberFormat where
  /-- Which of two shortest decimals is written that are equally near. -/
  tie : Tie
  /-- Whether a number whose leading digit stands for `10 ^ e` is written without an
  exponent. -/
  positional : Int → Bool
  /-- What follows a whole number that is written without an exponent. -/
  wholeMark : String
  /-- The text of what is not a number. -/
  notANumber : String
  /-- The text of the positive infinity. -/
  infinity : String

/-- Digits with a point behind the first `places` of them, filled up with zeros. -/
def withPoint (digits : List Char) (places : Int) (wholeMark : String) : String :=
  if (digits.length : Int) ≤ places then
    String.ofList (digits ++ List.replicate (places.toNat - digits.length) '0') ++ wholeMark
  else if 0 < places then
    String.ofList (digits.take places.toNat ++ '.' :: digits.drop places.toNat)
  else String.ofList ('0' :: '.' :: List.replicate (-places).toNat '0' ++ digits)

/-- Digits with a point behind the first of them, and an exponent with its sign. -/
def withExponent (digits : List Char) (exponent : Int) : String :=
  let fraction := if 1 < digits.length then '.' :: digits.drop 1 else []
  let sign := if exponent < 0 then "-" else "+"
  String.ofList (digits.take 1 ++ fraction) ++ "e" ++ sign ++ toString exponent.natAbs

namespace NumberFormat

/-- The text of a decimal. -/
def layout (f : NumberFormat) (d : Decimal) : String :=
  let digits := Nat.toDigits 10 d.digits
  let places := d.exponent + digits.length
  if d.digits = 0 then "0" ++ f.wholeMark
  else if f.positional (places - 1) then withPoint digits places f.wholeMark
  else withExponent digits (places - 1)

/-- The text of a number. -/
def render (f : NumberFormat) (x : Float) : String :=
  if x.isNaN then f.notANumber
  else
    let sign := if signBit x then "-" else ""
    match Dyadic.ofFloat? x with
    | some d => sign ++ f.layout (d.shortest f.tie)
    | none => sign ++ f.infinity

/-- Numbers in running text: never an exponent, and nothing behind a whole number. -/
def plain : NumberFormat where
  tie := .awayFromZero
  positional _ := true
  wholeMark := ""
  notANumber := "NaN"
  infinity := "inf"

end NumberFormat

/-! ### Fixed places -/

/-- The integer nearest to `num / den`. -/
def roundDiv (tie : Tie) (num den : Nat) : Nat :=
  let below := num / den
  if tie.roundsUp below (num % den) den then below + 1 else below

/-- A number rounded to a fixed positive number of places; halfway between two the last
digit is even. -/
def fixedPlaces (places : Nat) (x : Float) : String :=
  if x.isNaN then "NaN"
  else
    let sign := if signBit x then "-" else ""
    match Dyadic.ofFloat? x with
    | none => sign ++ "inf"
    | some d =>
      let one := Nat.pow 10 places
      let scaled :=
        roundDiv .toEven (d.mantissa * powUp 2 d.exponent * one) (powDown 2 d.exponent)
      let fraction := Nat.toDigits 10 (scaled % one)
      let zeros := List.replicate (places - fraction.length) '0'
      sign ++ toString (scaled / one) ++ "." ++ String.ofList (zeros ++ fraction)

end TaskAllocation
