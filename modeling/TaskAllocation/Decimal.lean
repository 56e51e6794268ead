/-!
# Decimal numbers and double precision numbers

A finite double precision number is a dyadic fraction `m * 2 ^ q`, and the reals that
are rounded to it form an interval around it.  The *shortest decimal* of the number is
the decimal with the fewest digits inside that interval, and among those the one nearest
to the number.  It is found by exact arithmetic on natural numbers: for one digit, two
digits, and so on, the two neighbours of the number on the grid of decimals with that
many digits are tried.  A number halfway between its two neighbours is equally near to
both, and which of them counts as the nearer one is a decision of its own, a `Tie`.

## Main definitions

* `Tie` — where a number goes that is halfway between two others.
* `Decimal` — digits with a power of ten.
* `Dyadic` — a mantissa with a power of two; `Dyadic.ofFloat?` decodes a number.
* `Dyadic.readsBack` — whether a decimal is rounded to a given number.
* `Dyadic.shortest` — the shortest decimal.
* `Decimal.toFloat` — the double precision number nearest to a decimal.
-/

namespace TaskAllocation

/-- Where a number goes that is halfway between two neighbours on a grid. -/
inductive Tie where
  /-- To the one with an even last digit. -/
  | toEven
  /-- To the one farther from zero. -/
  | awayFromZero
  deriving Repr, DecidableEq, Inhabited

/-- Whether the magnitude `below + rest / unit`, with `rest` less than `unit`, goes to
`below + 1` and not to `below`. -/
def Tie.roundsUp (tie : Tie) (below rest unit : Nat) : Bool :=
  match tie with
  | .toEven => unit < 2 * rest ∨ (unit = 2 * rest ∧ below % 2 = 1)
  | .awayFromZero => unit ≤ 2 * rest

/-- The number `digits * 10 ^ exponent`. -/
structure Decimal where
  /-- All the digits, as a natural number. -/
  digits : Nat
  /-- The power of ten. -/
  exponent : Int
  deriving Repr, Inhabited, DecidableEq

/-- The number `mantissa * 2 ^ exponent`, as a double precision number holds it. -/
structure Dyadic where
  /-- The mantissa. -/
  mantissa : Nat
  /-- The power of two. -/
  exponent : Int
  /-- Whether the next number below is only half as far away as the next above. -/
  narrowBelow : Bool
  deriving Repr, Inhabited, DecidableEq

/-- Whether the sign of a number is negative, that of a zero included. -/
def signBit (x : Float) : Bool := UInt64.size / 2 ≤ x.toBits.toNat

/-! ### Powers with integer exponents

The fraction `b ^ e` is `powUp b e / powDown b e`. -/

/-- The numerator of `b ^ e`. -/
def powUp (b : Nat) (e : Int) : Nat := Nat.pow b e.toNat

/-- The denominator of `b ^ e`. -/
def powDown (b : Nat) (e : Int) : Nat := Nat.pow b (-e).toNat

/-! ### Decimals -/

namespace Decimal

/-- Drop zeros at the end of the digits, at most `bound` of them. -/
def stripUpTo : (bound : Nat) → Decimal → Decimal
  | 0, d => d
  | bound + 1, d =>
    if d.digits % 10 = 0 then stripUpTo bound ⟨d.digits / 10, d.exponent + 1⟩ else d

/-- The same number without zeros at the end of its digits. -/
def strip (d : Decimal) : Decimal := d.stripUpTo d.digits.log2

/-- The double precision number nearest to a decimal; far beyond the range it is
infinite, and far below the least one it is zero. -/
def toFloat (d : Decimal) : Float :=
  let magnitude : Int := d.exponent + (Nat.toDigits 10 d.digits).length
  if d.digits = 0 ∨ magnitude < -400 then 0.0
  else if 400 < magnitude then 1.0 / 0.0
  else Float.ofScientific d.digits (d.exponent < 0) d.exponent.natAbs

end Decimal

/-! ### Dyadic fractions -/

namespace Dyadic

/-- The number of fractions that a double precision number can have. -/
def fractionCount : Nat := 0x10000000000000

/-- The number of exponents that a double precision number can have. -/
def exponentCount : Nat := 0x800

/-- The magnitude of a finite number. -/
def ofFloat? (x : Float) : Option Dyadic :=
  let bits : Nat := x.toBits.toNat
  let fraction : Nat := bits % fractionCount
  let biased : Nat := bits / fractionCount % exponentCount
  if biased + 1 = exponentCount then none
  else if biased = 0 then some ⟨fraction, -1074, false⟩
  else some ⟨fractionCount + fraction, (biased : Int) - 1075, fraction = 0 ∧ 1 < biased⟩

/-- Four times the lower end of the interval that is rounded to `d`, in units of
`2 ^ d.exponent`. -/
def lowerEnd (d : Dyadic) : Nat := 4 * d.mantissa - (if d.narrowBelow then 1 else 2)

/-- Four times the upper end of that interval. -/
def upperEnd (d : Dyadic) : Nat := 4 * d.mantissa + 2

/-- Whether the decimal `c` is rounded to `d`: it lies between the ends of the interval,
which belong to it exactly if the mantissa is even. -/
def readsBack (d : Dyadic) (c : Decimal) : Bool :=
  let candidate := 4 * c.digits * powUp 10 c.exponent * powDown 2 d.exponent
  let unit := powUp 2 d.exponent * powDown 10 c.exponent
  if d.mantissa % 2 = 0 then d.lowerEnd * unit ≤ candidate ∧ candidate ≤ d.upperEnd * unit
  else d.lowerEnd * unit < candidate ∧ candidate < d.upperEnd * unit

/-- Whether `d` lies below `10 ^ k`. -/
def belowPowerOfTen (d : Dyadic) (k : Int) : Bool :=
  d.mantissa * powUp 2 d.exponent * powDown 10 k < powUp 10 k * powDown 2 d.exponent

/-- The least `k` with `d` below `10 ^ k`, for a positive `d`: guessed from the number of
binary digits, and at most one step above the guess. -/
def scale (d : Dyadic) : Int :=
  let guess := (d.mantissa.log2 + d.exponent) * 30103 / 100000
  if d.belowPowerOfTen guess then guess
  else if d.belowPowerOfTen (guess + 1) then guess + 1
  else guess + 2

/-- The two multiples of `10 ^ e` next to `d`, the nearer one first. -/
def neighbours (d : Dyadic) (tie : Tie) (e : Int) : Decimal × Decimal :=
  let value := d.mantissa * powUp 2 d.exponent * powDown 10 e
  let unit := powUp 10 e * powDown 2 d.exponent
  let below := value / unit
  if tie.roundsUp below (value % unit) unit then (⟨below + 1, e⟩, ⟨below, e⟩)
  else (⟨below, e⟩, ⟨below + 1, e⟩)

/-- The nearest decimal with `count` digits that reads back, if one does. -/
def withDigits? (d : Dyadic) (tie : Tie) (scale : Int) (count : Nat) : Option Decimal :=
  let (nearer, farther) := d.neighbours tie (scale - count)
  if d.readsBack nearer then some nearer
  else if d.readsBack farther then some farther
  else none

/-- All the decimal digits of a dyadic fraction. -/
def exact (d : Dyadic) : Decimal :=
  if 0 ≤ d.exponent then ⟨d.mantissa * powUp 2 d.exponent, 0⟩
  else ⟨d.mantissa * Nat.pow 5 d.exponent.natAbs, d.exponent⟩

/-- The shortest decimal that reads back, the nearest one of that length.  Seventeen
digits always suffice. -/
def shortest (d : Dyadic) (tie : Tie) : Decimal :=
  if d.mantissa = 0 then ⟨0, 0⟩
  else
    let scale := d.scale
    match (List.range' 1 17).findSome? (d.withDigits? tie scale) with
    | some c => c.strip
    | none => d.exact.strip

end Dyadic

end TaskAllocation
