/-!
# Scalars

Estimates and probabilities are computed in one fixed arithmetic.  The library is
written over any type that offers the operations below, so that the same
definitions run on double precision numbers and can be reasoned about over exact
ones.

Nothing is assumed about the order: a scalar that is "not a number" compares as
false with everything, itself included, and `Scalar.max` and `Scalar.clamp` say
what becomes of it.

## Main definitions

* `Scalar` — the operations, and the exponential function.
* `Scalar.max` — the greater of two scalars, a number winning over a non-number.
* `Scalar.clamp` — a scalar brought into a range; a non-number stays what it is.
-/

namespace TaskAllocation

/-- The arithmetic that estimates and probability curves are computed in. -/
class Scalar (S : Type) extends Add S, Sub S, Mul S, Div S, Neg S, LT S, LE S,
    OfScientific S where
  /-- Strict comparison is decided. -/
  decLt : DecidableLT S
  /-- Comparison is decided. -/
  decLe : DecidableLE S
  /-- The scalar nearest to a natural number. -/
  ofNat : Nat → S
  /-- The exponential function. -/
  exp : S → S
  /-- Whether a scalar is a number and not an infinity. -/
  isFinite : S → Bool

instance Scalar.decidableLT {S : Type} [Scalar S] : DecidableLT S := Scalar.decLt

instance Scalar.decidableLE {S : Type} [Scalar S] : DecidableLE S := Scalar.decLe

/-- Double precision numbers. -/
instance : Scalar Float where
  decLt := inferInstance
  decLe := inferInstance
  ofNat := Float.ofNat
  exp := Float.exp
  isFinite := Float.isFinite

namespace Scalar

variable {S : Type} [Scalar S]

/-- Whether `a` is a number: only a non-number fails to be at most itself. -/
abbrev IsNumber (a : S) : Prop := a ≤ a

/-- The greater of `a` and `b`.  If only one of them is a number it is the
answer, and of two that compare equal the answer is `b`. -/
def max (a b : S) : S :=
  if b < a ∨ ¬ IsNumber b then a else b

/-- `a` brought into the range from `low` to `high`. -/
def clamp (low high a : S) : S :=
  let raised := if a < low then low else a
  if high < raised then high else raised

end Scalar

end TaskAllocation
