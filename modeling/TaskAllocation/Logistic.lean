import TaskAllocation.Scalar

/-!
# Logistic curves

Every probability in the library is read off a curve
`gamma / (1 + exp (reactivity * (offset - x)))`, which climbs from `0` to `gamma`
around `offset` when `reactivity` is positive.

## Main definitions

* `Logistic` — the three parameters of a curve.
* `Logistic.standard` — the curve used where nothing else is asked for.
* `Logistic.eval` — the height of the curve at a point.
-/

namespace TaskAllocation

/-- The parameters of a logistic curve. -/
structure Logistic (S : Type) where
  /-- Steepness of the transition. -/
  reactivity : S
  /-- The point at which the curve reaches half its height. -/
  offset : S
  /-- Height of the curve. -/
  gamma : S
  deriving Repr, Inhabited, DecidableEq

namespace Logistic

variable {S : Type} [Scalar S]

/-- The curve used where nothing else is asked for. -/
def standard : Logistic S where
  reactivity := 1.5
  offset := 1.0
  gamma := 1.0

/-- The exponent at `x`, kept within `[-700, 700]` so that its exponential is
finite. -/
def exponent (c : Logistic S) (x : S) : S :=
  Scalar.clamp (-700.0) 700.0 (c.reactivity * (c.offset - x))

/-- The height of the curve at `x`. -/
def eval (c : Logistic S) (x : S) : S :=
  c.gamma / (1.0 + Scalar.exp (c.exponent x))

end Logistic

end TaskAllocation
