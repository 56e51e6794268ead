import TaskAllocation.Scalar

/-!
# Drawing at random

Every random decision is made by a draw from a source, which hands back the value
drawn and the source that remains.  A function that returns the source it was
given has drawn nothing.

## Main definitions

* `IndexSource` — a source of indices below a bound.
* `UnitSource` — a source of scalars between zero and one.
-/

namespace TaskAllocation

/-- A source of indices. -/
class IndexSource (R : Type) where
  /-- Draw an index below a bound. -/
  below : Nat → R → Nat × R
  /-- An index is below its bound, unless nothing is. -/
  below_lt {n : Nat} (source : R) : 0 < n → (below n source).1 < n

/-- A source of scalars between zero and one. -/
class UnitSource (R : Type) (S : Type) where
  /-- Draw a scalar. -/
  uniform : R → S × R

end TaskAllocation
