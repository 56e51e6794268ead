import TaskAllocation.Scalar

/-!
# Execution time estimates

An estimate is an exponential moving average: every measured duration is folded
into the running value with a fixed weight `alpha`, the old value keeping the
rest.

## Main definitions

* `Estimate.start` — an estimate with a weight and a first value.
* `Estimate.update` — fold in one measurement.
* `Estimate.compare` — estimates are ordered by their values.
-/

namespace TaskAllocation

/-- A running estimate of how long a task takes. -/
structure Estimate (S : Type) where
  /-- Weight of a new measurement. -/
  alpha : S
  /-- The estimate so far. -/
  value : S
  deriving Repr, Inhabited, DecidableEq

namespace Estimate

variable {S : Type} [Scalar S]

/-- An estimate before any measurement.  The weight is brought into `[0, 1]`,
and a first value that is negative or not a number counts as zero. -/
def start (alpha initial : S) : Estimate S where
  alpha := Scalar.clamp 0.0 1.0 alpha
  value := Scalar.max initial 0.0

/-- Fold a measurement into the estimate. -/
def update (e : Estimate S) (measured : S) : Estimate S :=
  { e with value := e.alpha * measured + (1.0 - e.alpha) * e.value }

@[simp]
theorem alpha_update (e : Estimate S) (measured : S) : (e.update measured).alpha = e.alpha :=
  rfl

/-- Fold in a list of measurements, first to last. -/
def updates (e : Estimate S) (measured : List S) : Estimate S :=
  measured.foldl update e

@[simp]
theorem updates_nil (e : Estimate S) : e.updates [] = e := rfl

@[simp]
theorem updates_cons (e : Estimate S) (m : S) (ms : List S) :
    e.updates (m :: ms) = (e.update m).updates ms := rfl

/-- The order of two estimates is that of their values; there is none when a
value is not a number. -/
def compare (a b : Estimate S) : Option Ordering :=
  if a.value < b.value then some .lt
  else if b.value < a.value then some .gt
  else if a.value ≤ b.value then some .eq
  else none

/-- Whether weight and value are numbers and agree. -/
def same (a b : Estimate S) : Bool :=
  (a.alpha ≤ b.alpha ∧ b.alpha ≤ a.alpha) ∧ (a.value ≤ b.value ∧ b.value ≤ a.value)

end Estimate

end TaskAllocation
