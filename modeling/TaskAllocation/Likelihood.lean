import TaskAllocation.Logistic

/-!
# Likelihoods of the three decisions

A logistic curve read at a ratio of two times gives the probability of giving up
a running task, of running a split task whole, and of staying in a block when a
neighbouring one could be entered.

## Main definitions

* `timeRatio` — the ratio of two times, each raised to a small positive floor.
* `AbortCurve.prob` — giving up a task that has run for some time.
* `wholeProb` — running a task whole rather than one of its parts.
* `stayProb` — staying when the way to another block is open.
-/

namespace TaskAllocation

variable {S : Type} [Scalar S]

/-- The least time a ratio is formed with. -/
def leastTime : S := 1e-6

/-- The ratio of two times, each raised to `leastTime` first, so that it is a
positive number for any two times. -/
def timeRatio (time base : S) : S :=
  Scalar.max time leastTime / Scalar.max base leastTime

/-- The curve of the abort decision, with a floor under every probability. -/
structure AbortCurve (S : Type) where
  /-- The curve, read at the ratio of elapsed to estimated time. -/
  curve : Logistic S
  /-- No probability is below this. -/
  minProb : S
  deriving Repr, Inhabited, DecidableEq

/-- The abort curve used where nothing else is asked for: a task is given up
around three times its estimate. -/
def AbortCurve.standard : AbortCurve S where
  curve := { reactivity := 8.0, offset := 3.0, gamma := 1.0 }
  minProb := 0.0001

/-- The probability of giving up a task that was estimated at `estimate` and has
run for `elapsed`. -/
def AbortCurve.prob (c : AbortCurve S) (elapsed estimate : S) : S :=
  Scalar.max (c.curve.eval (timeRatio elapsed estimate)) c.minProb

/-- The probability of running a task whole; it grows as the estimates of the
parts add up to more than the estimate of the whole. -/
def wholeProb (c : Logistic S) (parts whole : S) : S :=
  c.eval (timeRatio parts whole)

/-- The probability of staying in a block when the way leads from a task
estimated at `source` to one estimated at `target`. -/
def stayProb (c : Logistic S) (source target : S) : S :=
  c.eval (timeRatio target source)

end TaskAllocation
