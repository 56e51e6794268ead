import TaskAllocation.Config
import TaskAllocation.Decimal.Format

/-!
# Checking configurations

The parameters of a configuration have to lie in the ranges that a run relies on.  They
are checked in a fixed order, and the first that does not is reported.

## Main definitions

* `ConfigFault` — what is wrong with a parameter, with its value.
* `Config.faults` — all that is wrong, in the order of the checks.
* `Config.validate` — the first fault, if there is one.
-/

namespace TaskAllocation

/-- What is wrong with a configuration. -/
inductive ConfigFault (S : Type) where
  /-- There are no tasks. -/
  | noTasks
  /-- The common weight of a measurement is out of range. -/
  | alpha (value : S)
  /-- The weight of a measurement of a task is out of range. -/
  | taskAlpha (task : String) (value : S)
  /-- The first estimate of a task is out of range. -/
  | initial (task : String) (value : S)
  /-- A parameter of a curve is not a finite number. -/
  | notFinite (curve parameter : String) (value : S)
  /-- The least probability of giving up is out of range. -/
  | minProb (value : S)
  /-- The drop in the probability of a part that was given up is out of range. -/
  | bias (value : S)
  /-- Parts are to be taken always and never. -/
  | alwaysAndNever
  deriving Repr, DecidableEq, Inhabited

/-- The wording of a fault. -/
def ConfigFault.message : ConfigFault Float → String
  | .noTasks => "At least one task must be defined"
  | .alpha x => s!"estimation.alpha must be in (0, 1], got {plain x}"
  | .taskAlpha task x => s!"alpha of task '{task}' must be in (0, 1], got {plain x}"
  | .initial task x =>
    s!"initial_estimate of task '{task}' must be finite and not negative, got {plain x}"
  | .notFinite curve parameter x => s!"{curve}.{parameter} must be finite, got {plain x}"
  | .minProb x => s!"abort.min_prob must be in (0, 1), got {plain x}"
  | .bias x => s!"partitioning.last_partition_bias must be in [0, 0.5), got {plain x}"
  | .alwaysAndNever => "always_partition and never_partition are mutually exclusive"
where
  /-- Numbers in the wording. -/
  plain (x : Float) : String := NumberFormat.plain.render x

namespace Config

variable {S : Type} [Scalar S]

/-- A fault that arises unless a condition holds. -/
def faultUnless (condition : Prop) [Decidable condition] (fault : ConfigFault S) :
    List (ConfigFault S) :=
  if condition then [] else [fault]

/-- What is wrong with a task. -/
def entryFaults (t : TaskEntry S) : List (ConfigFault S) :=
  (match t.alpha with
    | some alpha => faultUnless (0.0 < alpha ∧ alpha ≤ 1.0) (.taskAlpha t.name alpha)
    | none => [])
  ++ faultUnless (Scalar.isFinite t.initial ∧ 0.0 ≤ t.initial) (.initial t.name t.initial)

/-- What is wrong with a curve. -/
def curveFaults (name : String) (c : Logistic S) : List (ConfigFault S) :=
  faultUnless (Scalar.isFinite c.reactivity) (.notFinite name "reactivity" c.reactivity)
  ++ faultUnless (Scalar.isFinite c.offset) (.notFinite name "offset" c.offset)
  ++ faultUnless (Scalar.isFinite c.gamma) (.notFinite name "gamma" c.gamma)

/-- Everything that is wrong with a configuration, in the order of the checks. -/
def faults (c : Config S) : List (ConfigFault S) :=
  faultUnless (c.tasks ≠ []) .noTasks
  ++ faultUnless (0.0 < c.alpha ∧ c.alpha ≤ 1.0) (.alpha c.alpha)
  ++ c.tasks.flatMap entryFaults
  ++ curveFaults "abort" c.abort.curve
  ++ curveFaults "partitioning.sigmoid" c.partitioning.curve
  ++ curveFaults "tab_switch" c.stay
  ++ faultUnless (0.0 < c.abort.minProb ∧ c.abort.minProb < 1.0) (.minProb c.abort.minProb)
  ++ faultUnless (0.0 ≤ c.partitioning.bias ∧ c.partitioning.bias < 0.5) (.bias c.partitioning.bias)
  ++ faultUnless (¬ (c.partitioning.always ∧ c.partitioning.never)) .alwaysAndNever

/-- Check a configuration: the first fault is reported. -/
def validate (c : Config S) : Except (ConfigFault S) Unit :=
  match c.faults with
  | [] => .ok ()
  | fault :: _ => .error fault

end Config

end TaskAllocation
