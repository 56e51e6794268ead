import Mathlib.Algebra.Order.Field.Basic
import Mathlib.Data.Rat.Cast.OfScientific
import Mathlib.Tactic.NormNum
import TaskAllocation.Draw.Scripted
import TaskAllocation.Proofs.Decomposition.Growth

/-!
# Exact arithmetic

The numbers of an ordered field can take the place of double precision numbers.  Nothing is
rounded then, and what is known of a field can be used; only the exponential function has
to be given, and may be any function.

## Main definitions

* `Scalar.exact` — the numbers of an ordered field, with a function in place of the exponential.
* `UnitSource.InUnit` — every draw lies between zero and one.

## Main results

* `Scalar.max_exact`, `Scalar.clamp_exact` — the greater of two, and a range, are those of the
  order.
* `UnitSource.inUnit_exact` — draws made of random words lie between zero and one.
-/

namespace TaskAllocation

/-- The numbers of an ordered field, `exp` taking the place of the exponential. -/
@[reducible]
def Scalar.exact {K : Type} [Field K] [LinearOrder K] (exp : K → K) : Scalar K where
  decLt := inferInstance
  decLe := inferInstance
  ofNat n := n
  exp := exp
  isFinite _ := true

namespace Scalar

variable {K : Type} [Field K] [LinearOrder K] (exp : K → K) (a b : K)

/-- Where all are numbers, the greater of two is their maximum. -/
theorem max_exact : @Scalar.max K (Scalar.exact exp) a b = Max.max a b := by
  unfold Scalar.max
  split
  · next h => exact (max_eq_left (h.resolve_right (not_not.mpr (le_refl b))).le).symm
  · next h => exact (max_eq_right (not_lt.mp (not_or.mp h).1)).symm

/-- What is brought into a range is raised to its lower end, and lowered to its upper one. -/
theorem clamp_exact {low high : K} (h : low ≤ high) :
    @Scalar.clamp K (Scalar.exact exp) low high a = min high (Max.max low a) := by
  unfold Scalar.clamp
  dsimp only
  split
  · next hlow =>
    rw [max_eq_left hlow.le, min_eq_right h, if_neg (not_lt.mpr h)]
  · next hlow =>
    rw [max_eq_right (not_lt.mp hlow)]
    split
    · next hhigh => exact (min_eq_left hhigh.le).symm
    · next hhigh => exact (min_eq_right (not_lt.mp hhigh)).symm

end Scalar

namespace UnitSource

/-- Every draw lies in `[0, 1)`: it is not below zero, and it is below one, which what is not a
number never is. -/
def InUnit (R S : Type) [Scalar S] [UnitSource R S] : Prop :=
  ∀ source : R, ¬ (uniform source : S × R).1 < 0.0 ∧ (uniform source : S × R).1 < 1.0

/-- Draws made of random words lie in `[0, 1)`: they are less than `2 ^ 53` steps from zero. -/
theorem inUnit_exact {K : Type} [Field K] [LinearOrder K] [IsStrictOrderedRing K] (exp : K → K)
    (R : Type) [WordSource R] :
    letI := Scalar.exact exp
    InUnit R K := by
  intro source
  let count := WordSource.unitCount (WordSource.next64 source).1
  have hlt : count < WordSource.unitSteps := WordSource.unitCount_lt _
  have hsteps : (0 : K) < (WordSource.unitSteps : K) := by
    exact_mod_cast Nat.lt_of_le_of_lt (Nat.zero_le _) hlt
  change ¬ ((count : K) / (WordSource.unitSteps : K) < 0.0) ∧
    (count : K) / (WordSource.unitSteps : K) < 1.0
  norm_num
  constructor
  · positivity
  · rw [div_lt_one hsteps]
    exact_mod_cast hlt

end UnitSource

/-! ### Tasks to look at -/

/-- Rational numbers, with `1 + x` in place of the exponential, and the inverse of `1 - x` below
zero. -/
@[reducible]
def Scalar.rational : Scalar ℚ := Scalar.exact fun x => if x < 0 then 1 / (1 - x) else 1 + x

namespace Decomposition

attribute [local instance] Scalar.rational

/-- Calls that declare seven tasks and split three of them, each of them but the first a part
of the one before. -/
def threeLevelCalls : List (Call ℚ ScriptedWords) := [
  .add ⟨"left", 0.5, 2⟩, .add ⟨"right", 0.5, 2⟩, .add ⟨"low", 0.5, 2⟩, .add ⟨"high", 0.5, 1⟩,
  .add ⟨"fetch", 0.5, 1⟩, .add ⟨"carry", 0.5, 1⟩,
  .split 0 [1, 2], .split 1 [3, 4], .split 3 [5, 6]]

/-- These tasks, after further calls. -/
def threeLevels (calls : List (Call ℚ ScriptedWords)) : Decomposition ℚ :=
  (single ⟨"root", 0.5, 4⟩ ⟨1.5, 1.0, 1.0⟩).run (threeLevelCalls ++ calls)

end Decomposition

end TaskAllocation
