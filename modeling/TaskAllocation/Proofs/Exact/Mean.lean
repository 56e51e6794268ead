import Mathlib.Algebra.BigOperators.Fin
import Mathlib.Algebra.Order.Ring.Abs
import Mathlib.Data.List.MinMax
import Mathlib.Tactic.Ring
import TaskAllocation.Estimate
import TaskAllocation.Proofs.Exact

/-!
# Estimates as weighted means

Folding in a measurement takes the mean of it and of the estimate so far, with the weight of a new
measurement on the one and the rest on the other.  Where nothing is rounded, an estimate is
therefore a mean of its first value and of all that has been measured, whose weights add up to one
and fall off towards the past by one and the same factor.

All that is to be known follows from two facts about the mean of two: it grows with both of them,
and that of a number with itself is the number.

## Main definitions

* `Estimate.mix` — the mean of a measurement and the estimate so far.
* `Estimate.folded` — a value with measurements folded in.
* `Estimate.exactAfter` — an estimate after measurements, in exact arithmetic.

## Main results

* `Estimate.folded_eq_sum`, `Estimate.sum_weights` — the weights, and that they add up to one.
* `Estimate.exactAfter_eq` — an estimate folds in its measurements.
* `Estimate.exactAfter_weightedMean` — **an estimate is a weighted mean of what has been
  measured.**
-/

namespace TaskAllocation

namespace Estimate

variable {K : Type} [Field K]

/-! ### Folding in measurements -/

/-- The mean of a measurement, with weight `a`, and the value so far. -/
def mix (a m v : K) : K := a * m + (1 - a) * v

/-- The value `v` after these measurements have been folded in, first to last. -/
def folded (a v : K) (measured : List K) : K := measured.foldl (fun v m => mix a m v) v

@[simp]
theorem folded_nil (a v : K) : folded a v [] = v := rfl

@[simp]
theorem folded_cons (a v m : K) (measured : List K) :
    folded a v (m :: measured) = folded a (mix a m v) measured := rfl

@[simp]
theorem mix_self (a m : K) : mix a m m = m := by
  rw [mix]
  ring

/-- What the mean with every measurement keeps holds in the end. -/
theorem folded_induction {motive : K → Prop} {a v : K} {measured : List K} (hv : motive v)
    (hmix : ∀ m ∈ measured, ∀ v, motive v → motive (mix a m v)) :
    motive (folded a v measured) := by
  induction measured generalizing v with
  | nil => exact hv
  | cons m measured ih =>
    exact ih (hmix m List.mem_cons_self v hv) fun m hm => hmix m (List.mem_cons_of_mem _ hm)

/-- **The weights** fall off by the factor `1 - a` towards the past. -/
theorem folded_eq_sum (a v : K) (measured : List K) :
    folded a v measured = (1 - a) ^ measured.length * v +
      ∑ i : Fin measured.length, a * (1 - a) ^ (measured.length - (i + 1)) * measured[i] := by
  induction measured generalizing v with
  | nil => simp
  | cons m measured ih =>
    -- the first measurement has the same factors after it as the first value of the rest
    have hhead : ∑ i : Fin (m :: measured).length,
        a * (1 - a) ^ ((m :: measured).length - (i + 1)) * (m :: measured)[i] =
          a * (1 - a) ^ measured.length * m +
            ∑ i : Fin measured.length, a * (1 - a) ^ (measured.length - (i + 1)) * measured[i] := by
      refine (Fin.sum_univ_succ _).trans ?_
      simp
    rw [folded_cons, ih, mix, hhead, List.length_cons]
    ring

/-- All weights together are one. -/
theorem sum_weights (a : K) (n : Nat) :
    (1 - a) ^ n + ∑ i : Fin n, a * (1 - a) ^ (n - (i + 1)) = 1 := by
  induction n with
  | zero => simp
  | succ n ih =>
    have hhead : ∑ i : Fin (n + 1), a * (1 - a) ^ (n + 1 - (i + 1)) =
        a * (1 - a) ^ n + ∑ i : Fin n, a * (1 - a) ^ (n - (i + 1)) := by
      refine (Fin.sum_univ_succ _).trans ?_
      simp
    calc (1 - a) ^ (n + 1) + ∑ i : Fin (n + 1), a * (1 - a) ^ (n + 1 - (i + 1))
        = (1 - a) ^ n + ∑ i : Fin n, a * (1 - a) ^ (n - (i + 1)) := by rw [hhead]; ring
      _ = 1 := ih

/-- Towards a measurement that stays the same, the distance shrinks by one factor each time. -/
theorem folded_replicate_sub (a v m : K) (n : Nat) :
    folded a v (List.replicate n m) - m = (1 - a) ^ n * (v - m) := by
  induction n generalizing v with
  | zero => simp
  | succ n ih =>
    rw [List.replicate_succ, folded_cons, ih, mix]
    ring

section Order

variable [LinearOrder K] [IsStrictOrderedRing K] {a v v' m m' bound : K}
  {measured measured' : List K}

/-- A mean grows with what it is the mean of. -/
theorem mix_le_mix (ha : 0 ≤ a) (ha' : a ≤ 1) (hm : m ≤ m') (hv : v ≤ v') :
    mix a m v ≤ mix a m' v' :=
  add_le_add (mul_le_mul_of_nonneg_left hm ha)
    (mul_le_mul_of_nonneg_left hv (sub_nonneg.mpr ha'))

theorem folded_le_folded (ha : 0 ≤ a) (ha' : a ≤ 1) (hv : v ≤ v')
    (hmeasured : List.Forall₂ (· ≤ ·) measured measured') :
    folded a v measured ≤ folded a v' measured' := by
  induction hmeasured generalizing v v' with
  | nil => exact hv
  | cons hm _ ih => exact ih (mix_le_mix ha ha' hm hv)

/-- What is below the first value and all measurements is below the mean. -/
theorem le_folded (ha : 0 ≤ a) (ha' : a ≤ 1) (hv : bound ≤ v)
    (hmeasured : ∀ m ∈ measured, bound ≤ m) : bound ≤ folded a v measured := by
  refine folded_induction (motive := fun v => bound ≤ v) hv fun m hm v hv => ?_
  calc bound
      = mix a bound bound := (mix_self a bound).symm
    _ ≤ mix a m v := mix_le_mix ha ha' (hmeasured m hm) hv

/-- What is above the first value and all measurements is above the mean. -/
theorem folded_le (ha : 0 ≤ a) (ha' : a ≤ 1) (hv : v ≤ bound)
    (hmeasured : ∀ m ∈ measured, m ≤ bound) : folded a v measured ≤ bound := by
  refine folded_induction (motive := fun v => v ≤ bound) hv fun m hm v hv => ?_
  calc mix a m v
      ≤ mix a bound bound := mix_le_mix ha ha' (hmeasured m hm) hv
    _ = bound := mix_self a bound

/-- The mean is not below the least of the first value and all measurements. -/
theorem minimum_le_folded (ha : 0 ≤ a) (ha' : a ≤ 1) :
    (v :: measured).minimum ≤ folded a v measured := by
  have hpos : 0 < (v :: measured).length := Nat.succ_pos _
  have hleast : ∀ x ∈ v :: measured, (v :: measured).minimum_of_length_pos hpos ≤ x :=
    fun x hx => List.minimum_of_length_pos_le_of_mem hx hpos
  rw [← List.coe_minimum_of_length_pos hpos, WithTop.coe_le_coe]
  exact le_folded ha ha' (hleast v List.mem_cons_self) fun m hm =>
    hleast m (List.mem_cons_of_mem _ hm)

/-- Nor is it above the greatest of them. -/
theorem folded_le_maximum (ha : 0 ≤ a) (ha' : a ≤ 1) :
    folded a v measured ≤ (v :: measured).maximum := by
  have hpos : 0 < (v :: measured).length := Nat.succ_pos _
  have hgreatest : ∀ x ∈ v :: measured, x ≤ (v :: measured).maximum_of_length_pos hpos :=
    fun x hx => List.le_maximum_of_length_pos_of_mem hx hpos
  rw [← List.coe_maximum_of_length_pos hpos, WithBot.coe_le_coe]
  exact folded_le ha ha' (hgreatest v List.mem_cons_self) fun m hm =>
    hgreatest m (List.mem_cons_of_mem _ hm)

end Order

/-! ### Estimates in exact arithmetic -/

section Exact

variable [LinearOrder K] [IsStrictOrderedRing K]

/-- An estimate after these measurements, in exact arithmetic. -/
def exactAfter (exp : K → K) (alpha initial : K) (measured : List K) : Estimate K :=
  letI := Scalar.exact exp
  (start alpha initial).updates measured

theorem start_exact (exp : K → K) (alpha initial : K) :
    @start K (Scalar.exact exp) alpha initial =
      { alpha := min 1 (max 0 alpha), value := max initial 0 } := by
  let _ := Scalar.exact exp
  have hzero : (0.0 : K) = 0 := by norm_num
  have hone : (1.0 : K) = 1 := by norm_num
  rw [start, hzero, hone, Scalar.clamp_exact exp alpha zero_le_one, Scalar.max_exact exp]

theorem update_exact (exp : K → K) (a v m : K) :
    @update K (Scalar.exact exp) { alpha := a, value := v } m =
      { alpha := a, value := mix a m v } := by
  let _ := Scalar.exact exp
  have hone : (1.0 : K) = 1 := by norm_num
  rw [update, mix, hone]

theorem updates_exact (exp : K → K) (a v : K) (measured : List K) :
    @updates K (Scalar.exact exp) { alpha := a, value := v } measured =
      { alpha := a, value := folded a v measured } := by
  let _ := Scalar.exact exp
  induction measured generalizing v with
  | nil => rfl
  | cons m measured ih => rw [updates_cons, update_exact, ih, folded_cons]

/-- **An estimate folds in its measurements.** -/
theorem exactAfter_eq (exp : K → K) (alpha initial : K) (measured : List K) :
    exactAfter exp alpha initial measured =
      { alpha := min 1 (max 0 alpha)
        value := folded (min 1 (max 0 alpha)) (max initial 0) measured } := by
  rw [exactAfter, start_exact, updates_exact]

/-- **An estimate is a weighted mean of what has been measured.**  With its weight brought into
`[0, 1]` and its first value raised to zero, its value is a sum with weights that fall off towards
the past and add up to one.  It lies between the least and the greatest of the first value and the
measurements, and so does not go below zero if none of them does; it grows with each of them; and
if one measurement is made again and again, the distance to it shrinks by the same factor each
time. -/
theorem exactAfter_weightedMean (exp : K → K) (alpha initial : K) (measured : List K) :
    let a := min 1 (max 0 alpha)
    let v₀ := max initial 0
    let v := (exactAfter exp alpha initial measured).value
    exactAfter exp alpha initial [] = { alpha := a, value := v₀ } ∧
      (exactAfter exp alpha initial measured).alpha = a ∧
      v = (1 - a) ^ measured.length * v₀ +
        ∑ i : Fin measured.length, a * (1 - a) ^ (measured.length - (i + 1)) * measured[i] ∧
      (1 - a) ^ measured.length +
        ∑ i : Fin measured.length, a * (1 - a) ^ (measured.length - (i + 1)) = 1 ∧
      (v₀ :: measured).minimum ≤ v ∧ v ≤ (v₀ :: measured).maximum ∧
      ((∀ m ∈ measured, 0 ≤ m) → 0 ≤ v) ∧
      (∀ initial' measured', v₀ ≤ max initial' 0 → List.Forall₂ (· ≤ ·) measured measured' →
        v ≤ (exactAfter exp alpha initial' measured').value) ∧
      ∀ m, (∀ m' ∈ measured, m' = m) → |v - m| = (1 - a) ^ measured.length * |v₀ - m| := by
  intro a v₀ v
  have ha : 0 ≤ a := le_min zero_le_one (le_max_left _ _)
  have ha' : a ≤ 1 := min_le_left _ _
  have hv : v = folded a v₀ measured := congrArg value (exactAfter_eq exp alpha initial measured)
  rw [hv]
  refine ⟨exactAfter_eq .., by rw [exactAfter_eq], folded_eq_sum _ _ _, sum_weights _ _,
    minimum_le_folded ha ha', folded_le_maximum ha ha', ?_, ?_, ?_⟩
  · exact le_folded ha ha' (le_max_right _ _)
  · intro initial' measured' hv hmeasured
    rw [exactAfter_eq]
    exact folded_le_folded ha ha' hv hmeasured
  · intro m hm
    rw [List.eq_replicate_of_mem hm, folded_replicate_sub, abs_mul, List.length_replicate,
      abs_of_nonneg (pow_nonneg (sub_nonneg.mpr ha') _)]

/-- With one half as its weight an estimate that starts at ten comes to `43 / 4` by three
measurements.  It comes to no less from a higher start and with a longer measurement, and three
measurements of twenty leave it an eighth of the way from there. -/
theorem exactAfter_weightedMean_three :
    (exactAfter (fun x : ℚ => 1 + x) (1 / 2) 10 [20, 12, 8]).value = 43 / 4 ∧
      43 / 4 ≤ (exactAfter (fun x : ℚ => 1 + x) (1 / 2) 11 [20, 13, 8]).value ∧
      |(exactAfter (fun x : ℚ => 1 + x) (1 / 2) 10 [20, 20, 20]).value - 20| = 5 / 4 := by
  obtain ⟨-, -, hsum, -, -, -, -, hmono, -⟩ :=
    exactAfter_weightedMean (fun x : ℚ => 1 + x) (1 / 2) 10 [20, 12, 8]
  obtain ⟨-, -, -, -, -, -, -, -, hsame⟩ :=
    exactAfter_weightedMean (fun x : ℚ => 1 + x) (1 / 2) 10 [20, 20, 20]
  have hvalue : (exactAfter (fun x : ℚ => 1 + x) (1 / 2) 10 [20, 12, 8]).value = 43 / 4 := by
    rw [hsum]
    decide +kernel
  refine ⟨hvalue, ?_, ?_⟩
  · rw [← hvalue]
    exact hmono 11 [20, 13, 8] (by norm_num) (by norm_num)
  · rw [hsame 20 (by simp)]
    norm_num [abs_of_nonpos]

end Exact

end Estimate

end TaskAllocation
