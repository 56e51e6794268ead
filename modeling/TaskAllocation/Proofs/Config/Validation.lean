import TaskAllocation.Config.Validation

/-!
# What the checks let through

A configuration passes its checks exactly if each of its parameters lies in the range that is
laid down for it.

## Main definitions

* `Config.InRange` — every parameter lies in its range.

## Main results

* `Config.validate_eq_ok_iff` — **the checks let through what is in range**, and nothing else.
-/

namespace TaskAllocation

variable {S : Type} [Scalar S]

/-- A curve whose parameters are finite. -/
structure Logistic.Finite (c : Logistic S) : Prop where
  reactivity : Scalar.isFinite c.reactivity = true
  offset : Scalar.isFinite c.offset = true
  gamma : Scalar.isFinite c.gamma = true

/-- A task whose estimate starts with a finite time, and whose measurements have a weight if one
is laid down. -/
structure TaskEntry.InRange (t : TaskEntry S) : Prop where
  alpha : ∀ alpha, t.alpha = some alpha → 0.0 < alpha ∧ alpha ≤ 1.0
  finite : Scalar.isFinite t.initial = true
  nonneg : 0.0 ≤ t.initial

namespace Config

/-- A configuration whose parameters lie in their ranges. -/
structure InRange (c : Config S) : Prop where
  nonempty : c.tasks ≠ []
  alpha : 0.0 < c.alpha ∧ c.alpha ≤ 1.0
  tasks : ∀ t ∈ c.tasks, t.InRange
  abort : c.abort.curve.Finite
  partitioning : c.partitioning.curve.Finite
  stay : c.stay.Finite
  minProb : 0.0 < c.abort.minProb ∧ c.abort.minProb < 1.0
  bias : 0.0 ≤ c.partitioning.bias ∧ c.partitioning.bias < 0.5
  exclusive : ¬ (c.partitioning.always = true ∧ c.partitioning.never = true)

omit [Scalar S] in
/-- A check finds nothing exactly if its condition holds. -/
theorem faultUnless_eq_nil_iff {p : Prop} [Decidable p] {fault : ConfigFault S} :
    faultUnless p fault = [] ↔ p := by
  unfold faultUnless
  split
  next h => exact iff_of_true rfl h
  next h => exact iff_of_false (List.cons_ne_nil _ _) h

theorem entryFaults_eq_nil_iff {t : TaskEntry S} : entryFaults t = [] ↔ t.InRange := by
  unfold entryFaults
  rw [List.append_eq_nil_iff, faultUnless_eq_nil_iff]
  constructor
  · rintro ⟨halpha, hfinite, hnonneg⟩
    refine ⟨fun alpha h => ?_, hfinite, hnonneg⟩
    rw [h] at halpha
    exact faultUnless_eq_nil_iff.mp halpha
  · rintro ⟨halpha, hfinite, hnonneg⟩
    refine ⟨?_, hfinite, hnonneg⟩
    cases h : t.alpha with
    | none => rfl
    | some alpha => exact faultUnless_eq_nil_iff.mpr (halpha alpha h)

theorem curveFaults_eq_nil_iff {name : String} {c : Logistic S} :
    curveFaults name c = [] ↔ c.Finite := by
  unfold curveFaults
  rw [List.append_eq_nil_iff, List.append_eq_nil_iff, faultUnless_eq_nil_iff,
    faultUnless_eq_nil_iff, faultUnless_eq_nil_iff]
  constructor
  · rintro ⟨⟨hreactivity, hoffset⟩, hgamma⟩
    exact ⟨hreactivity, hoffset, hgamma⟩
  · rintro ⟨hreactivity, hoffset, hgamma⟩
    exact ⟨⟨hreactivity, hoffset⟩, hgamma⟩

theorem faults_eq_nil_iff {c : Config S} : c.faults = [] ↔ c.InRange := by
  simp only [faults, List.append_eq_nil_iff, List.flatMap_eq_nil_iff, faultUnless_eq_nil_iff,
    entryFaults_eq_nil_iff, curveFaults_eq_nil_iff]
  constructor
  · rintro ⟨⟨⟨⟨⟨⟨⟨⟨hnonempty, halpha⟩, htasks⟩, habort⟩, hpartitioning⟩, hstay⟩, hminProb⟩, hbias⟩,
      hexclusive⟩
    exact ⟨hnonempty, halpha, htasks, habort, hpartitioning, hstay, hminProb, hbias, hexclusive⟩
  · rintro ⟨hnonempty, halpha, htasks, habort, hpartitioning, hstay, hminProb, hbias, hexclusive⟩
    exact ⟨⟨⟨⟨⟨⟨⟨⟨hnonempty, halpha⟩, htasks⟩, habort⟩, hpartitioning⟩, hstay⟩, hminProb⟩, hbias⟩,
      hexclusive⟩

/-- **The checks let through what is in range**, and nothing else. -/
theorem validate_eq_ok_iff {c : Config S} : c.validate = .ok () ↔ c.InRange := by
  rw [← faults_eq_nil_iff, validate]
  cases c.faults with
  | nil => exact iff_of_true rfl rfl
  | cons fault rest => exact iff_of_false nofun (List.cons_ne_nil _ _)

end Config

end TaskAllocation
