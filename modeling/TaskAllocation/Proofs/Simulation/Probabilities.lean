import TaskAllocation.Proofs.Double.Curves
import TaskAllocation.Proofs.Executive.Probabilities
import TaskAllocation.Proofs.Simulation.Traces

/-!
# Reported probabilities are probabilities

The checks of a configuration ask no more of its curves than that their parameters are finite.
That is too little for what is read off them to be a probability: a curve may climb beyond one,
and one that is flat need not have a height at all.  With curves that climb or fall to a height
between zero and one all reports of all runs show probabilities.

## Main definitions

* `Config.Proper` — what the curves have to satisfy.

## Main results

* `Config.records_of_decomposition` — what is built has no probabilities on record.
* `Forest.weighed_of_finite` — what proper curves say of finite estimates is a probability.
* `Simulation.reports_show_probabilities` — **reports show probabilities**, for proper curves.
* `Simulation.reports_beyond_probabilities` — for others they need not, though the checks let
  them through.
-/

namespace TaskAllocation

open Double

/-! ### What is built -/

section Build

variable {S : Type} {P : S → Prop} {stay : Logistic S} {d : Decomposition S}

namespace Decomposition.Records

theorem single [Scalar S] (root : TaskSpec S) (stay : Logistic S) :
    (single root stay).Records P stay where
  curve := rfl
  whole _ _ hb := by cases hb
  stay _ hs := by cases hs

theorem opened (h : d.Records P stay) (parent first second : TaskId) :
    (d.opened parent first second).Records P stay where
  curve := h.curve
  whole k b hb q hq := by
    rw [block?_opened] at hb
    split at hb
    · cases hb
      cases hq
    · exact h.whole k b hb q hq
  stay := h.stay

theorem initFocus {R : Type} [IndexSource R] (h : d.Records P stay) (policy : FocusPolicy)
    (source : R) : (d.initFocus policy source).1.Records P stay := by
  unfold Decomposition.initFocus
  split
  · exact h
  · cases policy with
    | root => exact h.withFocus _
    | random => exact h.withFocus (some _)
    | deepest => exact h.withFocus _

end Decomposition.Records

/-- **What is built has no probabilities on record**, and goes by the curve of the configuration. -/
theorem Config.records_of_decomposition [Scalar S] {c : Config S} (hd : c.decomposition = .ok d) :
    d.Records P c.stay := by
  obtain ⟨root, rest, d₀, -, hdeclare, hsplit, -⟩ := decomposition_eq_ok_iff.mp hd
  have hdeclared : d₀.Records P c.stay := by
    refine Except.foldlM_invariant (P := fun _ d => d.Records P c.stay) ?_
      (Decomposition.Records.single _ _) hdeclare
    intro _ _ _ _ _ h he
    obtain ⟨_, hadd⟩ := declare_eq_ok_iff.mp he
    obtain ⟨_, -, heq⟩ := Except.map_eq_ok_iff.mp hadd
    cases heq
    exact ⟨h.curve, h.whole, h.stay⟩
  refine Except.foldlM_invariant (P := fun _ d => d.Records P c.stay) ?_ hdeclared hsplit
  intro _ _ _ _ _ h he
  -- an entry without parts is passed over, and the block of any other is new
  rcases splitEntry_eq_ok_iff.mp he with ⟨-, rfl⟩ | ⟨_, _, t, a, b, -, -, -, -, -, rfl⟩
  · exact h
  · exact h.opened t a b

end Build

/-! ### Curves at estimates -/

variable {exp : Float → Float}

/-- Curves whose heights are probabilities: the one of the abort decision may be flat and lie
below zero, for it has a floor under it. -/
structure Config.Proper (c : Config Float) : Prop where
  abort : c.abort.curve.gamma ≤ 1.0
  partitioning : c.partitioning.Proper
  stay : c.stay.Proper

/-- The estimate of a task that there is not is zero, and finite. -/
theorem Forest.isFinite_estimate {f : Forest Float}
    (hf : ∀ t task, f.task? t = some task → task.estimate.Finite) (t : TaskId) :
    letI := Scalar.double exp
    (f.estimate t).isFinite = true := by
  unfold Forest.estimate
  split
  next task htask => exact (hf t task htask).finite
  next => exact isFinite_iff.mpr ⟨0, stands_zero⟩

/-- **What proper curves say of finite estimates is a probability.** -/
theorem Forest.weighed_of_finite (hexp : Exponential exp) {c : Config Float} (hproper : c.Proper)
    {f : Forest Float} (hf : ∀ t task, f.task? t = some task → task.estimate.Finite) :
    letI := Scalar.double exp
    c.InRange → f.Weighed IsProbability c.abort c.partitioning c.stay := by
  let _ := Scalar.double exp
  intro hrange
  have habort := hrange.abort.of_double
  have hpartitioning := hrange.partitioning.of_double
  have hstay := hrange.stay.of_double
  refine ⟨fun n t => ?_, fun t u v => ?_, fun t u => ?_⟩
  · exact AbortCurve.isProbability_prob hexp habort hproper.abort hrange.minProb.1
      hrange.minProb.2 _ _
  · exact hproper.partitioning.isProbability_wholeProb hexp hpartitioning _
      (Forest.isFinite_estimate hf v)
  · exact hproper.stay.isProbability_stayProb hexp hstay _ (Forest.isFinite_estimate hf t)

namespace Simulation

/-! ### Runs -/

/-- A duration is counted in timesteps, of which there are fewer than `2 ^ 64`. -/
theorem durations_lt {S : Type} [Scalar S] (s : Simulation S) (t : TaskId) :
    max (s.durations t) 1 < 2 ^ 64 := by
  have hduration (entry : TaskEntry S) : durationOf entry < 2 ^ 64 := by
    unfold durationOf
    cases entry.duration with
    | none => decide
    | some w => exact w.toNat_lt
  refine Nat.max_lt.mpr ⟨?_, by decide⟩
  unfold durations
  cases s.config.tasks[t]? with
  | none => exact Nat.two_pow_pos 64
  | some entry => exact hduration entry

/-- Estimates of a configuration that passes its checks are finite. -/
theorem finite_estimate (exp : Float → Float) {config : Config Float} {d : Decomposition Float} :
    letI := Scalar.double exp
    config.InRange → config.decomposition = .ok d →
      ∀ t task, d.forest.task? t = some task → task.estimate.Finite := by
  let _ := Scalar.double exp
  intro hrange hd t task htask
  obtain ⟨-, -, -, hreflects, -⟩ := Config.reflects_of_decomposition hd
  have hlt : t < config.tasks.length := by
    rw [← hreflects.size_eq]
    exact Forest.lt_size_of_task? htask
  obtain ⟨entry, hentry⟩ := hreflects.exists_entry hlt
  obtain ⟨other, hother, -, hestimate⟩ := hreflects.task_of_entry t entry hlt hentry
  cases htask.symm.trans hother
  have hin := hrange.tasks entry (List.mem_of_getElem? hentry)
  have hweight : entry.alpha.getD config.alpha ≤ entry.alpha.getD config.alpha := by
    cases halpha : entry.alpha with
    | none => exact isNumber_of_le_left hrange.alpha.2
    | some alpha => exact isNumber_of_le_left (hin.alpha alpha halpha).2
  rw [hestimate]
  exact Estimate.finite_start exp hweight hin.finite

/-- Whatever an agent reports are probabilities. -/
theorem shows_trace {R : Type} [UnitSource R Float] [IndexSource R] (hexp : Exponential exp)
    {s : Simulation Float} (hproper : s.config.Proper) (seeded : UInt64 → R) (agent steps : Nat) :
    letI := Scalar.double exp
    s.config.InRange → ∀ e, s.agentExecutive seeded agent = .ok e →
      ∀ r ∈ e.trace steps, r.Shows IsProbability := by
  let _ := Scalar.double exp
  intro hrange e he
  obtain ⟨d, hd, hforest, -, -, -, htimed⟩ := exists_decomposition_of_agentExecutive he
  obtain ⟨_, hd', hbegun⟩ := Config.executive_eq_ok he
  cases hd.symm.trans hd'
  obtain ⟨-, -, rfl⟩ := Executive.start_eq_ok_iff.mp hbegun
  have hupdate (estimate : Estimate Float) (t : TaskId) (h : estimate.Finite) :
      (estimate.update (Scalar.ofNat (max (s.durations t) 1))).Finite :=
    h.update (durations_lt s t)
  -- the probability of giving up is zero before it is first drawn against
  have hrecords : (d.initFocus s.config.focus (seeded (s.agentSeed agent))).1.Records
      IsProbability s.config.stay :=
    (Config.records_of_decomposition hd).initFocus _ _
  refine htimed.shows_callReports hupdate ⟨hrecords, isProbability_zero⟩ ?_
    (fun _ hf => Forest.weighed_of_finite hexp hproper hf hrange) _
  rw [hforest]
  exact finite_estimate exp hrange hd

/-- **Reports show probabilities**: numbers between zero and one.  A configuration that passes its
checks, whose tasks can be built and whose curves are proper has runs of all agents and lengths,
and so do all timesteps of them report. -/
theorem reports_show_probabilities {R : Type} [UnitSource R Float] [IndexSource R]
    (hexp : Exponential exp) {config : Config Float} (hproper : config.Proper)
    (seeded : UInt64 → R) (fresh : UInt64) : letI := Scalar.double exp
    ∀ s d, start config fresh = .ok s → config.decomposition = .ok d → ∀ agent steps,
      ∃ run, s.runOn seeded agent steps true = .ok run ∧ run.reports.size = steps ∧
        ∀ r ∈ run.reports, r.Shows IsProbability := by
  let _ := Scalar.double exp
  intro s d hstart hd agent steps
  obtain ⟨hvalid, hs⟩ := validate_of_start hstart
  obtain rfl : config = s.config := by rw [hs]
  obtain ⟨e, he⟩ := exists_agentExecutive seeded hvalid hd agent
  obtain ⟨reports, hreports, hrun⟩ := exists_trace he steps
  have hshows := shows_trace hexp hproper seeded agent steps
    (Config.validate_eq_ok_iff.mp hvalid) e he
  refine ⟨_, hrun true, ?_, fun r hr => hshows r ?_⟩
  · rw [← Array.length_toList]
    exact (congrArg List.length hreports).trans (e.length_trace steps)
  · rw [← hreports]
    exact Array.mem_toList_iff.mpr hr

/-- The standard configuration, but giving up is as likely as not at any time. -/
def impatient : Config Float :=
  letI := Scalar.double stepExp
  { Config.standard with abort := {
      curve := { reactivity := 0.0, offset := 3.0, gamma := 1.0 }
      minProb := 0.0001 } }

theorem proper_impatient : impatient.Proper where
  abort := by decide +kernel
  partitioning := .inr (.inr ⟨by decide +kernel, by decide +kernel, by decide +kernel⟩)
  stay := ⟨by decide +kernel, by decide +kernel, by decide +kernel⟩

/-- The first timestep of an agent that is impatient. -/
theorem reports_show_probabilities_impatient : letI := Scalar.double stepExp
    ∃ s run, start impatient 0 = .ok s ∧ s.runOn ChaCha.ofSeed 0 1 true = .ok run ∧
      run.reports.size = 1 ∧ ∀ r ∈ run.reports, r.Shows IsProbability := by
  let _ := Scalar.double stepExp
  have hvalid : impatient.validate = .ok () := by decide +kernel
  have hstart : start impatient 0 = .ok ⟨impatient, 0⟩ := by
    rw [start, hvalid]
    rfl
  have hbuilt : impatient.decomposition.isOk = true := by decide +kernel
  obtain ⟨d, hd⟩ := Except.exists_of_isOk hbuilt
  obtain ⟨run, hrun, hsize, hshows⟩ := reports_show_probabilities exponential_stepExp
    proper_impatient ChaCha.ofSeed 0 _ d hstart hd 0 1
  exact ⟨_, run, hstart, hrun, hsize, hshows⟩

/-- The whole is nothing beside its parts, and the curve of the choice between them is flat. -/
def indifferent : Config Float :=
  letI := Scalar.double stepExp
  { Config.standard with
    seed := some 1
    partitioning := { Partitioning.standard with
      curve := { reactivity := 0.0, offset := 1.0, gamma := 1.0 } }
    tasks := [
      { name := "root", parts := ["a", "b"], initial := 0.0, alpha := none, duration := none },
      { name := "a", parts := [], initial := 1e302, alpha := none, duration := none },
      { name := "b", parts := [], initial := 1e302, alpha := none, duration := none }] }

/-- The curve of the choice between whole and parts climbs to five. -/
def determined : Config Float :=
  letI := Scalar.double stepExp
  { impatient with partitioning := { Partitioning.standard with
      curve := { reactivity := 1.5, offset := 1.0, gamma := 5.0 } } }

/-- What can be seen in the first report of the first agent is there to be seen. -/
theorem exists_wholeProb_of_any (config : Config Float) (seen : Float → Bool) :
    letI := Scalar.double stepExp
    config.validate = .ok () →
      ((mk config (config.seed.getD 0)).runOn ChaCha.ofSeed 0 1 true).toOption.any
        (fun run => run.reports.any fun r => r.wholeProb.any seen) = true →
      ∃ s run, start config 0 = .ok s ∧ s.runOn ChaCha.ofSeed 0 1 true = .ok run ∧
        ∃ r ∈ run.reports, ∃ p, r.wholeProb = some p ∧ seen p = true := by
  let _ := Scalar.double stepExp
  intro hvalid hany
  have hstart : start config 0 = .ok ⟨config, config.seed.getD 0⟩ := by
    rw [start, hvalid]
    rfl
  cases hrun : (mk config (config.seed.getD 0)).runOn ChaCha.ofSeed 0 1 true with
  | error e =>
    rw [hrun] at hany
    cases hany
  | ok run =>
    rw [hrun] at hany
    obtain ⟨r, hr, hwhole⟩ := Array.any_eq_true'.mp hany
    obtain ⟨p, hp, hseen⟩ := (Option.any_eq_true _ _).mp hwhole
    exact ⟨_, run, hstart, hrun, r, hr, p, hp, hseen⟩

/-- **The checks let through curves that are not proper**, and then what is reported may be no
number, for nothing times an infinite ratio is none, or a number beyond one. -/
theorem reports_beyond_probabilities : letI := Scalar.double stepExp
    (∃ s run, start indifferent 0 = .ok s ∧ s.runOn ChaCha.ofSeed 0 1 true = .ok run ∧
      ∃ r ∈ run.reports, ∃ p, r.wholeProb = some p ∧ ¬ p ≤ p ∧ ¬ r.Shows IsProbability) ∧
      ∃ s run, start determined 0 = .ok s ∧ s.runOn ChaCha.ofSeed 0 1 true = .ok run ∧
        ∃ r ∈ run.reports, ∃ p, r.wholeProb = some p ∧ ¬ p ≤ 1.0 ∧ ¬ r.Shows IsProbability := by
  let _ := Scalar.double stepExp
  constructor
  · obtain ⟨s, run, hstart, hrun, r, hr, p, hp, hseen⟩ := exists_wholeProb_of_any
      indifferent (fun p => !decide (p ≤ p)) (by decide +kernel)
      (by decide +kernel)
    rw [Bool.not_eq_true', decide_eq_false_iff_not] at hseen
    exact ⟨s, run, hstart, hrun, r, hr, p, hp, hseen,
      fun hshows => hseen (isNumber_of_le_left (hshows.whole p hp).2)⟩
  · obtain ⟨s, run, hstart, hrun, r, hr, p, hp, hseen⟩ := exists_wholeProb_of_any
      determined (fun p => !decide (p ≤ 1.0)) (by decide +kernel)
      (by decide +kernel)
    rw [Bool.not_eq_true', decide_eq_false_iff_not] at hseen
    exact ⟨s, run, hstart, hrun, r, hr, p, hp, hseen, fun hshows => hseen (hshows.whole p hp).2⟩

end Simulation

end TaskAllocation
