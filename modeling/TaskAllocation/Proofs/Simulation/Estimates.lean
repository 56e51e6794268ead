import TaskAllocation.Draw.ChaCha
import TaskAllocation.Simulation
import TaskAllocation.Proofs.Config.Topology
import TaskAllocation.Proofs.Exact
import TaskAllocation.Proofs.Executive.Learning

/-!
# What an agent has learnt in the end

An agent runs an executive whose tasks and mechanisms are laid down in a configuration.  Its
summaries count completions and show estimates, and the one is told by the other: the last
estimate of a task is the first one with the duration folded in for every completion.

## Main definitions

* `Simulation.durationOf` — the timesteps that are laid down for a task.

## Main results

* `Executive.timestepsFrom_eq` — timesteps in a row are calls.
* `Simulation.exists_decomposition_of_agentExecutive` — what an agent runs on.
* `Simulation.estimates_from_completions` — **estimates are told by completions**, under all
  calls and in summaries.
-/

namespace TaskAllocation

namespace Executive

variable {S R M : Type} [Scalar S] [UnitSource R S] [IndexSource R] [Performer M]

/-- Timesteps in a row are calls, and what they collect are the reports. -/
theorem timestepsFrom_eq (e : Executive S R M) (count : Nat) (reports : Array (Report S)) :
    (timestepsFrom count reports e).1.toList =
        reports.toList ++ e.callReports (List.replicate count .timestep) ∧
      (timestepsFrom count reports e).2 = e.afterCalls (List.replicate count .timestep) := by
  induction count generalizing e reports with
  | zero => simp [timestepsFrom, callReports, afterCalls]
  | succ count ih =>
    obtain ⟨hreports, hafter⟩ := ih e.timestep.2 (reports.push e.timestep.1)
    rw [Array.toList_push, List.append_assoc] at hreports
    exact ⟨hreports, hafter⟩

end Executive

/-! ### What an agent runs on -/

theorem Decomposition.forest_initFocus {S R : Type} [Scalar S] [IndexSource R]
    (d : Decomposition S) (policy : FocusPolicy) (source : R) :
    (d.initFocus policy source).1.forest = d.forest := by
  unfold initFocus
  split
  · rfl
  · cases policy with
    | root => exact (rearranged_withFocus d d.rootBlock?).forest
    | random => exact (rearranged_withFocus d (some _)).forest
    | deepest => exact (rearranged_withFocus d d.deepestBlock?).forest

theorem Config.executive_eq_ok {S R M : Type} [Scalar S] [IndexSource R] {c : Config S} {source : R}
    {mechanisms : Array M} {e : Executive S R M} (h : c.executive source mechanisms = .ok e) :
    ∃ d, c.decomposition = .ok d ∧
      Executive.start (d.initFocus c.focus source).1
        { policy := c.allocation, partitioning := c.partitioning } c.abort c.learns
        (d.initFocus c.focus source).2 mechanisms = .ok e := by
  unfold executive at h
  split at h
  · cases h
  · split at h
    · cases h
    · next d hd => exact ⟨d, hd, Except.mapError_eq_ok_iff.mp h⟩

namespace Simulation

/-! ### Summaries -/

variable {S : Type}

theorem mem_summaries {d : Decomposition S} {reports : Array (Report S)} {name : String}
    {total : Summary S} : (name, total) ∈ summaries d reports ↔
      ∃ t task, d.forest.task? t = some task ∧ task.name = name ∧ summary reports task = total := by
  rw [summaries, List.mem_mergeSort, List.mem_map]
  constructor
  · rintro ⟨task, hmem, heq⟩
    obtain ⟨t, ht⟩ := List.mem_iff_getElem?.mp hmem
    rw [Array.getElem?_toList] at ht
    exact ⟨t, task, ht, congrArg Prod.fst heq, congrArg Prod.snd heq⟩
  · rintro ⟨t, task, ht, rfl, rfl⟩
    rw [Forest.task?, ← Array.getElem?_toList] at ht
    exact ⟨task, List.mem_of_getElem? ht, rfl⟩

/-- There is a summary for every task. -/
theorem names_summaries (d : Decomposition S) (reports : Array (Report S)) :
    ((summaries d reports).map (·.1)).Perm (d.forest.tasks.toList.map (·.name)) := by
  have hsorted := (List.mergeSort_perm (d.forest.tasks.toList.map fun t =>
    (t.name, summary reports t)) fun a b => decide (a.1 ≤ b.1)).map (·.1)
  rwa [List.map_map] at hsorted

/-! ### What an agent sums up -/

variable {R : Type} [Scalar S] [UnitSource R S] [IndexSource R] {s : Simulation S}
  {seeded : UInt64 → R} {agent steps : Nat} {keep : Bool} {run : AgentRun S}

/-- The timesteps that are laid down for a task. -/
def durationOf (entry : TaskEntry S) : Nat := (entry.duration.map UInt64.toNat).getD defaultDuration

/-- The timesteps that are laid down, by the places of the tasks. -/
def durations (s : Simulation S) (t : TaskId) : Nat := (s.config.tasks[t]?.map durationOf).getD 0

omit [UnitSource R S] in
/-- **What an agent runs on** has the tasks of the configuration and keeps time. -/
theorem exists_decomposition_of_agentExecutive {e : Executive S R}
    (he : s.agentExecutive seeded agent = .ok e) :
    ∃ d, s.config.decomposition = .ok d ∧ e.decomposition.forest = d.forest ∧
      e.learns = s.config.learns ∧ e.phase = .idle ∧ e.step = 0 ∧ e.Timed s.durations := by
  obtain ⟨d, hd, hstart⟩ := Config.executive_eq_ok he
  obtain ⟨-, -, -, hreflects, -⟩ := Config.reflects_of_decomposition hd
  have hlasting : ∀ t m, (s.config.tasks.map mechanism).toArray[t]? = some m →
      m.duration = max (s.durations t) 1 := by
    intro t m hm
    rw [List.getElem?_toArray, List.getElem?_map] at hm
    obtain ⟨entry, hentry, rfl⟩ := Option.map_eq_some_iff.mp hm
    rw [durations, hentry]
    rfl
  have htimed := Executive.timed_of_start (hreflects.coherent.initFocus _ _) hlasting hstart
  obtain ⟨-, -, rfl⟩ := Executive.start_eq_ok_iff.mp hstart
  exact ⟨d, hd, d.forest_initFocus _ _, rfl, rfl, rfl, htimed⟩

/-- An agent sums up a run of so many timesteps. -/
theorem exists_executive (hrun : s.runOn seeded agent steps keep = .ok run) :
    ∃ (d : Decomposition S) (e : Executive S R) (reports : Array (Report S)),
      s.config.decomposition = .ok d ∧ e.decomposition.forest = d.forest ∧
        e.learns = s.config.learns ∧ e.Timed s.durations ∧
        reports.toList = e.callReports (List.replicate steps .timestep) ∧
        run.tasks =
          summaries (e.afterCalls (List.replicate steps .timestep)).decomposition reports := by
  obtain ⟨e, he, rfl⟩ := Except.map_eq_ok_iff.mp hrun
  obtain ⟨d, hd, hforest, hlearns, -, -, htimed⟩ := exists_decomposition_of_agentExecutive he
  obtain ⟨hreports, hafter⟩ := Executive.timestepsFrom_eq e steps #[]
  refine ⟨d, e, _, hd, hforest, hlearns, htimed, hreports, ?_⟩
  rw [← hafter]
  rfl

/-- A summary counts the completions of a task by its number. -/
theorem completed_summary {e : Executive S R} {calls : List Executive.Call}
    {reports : Array (Report S)} (hreports : reports.toList = e.callReports calls) (task : Task S) :
    (summary reports task).completed = e.completions task.id calls := by
  rw [summary, Executive.completions, ← hreports, Array.countP_toList]

/-- The names of the tasks are laid down, in the order of the configuration. -/
theorem names_of_outline {c : Config S} {d : Decomposition S} {f : Forest S}
    (h : c.Reflects c.tasks.length c.tasks.length d) (hout : f.outline = d.forest.outline) :
    f.tasks.toList.map (·.name) = c.tasks.map (·.name) := by
  refine List.ext_getElem? fun t => ?_
  rw [List.getElem?_map, List.getElem?_map, Array.getElem?_toList]
  change (f.task? t).map (·.name) = _
  rcases Nat.lt_or_ge t c.tasks.length with hlt | hge
  · obtain ⟨entry, hentry⟩ := h.exists_entry hlt
    obtain ⟨task, htask, hname, -⟩ := h.task_of_entry t entry hlt hentry
    obtain ⟨other, hother, -, hother', -⟩ := Forest.exists_task?_of_outline hout.symm htask
    rw [hother, hentry, Option.map_some, Option.map_some, hother', hname]
  · have hsize : f.size ≤ t := by
      rw [Forest.size_eq_of_outline hout, h.size_eq]
      exact hge
    rw [Forest.task?_eq_none hsize, List.getElem?_eq_none hge]
    rfl

/-- **What an agent has learnt of a task in the end is told by how often it was completed.** -/
theorem finalEstimate_of_run (hrun : s.runOn seeded agent steps keep = .ok run) :
    (run.tasks.map (·.1)).Perm (s.config.tasks.map (·.name)) ∧
      ∀ name total, (name, total) ∈ run.tasks → ∃ entry ∈ s.config.tasks, entry.name = name ∧
        total.finalEstimate =
          (Estimate.start (entry.alpha.getD s.config.alpha) entry.initial).valueAfter
            (Scalar.ofNat (max (durationOf entry) 1))
            (if s.config.learns then total.completed else 0) := by
  obtain ⟨d, e, reports, hd, hforest, hlearns, htimed, hreports, htasks⟩ := exists_executive hrun
  obtain ⟨-, -, -, hreflects, -⟩ := Config.reflects_of_decomposition hd
  have hout := Decomposition.forest_outline_of_outline
    (e.outline_afterCalls (List.replicate steps .timestep))
  rw [hforest] at hout
  rw [htasks]
  constructor
  · rw [← names_of_outline hreflects hout]
    exact names_summaries _ _
  · intro name total hmem
    obtain ⟨t, task', htask', rfl, rfl⟩ := mem_summaries.mp hmem
    have hlt : t < s.config.tasks.length := by
      rw [← hreflects.size_eq, ← Forest.size_eq_of_outline hout]
      exact Forest.lt_size_of_task? htask'
    obtain ⟨entry, hentry⟩ := hreflects.exists_entry hlt
    obtain ⟨task, htask, hname, hestimate⟩ := hreflects.task_of_entry t entry hlt hentry
    obtain ⟨other, hother, hid, hname', -⟩ := Forest.exists_task?_of_outline hout htask'
    cases htask.symm.trans hother
    refine ⟨entry, List.mem_of_getElem? hentry, hname.symm.trans hname', ?_⟩
    have hcount : (summary reports task').completed =
        e.completions t (List.replicate steps .timestep) := by
      rw [completed_summary hreports, ← hid, hreflects.coherent.forest.id_eq t task htask]
    have hduration : s.durations t = durationOf entry := by
      rw [durations, hentry]
      rfl
    -- the executive begins with the task as it was declared
    rw [← hforest] at htask
    obtain ⟨learnt, hlearnt, hiterate⟩ :=
      htimed.estimate_afterCalls htask (List.replicate steps .timestep)
    cases htask'.symm.trans hlearnt
    rw [hcount, ← hlearns, ← hestimate, ← hduration]
    exact (congrArg Estimate.value hiterate).trans (Estimate.iterate_update _ _ _).2

/-- **Estimates are told by completions.**  Whatever an executive with mechanisms of fixed
durations is asked for, the estimate of a task is the first one with the duration folded in
once for every completion, if the executive learns, and the first one if not; what else
happened does not count.  So are the estimates with which the runs of agents end. -/
theorem estimates_from_completions {R₀ R₁ : Type} [UnitSource R₀ S] [IndexSource R₀]
    [UnitSource R₁ S] [IndexSource R₁] (root : TaskSpec S) (curve : Logistic S)
    (building : List (Decomposition.Call S R₀)) {a : Allocation S} {abort : AbortCurve S}
    {learns : Bool} {source : R} {mechanisms : Array Mechanism} {duration : TaskId → Nat}
    {e : Executive S R}
    (hlasting : ∀ t m, mechanisms[t]? = some m → m.duration = max (duration t) 1)
    (hstart : Executive.start ((Decomposition.single root curve).run building) a abort learns source
      mechanisms = .ok e) (calls : List Executive.Call) (seeded : UInt64 → R₁) :
    (∀ t task, ((Decomposition.single root curve).run building).forest.task? t = some task →
      ∃ task', (e.afterCalls calls).decomposition.forest.task? t = some task' ∧
        task'.estimate.alpha = task.estimate.alpha ∧
        task'.estimate.value = task.estimate.valueAfter (Scalar.ofNat (max (duration t) 1))
          (if learns then e.completions t calls else 0)) ∧
      ∀ (s : Simulation S) (agent steps : Nat) (keep : Bool) (run : AgentRun S),
        s.runOn seeded agent steps keep = .ok run →
          (run.tasks.map (·.1)).Perm (s.config.tasks.map (·.name)) ∧
            ∀ name total, (name, total) ∈ run.tasks →
              ∃ entry ∈ s.config.tasks, entry.name = name ∧
                total.finalEstimate =
                  (Estimate.start (entry.alpha.getD s.config.alpha) entry.initial).valueAfter
                    (Scalar.ofNat (max (durationOf entry) 1))
                    (if s.config.learns then total.completed else 0) := by
  refine ⟨fun t task htask => ?_, fun _ _ _ _ _ => finalEstimate_of_run⟩
  have hd := (Decomposition.Coherent.single root curve).run building
  have htimed := Executive.timed_of_start hd hlasting hstart
  obtain ⟨-, -, he⟩ := Executive.start_eq_ok_iff.mp hstart
  have hlearns : e.learns = learns := by rw [← he]
  have hbegun : e.decomposition.forest.task? t = some task := by
    rw [← he]
    exact htask
  obtain ⟨task', htask', hiterate⟩ := htimed.estimate_afterCalls hbegun calls
  obtain ⟨halpha, hvalue⟩ := task.estimate.iterate_update (Scalar.ofNat (max (duration t) 1))
    (if e.learns then e.completions t calls else 0)
  rw [← hlearns]
  exact ⟨task', htask', (congrArg Estimate.alpha hiterate).trans halpha,
    (congrArg Estimate.value hiterate).trans hvalue⟩

section Example

attribute [local instance] Scalar.rational

/-- An executive for tasks on three levels that runs the cheapest task and gives none up. -/
def startCheapest : Except ExecutiveError (Executive ℚ ScriptedWords) :=
  Executive.start (Decomposition.threeLevels []) ⟨.cheapest, .standard⟩ default true ⟨[]⟩
    (#[3, 2, 2, 1, 3, 2, 1].map .lasting)

/-- Four timesteps, and then the running task is given up. -/
def fourTimesteps : List Executive.Call :=
  [.timestep, .timestep, .timestep, .timestep, .abortCurrent]

/-- The root is run first and completed in the third timestep, and has its duration folded in
then; and two timesteps of the first agent of the standard configuration. -/
theorem estimates_from_completions_three_levels :
    ∃ e, startCheapest = .ok e ∧
      (∃ task', (e.afterCalls fourTimesteps).decomposition.forest.task? 0 = some task' ∧
        task'.estimate.alpha = 1 / 2 ∧ task'.estimate.value = 7 / 2) ∧
      ∃ run, (Simulation.mk (Config.standard : Config ℚ) 0).runOn ChaCha.ofSeed 0 2 false =
          .ok run ∧
        (run.tasks.map (·.1)).Perm ((Config.standard : Config ℚ).tasks.map (·.name)) := by
  have hcompleted : startCheapest.toOption.map (·.completions 0 fourTimesteps) = some 1 := by
    decide +kernel
  have hroot : ((Decomposition.threeLevels []).forest.task? 0).map (·.estimate) =
      some ⟨1 / 2, 4⟩ := by
    decide +kernel
  have hok : ((Simulation.mk (Config.standard : Config ℚ) 0).runOn ChaCha.ofSeed 0 2 false).isOk =
      true := by
    decide +kernel
  obtain ⟨task, htask, hestimate⟩ := Option.map_eq_some_iff.mp hroot
  cases hstart : startCheapest with
  | error error =>
    rw [hstart] at hcompleted
    cases hcompleted
  | ok e =>
    rw [hstart] at hcompleted
    have hcompletions : e.completions 0 fourTimesteps = 1 := Option.some.inj hcompleted
    obtain ⟨hestimates, hruns⟩ := estimates_from_completions _ _ _
      (fun _ _ => Executive.duration_of_lasting) hstart fourTimesteps ChaCha.ofSeed
    refine ⟨e, rfl, ?_, ?_⟩
    · obtain ⟨task', htask', halpha, hvalue⟩ := hestimates 0 task htask
      rw [hestimate] at halpha hvalue
      rw [hcompletions] at hvalue
      exact ⟨task', htask', halpha, hvalue.trans (by decide +kernel)⟩
    · obtain ⟨run, hrun⟩ := Except.exists_of_isOk hok
      exact ⟨run, hrun, (hruns _ 0 2 false run hrun).1⟩

end Example

end Simulation

end TaskAllocation
