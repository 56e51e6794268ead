import Mathlib.Algebra.BigOperators.Group.List.Basic
import Mathlib.Algebra.Order.Ring.Nat
import TaskAllocation.Proofs.Executive.Episodes
import TaskAllocation.Proofs.Simulation.Counting

/-!
# Traces and summaries

A traced run of an agent shows a report of every timestep.  How far it goes does not change
how it begins; and what is summed up of a run, traced or not, can be read off the trace.  Every
completion takes as many timesteps as are laid down for the task, and giving a task up
takes one, so the summaries account for no more timesteps than there were.

Whether there is a run at all is a matter of the tasks of the configuration alone, the same
for all agents, and which run it is depends on the seed of the agent alone.

## Main definitions

* `Tally.charge`, `Simulation.charged` — the timesteps that counts and summaries account for.
* `Simulation.Traced` — a traced run, and what else it tells.

## Main results

* `Simulation.exists_run_iff`, `Simulation.run_eq_error` — when there is a run.
* `Executive.sum_charge_le` — what has ended accounts for no more than the timesteps begun.
* `Simulation.traced_of_run` — **traces, summaries and counts agree.**
* `Simulation.summaries_agree_with_traces` — the same, for all agents of a simulation.
-/

namespace TaskAllocation

/-! ### Accounting -/

namespace Tally

variable {S : Type}

/-- The timesteps that a tally accounts for, if the task takes `duration` of them. -/
def charge (duration : Nat) (c : Tally) : Nat := c.completed * max 1 duration + c.aborted

theorem charge_add (duration : Nat) (a b : Tally) :
    (a.add b).charge duration = a.charge duration + b.charge duration := by
  simp only [charge, add, Nat.add_mul]
  omega

theorem ofReports_cons (t : TaskId) (r : Report S) (reports : List (Report S)) :
    ofReports t (r :: reports) = (ofReports t [r]).add (ofReports t reports) := by
  rw [← zero_add (ofReports t (r :: reports)), add_ofReports_cons, zero_add]

/-- If only one of some tasks accounts for anything, all of them account for no more than it. -/
theorem sum_map_le_of_single {u : TaskId} {f : TaskId → Nat} {bound : Nat}
    (hother : ∀ t, t ≠ u → f t = 0) (hbound : f u ≤ bound) {tasks : List TaskId}
    (hnodup : tasks.Nodup) : (tasks.map f).sum ≤ bound := by
  induction tasks with
  | nil => exact Nat.zero_le bound
  | cons t tasks ih =>
    obtain ⟨hnotMem, hnodup⟩ := List.nodup_cons.mp hnodup
    rw [List.map_cons, List.sum_cons]
    by_cases htu : t = u
    · subst htu
      have hrest : (tasks.map f).sum = 0 := by
        rw [List.sum_eq_zero_iff_forall_eq_nat]
        intro n hn
        obtain ⟨v, hv, rfl⟩ := List.mem_map.mp hn
        exact hother v fun heq => hnotMem (heq ▸ hv)
      omega
    · have hnone := hother t htu
      have hrest := ih hnodup
      omega

/-- A report accounts for the end of one task at most, and for no more than that end takes. -/
theorem sum_charge_report_le (duration : TaskId → Nat) (r : Report S) {tasks : List TaskId}
    (hnodup : tasks.Nodup) :
    (tasks.map fun t => (ofReports t [r]).charge (duration t)).sum ≤
      (Sight.report r).charge duration := by
  have hnone : (∀ t, r.phase ≠ .completed t) → (∀ t, r.phase ≠ .aborted t) →
      (tasks.map fun t => (ofReports t [r]).charge (duration t)).sum ≤
        (Sight.report r).charge duration := by
    intro hcompleted haborted
    refine sum_map_le_of_single (u := 0) (fun t _ => ?_) ?_ hnodup
    · simp [charge, ofReports, hcompleted, haborted]
    · simp [charge, ofReports, hcompleted, haborted]
  cases hphase : r.phase with
  | completed u =>
    rw [Sight.charge_of_completed duration hphase, Nat.max_comm]
    refine sum_map_le_of_single (u := u) (fun t ht => ?_) ?_ hnodup
    · simp [charge, ofReports, hphase, Ne.symm ht]
    · simp [charge, ofReports, hphase]
  | aborted u =>
    rw [Sight.charge_of_aborted duration hphase]
    refine sum_map_le_of_single (u := u) (fun t ht => ?_) ?_ hnodup
    · simp [charge, ofReports, hphase, Ne.symm ht]
    · simp [charge, ofReports, hphase]
  | idle => exact hnone (by simp [hphase]) (by simp [hphase])
  | allocating => exact hnone (by simp [hphase]) (by simp [hphase])
  | executing u => exact hnone (by simp [hphase]) (by simp [hphase])

/-- Counts account for no more than the ends that were seen. -/
theorem sum_charge_le (duration : TaskId → Nat) (reports : List (Report S)) {tasks : List TaskId}
    (hnodup : tasks.Nodup) :
    (tasks.map fun t => (ofReports t reports).charge (duration t)).sum ≤
      Sight.charges duration (reports.map .report) := by
  induction reports with
  | nil => simp [charge, ofReports]
  | cons r reports ih =>
    have hone := sum_charge_report_le duration r hnodup
    have hsplit : (tasks.map fun t => (ofReports t (r :: reports)).charge (duration t)).sum =
        (tasks.map fun t => (ofReports t [r]).charge (duration t)).sum +
          (tasks.map fun t => (ofReports t reports).charge (duration t)).sum := by
      rw [← List.sum_map_add]
      exact congrArg _ (List.map_congr_left fun t _ => by rw [ofReports_cons, charge_add])
    rw [List.map_cons, Sight.charges, hsplit]
    omega

end Tally

/-! ### Timesteps in a row -/

namespace Executive

section Timesteps

variable {S R M : Type} [Scalar S] [UnitSource R S] [IndexSource R] [Performer M]

/-- The reports of so many timesteps in a row. -/
def trace (e : Executive S R M) (count : Nat) : List (Report S) :=
  e.callReports (List.replicate count .timestep)

theorem trace_succ (e : Executive S R M) (count : Nat) :
    e.trace (count + 1) = e.timestep.1 :: e.timestep.2.trace count := rfl

theorem length_trace (e : Executive S R M) (count : Nat) : (e.trace count).length = count := by
  induction count generalizing e with
  | zero => rfl
  | succ count ih => rw [trace_succ, List.length_cons, ih]

/-- Reports are numbered from the timesteps begun before. -/
theorem step_of_trace {e : Executive S R M} {count i : Nat} {r : Report S}
    (hr : (e.trace count)[i]? = some r) : r.step = e.step + i + 1 := by
  induction count generalizing e i with
  | zero => cases hr
  | succ count ih =>
    rw [trace_succ] at hr
    cases i with
    | zero =>
      cases hr
      exact e.step_timestep
    | succ i =>
      rw [List.getElem?_cons_succ] at hr
      rw [ih hr, e.step_timestep]
      omega

/-- More timesteps begin with the same reports. -/
theorem trace_prefix (e : Executive S R M) {count more : Nat} (h : count ≤ more) :
    e.trace count <+: e.trace more := by
  induction count generalizing e more with
  | zero => exact List.nil_prefix
  | succ count ih =>
    obtain ⟨more, rfl⟩ : ∃ m, more = m + 1 := ⟨more - 1, by omega⟩
    rw [trace_succ, trace_succ, List.prefix_cons_inj]
    exact ih e.timestep.2 (by omega)

/-- The timesteps of a trace are acts, and nothing is stopped among them. -/
theorem sights_timesteps (e : Executive S R M) (count : Nat) :
    e.sights (List.replicate count .timestep) = (e.trace count).map .report ∧
      (e.after (List.replicate count .timestep)).step = e.step + count := by
  induction count generalizing e with
  | zero => exact ⟨rfl, rfl⟩
  | succ count ih =>
    obtain ⟨hsights, hstep⟩ := ih e.timestep.2
    constructor
    · rw [trace_succ, List.map_cons, ← hsights]
      rfl
    · refine hstep.trans ?_
      rw [e.step_timestep]
      omega

end Timesteps

/-- **What has ended accounts for no more than the timesteps begun.** -/
theorem Timed.sum_charge_le {S R : Type} [Scalar S] [UnitSource R S] [IndexSource R]
    {duration : TaskId → Nat} {e : Executive S R} (h : e.Timed duration)
    (hidle : e.phase.isExecuting = false) {tasks : List TaskId} (hnodup : tasks.Nodup)
    (count : Nat) :
    (tasks.map fun t => (Tally.ofReports t (e.trace count)).charge (duration t)).sum ≤ count := by
  obtain ⟨hsights, hstep⟩ := e.sights_timesteps count
  have hafter := h.step_after (List.replicate count .timestep)
  have hcharge := Tally.sum_charge_le duration (e.trace count) hnodup
  rw [underway_of_not_executing hidle, hstep, hsights] at hafter
  omega

end Executive

namespace Simulation

variable {S R : Type} [Scalar S] [UnitSource R S] [IndexSource R] {s : Simulation S}
  {seeded : UInt64 → R}

/-- The timesteps that summaries account for: those that are laid down for every completion, and
one for every time that a task was given up. -/
def charged (s : Simulation S) (tasks : List (String × Summary S)) : Nat :=
  (s.config.tasks.map fun entry =>
    match tasks.lookup entry.name with
    | some total => total.completed * max 1 (durationOf entry) + total.aborted
    | none => 0).sum

/-- A traced run of an agent, and what else it tells. -/
structure Traced (s : Simulation S) (seeded : UInt64 → R) (agent steps : Nat)
    (run : AgentRun S) : Prop where
  agent_eq : run.agent = agent
  seed_eq : run.seed = s.agentSeed agent
  steps_eq : run.steps = steps
  /-- There is a report of every timestep. -/
  size_eq : run.reports.size = steps
  /-- The reports are numbered from one. -/
  step_eq : ∀ i r, run.reports[i]? = some r → r.step = i + 1
  /-- More timesteps begin with the same reports. -/
  isPrefix : ∀ more longer, steps ≤ more → s.runOn seeded agent more true = .ok longer →
    run.reports.toList <+: longer.reports.toList
  /-- A run that is not traced has the same summaries. -/
  untraced : s.runOn seeded agent steps false = .ok { run with reports := #[] }
  /-- It has them also if it counts as it goes. -/
  counted : s.countedRun seeded agent steps false = .ok { run with reports := #[] }
  /-- There is one summary for every name. -/
  names_perm : (run.tasks.map (·.1)).Perm (s.config.tasks.map (·.name))
  names_nodup : (run.tasks.map (·.1)).Nodup
  /-- A summary counts the ends of its task in the trace. -/
  counts : ∀ t entry, s.config.tasks[t]? = some entry →
    ∃ total, run.tasks.lookup entry.name = some total ∧
      total.completed = run.reports.countP (fun r => decide (r.phase = .completed t)) ∧
      total.aborted = run.reports.countP (fun r => decide (r.phase = .aborted t))
  /-- Summaries account for no more than the timesteps. -/
  charged_le : s.charged run.tasks ≤ steps

/-! ### When there is a run -/

theorem validate_of_start {config : Config S} {fresh : UInt64}
    (hstart : start config fresh = .ok s) :
    config.validate = .ok () ∧ s = { config := config, baseSeed := config.seed.getD fresh } := by
  obtain ⟨u, hvalid, rfl⟩ := Except.map_eq_ok_iff.mp hstart
  exact ⟨hvalid, rfl⟩

omit [UnitSource R S] in
/-- Every task that is built has its mechanism. -/
theorem exists_agentExecutive (seeded : UInt64 → R) (hvalid : s.config.validate = .ok ())
    {d : Decomposition S} (hd : s.config.decomposition = .ok d) (agent : Nat) :
    ∃ e, s.agentExecutive seeded agent = .ok e := by
  obtain ⟨-, -, -, hreflects, htree⟩ := Config.reflects_of_decomposition hd
  have hforest := d.forest_initFocus s.config.focus (seeded (s.agentSeed agent))
  unfold agentExecutive Config.executive
  simp only [hvalid, hd]
  refine ⟨_, Except.mapError_eq_ok_iff.mpr (Executive.start_eq_ok_iff.mpr ⟨?_, ?_, rfl⟩)⟩
  · rw [Decomposition.validate, hforest]
    exact htree
  · rw [hforest, hreflects.size_eq]
    simp

omit [UnitSource R S] in
theorem agentExecutive_eq_error (seeded : UInt64 → R) (hvalid : s.config.validate = .ok ())
    {error : TopologyError} (hd : s.config.decomposition = .error error) (agent : Nat) :
    s.agentExecutive seeded agent = .error (.topology error) := by
  unfold agentExecutive Config.executive
  simp only [hvalid, hd]

/-- **There is a run exactly if the tasks can be built**, whichever agent it is of. -/
theorem exists_run_iff (seeded : UInt64 → R) (hvalid : s.config.validate = .ok ())
    (agent steps : Nat) (keep : Bool) :
    (∃ run, s.runOn seeded agent steps keep = .ok run) ↔ ∃ d, s.config.decomposition = .ok d := by
  constructor
  · rintro ⟨run, hrun⟩
    obtain ⟨e, he, -⟩ := Except.map_eq_ok_iff.mp hrun
    obtain ⟨d, hd, -⟩ := exists_decomposition_of_agentExecutive he
    exact ⟨d, hd⟩
  · rintro ⟨d, hd⟩
    obtain ⟨e, he⟩ := exists_agentExecutive seeded hvalid hd agent
    exact ⟨_, Except.map_eq_ok_iff.mpr ⟨e, he, rfl⟩⟩

/-- If there is none, it is for the reason for which the tasks cannot be built. -/
theorem run_eq_error (hvalid : s.config.validate = .ok ()) {agent steps : Nat} {keep : Bool}
    {error : BuildError S} (hrun : s.runOn seeded agent steps keep = .error error) :
    ∃ reason, s.config.decomposition = .error reason ∧ error = .topology reason := by
  cases hd : s.config.decomposition with
  | ok d =>
    obtain ⟨run, hok⟩ := (exists_run_iff seeded hvalid agent steps keep).mpr ⟨d, hd⟩
    cases hok.symm.trans hrun
  | error reason =>
    refine ⟨reason, rfl, ?_⟩
    rw [runOn, agentExecutive_eq_error seeded hvalid hd agent] at hrun
    cases hrun
    rfl

/-- What a run of an agent is made of. -/
theorem exists_trace {agent : Nat} {e : Executive S R} (he : s.agentExecutive seeded agent = .ok e)
    (steps : Nat) : ∃ reports : Array (Report S), reports.toList = e.trace steps ∧
      ∀ keep, s.runOn seeded agent steps keep = .ok {
        agent := agent
        seed := s.agentSeed agent
        steps := steps
        tasks := summaries (e.afterCalls (List.replicate steps .timestep)).decomposition reports
        reports := if keep then reports else #[] } := by
  obtain ⟨hreports, hafter⟩ := Executive.timestepsFrom_eq e steps #[]
  refine ⟨(e.timesteps steps).1, hreports, fun keep => ?_⟩
  rw [runOn, he, ← hafter]
  rfl

/-! ### Traces, summaries and counts -/

section Summaries

variable {d d' : Decomposition S} (reports : Array (Report S))

/-- There is one summary for every name of the configuration, and no two tasks share one. -/
theorem names_summaries_perm
    (hreflects : s.config.Reflects s.config.tasks.length s.config.tasks.length d)
    (hout : d'.forest.outline = d.forest.outline) :
    ((summaries d' reports).map (·.1)).Perm (s.config.tasks.map (·.name)) ∧
      ((summaries d' reports).map (·.1)).Nodup := by
  have hperm := names_summaries d' reports
  rw [names_of_outline hreflects hout] at hperm
  exact ⟨hperm, hperm.nodup_iff.mpr hreflects.names_nodup⟩

/-- The summary of a task is found under its name, and counts the ends that the reports show. -/
theorem lookup_summaries
    (hreflects : s.config.Reflects s.config.tasks.length s.config.tasks.length d)
    (hcoherent : d'.Coherent) (hout : d'.forest.outline = d.forest.outline) {t : TaskId}
    {entry : TaskEntry S} (hentry : s.config.tasks[t]? = some entry) :
    ∃ total, (summaries d' reports).lookup entry.name = some total ∧
      total.completed = reports.countP (fun r => decide (r.phase = .completed t)) ∧
      total.aborted = reports.countP (fun r => decide (r.phase = .aborted t)) := by
  obtain ⟨task, htask, hname⟩ : ∃ task, d'.forest.task? t = some task ∧
      task.name = entry.name := by
    have hplace := congrArg (·[t]?) (names_of_outline hreflects hout)
    simp only [List.getElem?_map, hentry, Option.map_some] at hplace
    rw [Array.getElem?_toList] at hplace
    exact Option.map_eq_some_iff.mp hplace
  have hid : task.id = t := hcoherent.forest.id_eq t task htask
  refine ⟨summary reports task, ?_, ?_, ?_⟩
  · refine NameTable.lookup_eq_some (names_summaries_perm reports hreflects hout).2 ?_
    exact mem_summaries.mpr ⟨t, task, htask, hname, rfl⟩
  · rw [summary, hid]
  · rw [summary, hid]

/-- What the summaries account for is what the counts do, task by task. -/
theorem charged_summaries
    (hreflects : s.config.Reflects s.config.tasks.length s.config.tasks.length d)
    (hcoherent : d'.Coherent) (hout : d'.forest.outline = d.forest.outline) :
    s.charged (summaries d' reports) = ((List.range s.config.tasks.length).map fun t =>
      (Tally.ofReports t reports.toList).charge (s.durations t)).sum := by
  refine congrArg List.sum (List.ext_getElem? fun t => ?_)
  rw [List.getElem?_map, List.getElem?_map]
  cases hentry : s.config.tasks[t]? with
  | none =>
    have hge : s.config.tasks.length ≤ t := List.getElem?_eq_none_iff.mp hentry
    rw [List.getElem?_eq_none (by rwa [List.length_range])]
    rfl
  | some entry =>
    obtain ⟨total, hlookup, hcompleted, haborted⟩ :=
      lookup_summaries reports hreflects hcoherent hout hentry
    have hlt : t < s.config.tasks.length := (List.getElem?_eq_some_iff.mp hentry).1
    have hduration : s.durations t = durationOf entry := by
      rw [durations, hentry]
      rfl
    rw [List.getElem?_range hlt, Option.map_some, Option.map_some, hlookup]
    simp only [Tally.charge, Tally.ofReports, Array.countP_toList, hcompleted, haborted, hduration]

end Summaries

/-- **Traces, summaries and counts agree.** -/
theorem traced_of_run {agent steps : Nat} {run : AgentRun S}
    (hrun : s.runOn seeded agent steps true = .ok run) : s.Traced seeded agent steps run := by
  obtain ⟨e, he, -⟩ := Except.map_eq_ok_iff.mp hrun
  obtain ⟨d, hd, hforest, -, hidle, hstep, htimed⟩ := exists_decomposition_of_agentExecutive he
  obtain ⟨-, -, -, hreflects, -⟩ := Config.reflects_of_decomposition hd
  obtain ⟨reports, hreports, hruns⟩ := exists_trace he steps
  cases (hruns true).symm.trans hrun
  have hcoherent := (htimed.afterCalls (List.replicate steps .timestep)).equipped.coherent
  have hout := Decomposition.forest_outline_of_outline
    (e.outline_afterCalls (List.replicate steps .timestep))
  rw [hforest] at hout
  obtain ⟨hperm, hnodup⟩ := names_summaries_perm reports hreflects hout
  constructor
  case agent_eq => rfl
  case seed_eq => rfl
  case steps_eq => rfl
  case size_eq => exact (congrArg List.length hreports).trans (e.length_trace steps)
  case step_eq =>
    intro i r hr
    have hplace : (e.trace steps)[i]? = some r := by
      rw [← hreports, Array.getElem?_toList]
      exact hr
    rw [Executive.step_of_trace hplace, hstep]
    omega
  case isPrefix =>
    intro more longer hmore hlonger
    obtain ⟨reports', hreports', hruns'⟩ := exists_trace he more
    cases (hruns' true).symm.trans hlonger
    change reports.toList <+: reports'.toList
    rw [hreports, hreports']
    exact e.trace_prefix hmore
  case untraced => exact hruns false
  case counted => exact (s.countedRun_eq seeded agent steps false).trans (hruns false)
  case names_perm => exact hperm
  case names_nodup => exact hnodup
  case counts =>
    exact fun t entry hentry => lookup_summaries reports hreflects hcoherent hout hentry
  case charged_le =>
    refine (charged_summaries reports hreflects hcoherent hout).trans_le ?_
    rw [hreports]
    exact htimed.sum_charge_le (by rw [hidle]; rfl) List.nodup_range steps

/-! ### Seeds -/

omit [Scalar S] in
/-- The seed of an agent is that of the simulation plus its number, as far as there are seeds. -/
theorem toNat_agentSeed (s : Simulation S) (agent : Nat) :
    (s.agentSeed agent).toNat = (s.baseSeed.toNat + agent) % 2 ^ 64 := by
  rw [agentSeed, UInt64.toNat_add, UInt64.toNat_ofNat', Nat.add_mod_mod]

/-- Agents with one configuration and one seed have one run. -/
theorem run_eq_of_agentSeed {other : Simulation S} {agent k : Nat}
    (hconfig : other.config = s.config) (hseed : other.agentSeed k = s.agentSeed agent)
    (steps : Nat) (keep : Bool) :
    (other.runOn seeded k steps keep).map (fun run => { run with agent := agent }) =
      s.runOn seeded agent steps keep := by
  unfold runOn agentExecutive
  rw [hconfig, hseed]
  cases s.config.executive (seeded (s.agentSeed agent))
    (s.config.tasks.map mechanism).toArray with
  | error error => rfl
  | ok e => rfl

/-- **Summaries agree with traces.**  A simulation of a configuration that passes its checks has
runs of its agents exactly if the tasks of the configuration can be built, and otherwise every
agent reports why they cannot.  A traced run shows a report of every timestep, from one on, in
which longer runs begin alike; a run that is not traced comes to the same summaries, also if it
counts as it goes; and there is one summary for every task, which counts its ends in the trace.
Which run it is depends on the sum of the seed of the simulation and the number of the agent
alone. -/
theorem summaries_agree_with_traces {config : Config S} {fresh : UInt64}
    (hstart : start config fresh = .ok s) (seeded : UInt64 → R) (agent steps : Nat) :
    (∀ keep, (∃ run, s.runOn seeded agent steps keep = .ok run) ↔
        ∃ d, config.decomposition = .ok d) ∧
      (∀ keep error, s.runOn seeded agent steps keep = .error error →
        ∃ reason, config.decomposition = .error reason ∧ error = .topology reason) ∧
      (∀ run, s.runOn seeded agent steps true = .ok run → s.Traced seeded agent steps run) ∧
      (s.agentSeed agent).toNat = (s.baseSeed.toNat + agent) % 2 ^ 64 ∧
      (∀ (other : Simulation S) (k : Nat), other.config = config →
        other.agentSeed k = s.agentSeed agent → ∀ keep,
          (other.runOn seeded k steps keep).map (fun run => { run with agent := agent }) =
            s.runOn seeded agent steps keep) ∧
      ∀ keep, ((mk config (s.baseSeed + UInt64.ofNat agent)).runOn seeded 0 steps keep).map
          (fun run => { run with agent := agent }) = s.runOn seeded agent steps keep := by
  obtain ⟨hvalid, hs⟩ := validate_of_start hstart
  have hconfig : s.config = config := by rw [hs]
  rw [← hconfig] at hvalid
  refine ⟨fun keep => ?_, fun keep error herror => ?_, fun run => traced_of_run,
    s.toNat_agentSeed agent, fun other k hother hseed keep => ?_, fun keep => ?_⟩
  · rw [← hconfig]
    exact exists_run_iff seeded hvalid agent steps keep
  · rw [← hconfig]
    exact run_eq_error hvalid herror
  · exact run_eq_of_agentSeed (hother.trans hconfig.symm) hseed steps keep
  · refine run_eq_of_agentSeed hconfig.symm ?_ steps keep
    exact UInt64.add_zero _

/-- Three timesteps of the second agent of the standard configuration. -/
theorem summaries_agree_with_traces_standard :
    ∃ s run, start (Config.standard : Config Float) 7 = .ok s ∧
      s.runOn ChaCha.ofSeed 1 3 true = .ok run ∧ s.Traced ChaCha.ofSeed 1 3 run := by
  have hvalid : (Config.standard : Config Float).validate = .ok () := by decide +kernel
  have hstart : start (Config.standard : Config Float) 7 = .ok ⟨Config.standard, 7⟩ := by
    rw [start, hvalid]
    rfl
  have hbuilt : (Config.standard : Config Float).decomposition.isOk = true := by decide +kernel
  obtain ⟨hruns, -, htraced, -⟩ := summaries_agree_with_traces hstart ChaCha.ofSeed 1 3
  obtain ⟨run, hrun⟩ := (hruns true).mpr (Except.exists_of_isOk hbuilt)
  exact ⟨_, run, hstart, hrun, htraced run hrun⟩

end Simulation

end TaskAllocation
