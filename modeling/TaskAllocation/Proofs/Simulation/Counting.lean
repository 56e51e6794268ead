import TaskAllocation.Proofs.NameTable
import TaskAllocation.Proofs.Simulation.Estimates

/-!
# Counting as a run goes

The summaries of a run are read off its reports.  A run whose reports are not kept has to
count as it goes: a tally for every task is moved whenever a timestep shows that a task has
ended, and in the end the tallies are entered under the names of their tasks into a table that
is kept in order.  Both ways lead to the same: no end is missed or counted twice, and
since no two tasks bear one name the table neither merges tasks nor loses any.

## Main definitions

* `Tally`, `Tally.move` — how often a task has ended so far.
* `Executive.countFrom` — run timesteps, moving tallies.
* `Simulation.countedRun` — run an agent, counting as the run goes.

## Main results

* `Tally.getElem?_foldl_move` — a tally counts the reports of its ends.
* `Simulation.countedRun_eq` — **counting as a run goes is counting in its reports.**
-/

namespace TaskAllocation

/-! ### Tallies -/

/-- How often a task has ended so far. -/
structure Tally where
  /-- How often it was completed. -/
  completed : Nat
  /-- How often it was given up. -/
  aborted : Nat
  deriving Repr, DecidableEq, Inhabited

namespace Tally

variable {S : Type}

/-- Move the tally of the task that a phase says has ended. -/
def move (tallies : Array Tally) : Phase → Array Tally
  | .completed t => tallies.modify t fun c => { c with completed := c.completed + 1 }
  | .aborted t => tallies.modify t fun c => { c with aborted := c.aborted + 1 }
  | _ => tallies

/-- The ends of a task that reports show. -/
def ofReports (t : TaskId) (reports : List (Report S)) : Tally where
  completed := reports.countP fun r => decide (r.phase = .completed t)
  aborted := reports.countP fun r => decide (r.phase = .aborted t)

/-- Both counts together. -/
def add (a b : Tally) : Tally where
  completed := a.completed + b.completed
  aborted := a.aborted + b.aborted

theorem zero_add (c : Tally) : ({ completed := 0, aborted := 0 } : Tally).add c = c := by
  simp [add]

theorem add_ofReports_nil (c : Tally) (t : TaskId) :
    c.add (ofReports t ([] : List (Report S))) = c := rfl

theorem add_ofReports_cons (c : Tally) (t : TaskId) (r : Report S) (reports : List (Report S)) :
    c.add (ofReports t (r :: reports)) = (c.add (ofReports t [r])).add (ofReports t reports) := by
  simp only [add, ofReports, List.countP_cons, List.countP_nil, Tally.mk.injEq]
  omega

/-- A tally is moved by the ends of its own task, and by no others. -/
theorem getElem?_move (tallies : Array Tally) (r : Report S) (t : TaskId) :
    (move tallies r.phase)[t]? = (tallies[t]?).map (·.add (ofReports t [r])) := by
  unfold move
  split
  · next u hu =>
    rw [Array.getElem?_modify]
    by_cases hut : u = t
    · simp [hut, hu, add, ofReports]
    · simp [hut, hu, add, ofReports]
  · next u hu =>
    rw [Array.getElem?_modify]
    by_cases hut : u = t
    · simp [hut, hu, add, ofReports]
    · simp [hut, hu, add, ofReports]
  · next hcompleted haborted =>
    have hnone : r.phase ≠ .completed t ∧ r.phase ≠ .aborted t := ⟨hcompleted t, haborted t⟩
    simp [add, ofReports, hnone]

/-- **A tally counts the reports of its ends.** -/
theorem getElem?_foldl_move (reports : List (Report S)) (tallies : Array Tally) (t : TaskId) :
    (reports.foldl (fun tallies r => move tallies r.phase) tallies)[t]? =
      (tallies[t]?).map (·.add (ofReports t reports)) := by
  induction reports generalizing tallies with
  | nil => simp [add_ofReports_nil]
  | cons r reports ih =>
    rw [List.foldl_cons, ih, getElem?_move, Option.map_map]
    exact congrArg (Option.map · _) (funext fun c => (c.add_ofReports_cons t r reports).symm)

end Tally

/-! ### A run that counts -/

namespace Executive

variable {S R M : Type} [Scalar S] [UnitSource R S] [IndexSource R] [Performer M]

/-- Run timesteps, moving tallies, and collect their reports if they are to be kept. -/
def countFrom (keep : Bool) : (count : Nat) → Array Tally → Array (Report S) →
    Executive S R M → Array Tally × Array (Report S) × Executive S R M
  | 0, tallies, reports, e => (tallies, reports, e)
  | count + 1, tallies, reports, e =>
    let (report, e) := e.timestep
    countFrom keep count (Tally.move tallies report.phase)
      (if keep then reports.push report else reports) e

/-- Tallies are moved by the reports that the same timesteps collect otherwise. -/
theorem countFrom_eq (e : Executive S R M) (keep : Bool) (count : Nat) (tallies : Array Tally)
    (reports : Array (Report S)) :
    countFrom keep count tallies reports e =
      ((e.callReports (List.replicate count .timestep)).foldl
          (fun tallies r => Tally.move tallies r.phase) tallies,
        if keep then (timestepsFrom count reports e).1 else reports,
        e.afterCalls (List.replicate count .timestep)) := by
  induction count generalizing e tallies reports with
  | zero =>
    cases keep with
    | true => rfl
    | false => rfl
  | succ count ih =>
    refine (ih e.timestep.2 _ _).trans ?_
    cases keep with
    | true => rfl
    | false => rfl

end Executive

namespace Simulation

variable {S R : Type} [Scalar S] [UnitSource R S] [IndexSource R]

/-- What a tally and the estimate of a task say in the end, under its name. -/
def entryOf (t : Task S) (c : Tally) : String × Summary S :=
  (t.name, { completed := c.completed, aborted := c.aborted, finalEstimate := t.estimate.value })

/-- Run an agent for a number of timesteps, counting as the run goes. -/
def countedRun (s : Simulation S) (seeded : UInt64 → R) (agent steps : Nat) (keepReports : Bool) :
    Except (BuildError S) (AgentRun S) :=
  (s.agentExecutive seeded agent).map fun e =>
    let tallies := Array.replicate e.decomposition.forest.size { completed := 0, aborted := 0 }
    let (tallies, reports, e) := e.countFrom keepReports steps tallies #[]
    { agent := agent
      seed := s.agentSeed agent
      steps := steps
      tasks := NameTable.ofList
        (List.zipWith entryOf e.decomposition.forest.tasks.toList tallies.toList)
      reports := reports }

omit [Scalar S] in
/-- Tallies that count the ends of their tasks are the summaries, under the names of the tasks. -/
theorem ofList_zipWith_eq {d : Decomposition S} (h : d.Coherent)
    (hnames : (d.forest.tasks.toList.map (·.name)).Nodup) (reports : Array (Report S))
    (tallies : Array Tally) (htallies : ∀ t, t < d.forest.size →
      tallies[t]? = some (Tally.ofReports t reports.toList)) :
    NameTable.ofList (List.zipWith entryOf d.forest.tasks.toList tallies.toList) =
      summaries d reports := by
  have hentries : List.zipWith entryOf d.forest.tasks.toList tallies.toList =
      d.forest.tasks.toList.map fun t => (t.name, summary reports t) := by
    refine List.ext_getElem? fun t => ?_
    rw [List.getElem?_zipWith, List.getElem?_map, Array.getElem?_toList, Array.getElem?_toList]
    cases htask : d.forest.tasks[t]? with
    | none => rfl
    | some task =>
      have hid : task.id = t := h.forest.id_eq t task htask
      rw [htallies t (Forest.lt_size_of_task? htask)]
      simp [entryOf, summary, Tally.ofReports, hid]
  rw [hentries, NameTable.ofList_eq_mergeSort]
  · rfl
  · rwa [List.map_map]

/-- **Counting as a run goes is counting in its reports.** -/
theorem countedRun_eq (s : Simulation S) (seeded : UInt64 → R) (agent steps : Nat)
    (keepReports : Bool) :
    s.countedRun seeded agent steps keepReports = s.runOn seeded agent steps keepReports := by
  unfold countedRun runOn
  cases he : s.agentExecutive seeded agent with
  | error error => rfl
  | ok e =>
    obtain ⟨d, hd, hforest, -, -, -, htimed⟩ := exists_decomposition_of_agentExecutive he
    obtain ⟨-, -, -, hreflects, -⟩ := Config.reflects_of_decomposition hd
    have hafter := htimed.afterCalls (List.replicate steps .timestep)
    have hout := Decomposition.forest_outline_of_outline
      (e.outline_afterCalls (List.replicate steps .timestep))
    have hsize := Forest.size_eq_of_outline hout
    obtain ⟨hreports, hend⟩ := Executive.timestepsFrom_eq e steps #[]
    have htallies : ∀ t, t < e.decomposition.forest.size →
        ((e.callReports (List.replicate steps .timestep)).foldl
            (fun tallies r => Tally.move tallies r.phase)
            (Array.replicate e.decomposition.forest.size { completed := 0, aborted := 0 }))[t]? =
          some (Tally.ofReports t (Executive.timestepsFrom steps #[] e).1.toList) := by
      intro t ht
      rw [Tally.getElem?_foldl_move, hreports, Array.getElem?_replicate, if_pos ht,
        Option.map_some, Tally.zero_add]
      rfl
    simp only [Except.map, e.countFrom_eq, Executive.timesteps, hend]
    rw [hforest] at hout
    have htasks := ofList_zipWith_eq hafter.equipped.coherent
      (by rw [names_of_outline hreflects hout]; exact hreflects.names_nodup)
      (Executive.timestepsFrom steps #[] e).1 _ fun t ht => htallies t (hsize ▸ ht)
    rw [htasks]

end Simulation

end TaskAllocation
