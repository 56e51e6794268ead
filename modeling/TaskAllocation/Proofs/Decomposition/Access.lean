import TaskAllocation.Proofs.Decomposition.Growth

/-!
# Lookups that cannot miss

Moving the focus looks up blocks by their numbers, and the tasks that head them, without
asking whether the number is that of a block or a task; and any task is drawn from those
that there are, as if there always were some.  The functions here do the same work with
every such lookup left open, and have no result, `none`, where one misses.  In a coherent
decomposition none does: they all have a result, and it is that of the function they
stand for.

Lookups that report a failure, such as that of a task that a caller names, are not of this
kind: what comes of their failures is part of the result.

## Main definitions

* `Decomposition.head?` — the task that heads a block, if both lookups succeed.
* `Decomposition.checkedMoveFocus`, `Allocation.checkedNext` — moving the focus and choosing
  the next task, with every lookup open.

## Main results

* `Decomposition.Coherent.checkedMoveFocus_eq`, `Decomposition.Coherent.checkedNext_eq` — no
  lookup misses.
-/

namespace TaskAllocation

variable {S R : Type}

namespace Decomposition

/-- The task that heads a block: one lookup among the blocks, and one among the tasks. -/
def head? (d : Decomposition S) (k : BlockId) : Option (Task S) := do
  let b ← d.block? k
  d.forest.task? b.root

/-! ### Moving the focus -/

section Move

variable [Scalar S] (d : Decomposition S)

/-- The probabilities of staying, from the estimates of the two heads. -/
def checkedStayProbs (k : BlockId) (above : Option BlockId) : Option (StayProbs S) := do
  let here ← d.head? k
  let there ← match above with
    | some j => d.head? j
    | none => some here
  return {
    up := stayProb d.stayCurve here.estimate.value there.estimate.value
    down := stayProb d.stayCurve there.estimate.value here.estimate.value }

/-- The way that is open after task `t`.  Which it is goes into a message that names the
head of the block, which is looked up once more for it. -/
def checkedCrossing (k : BlockId) (t : TaskId) :
    Option (Except TopologyError (Option (Crossing S))) := do
  let b ← d.block? k
  match d.forest.task t with
  | .error e => return .error e
  | .ok task =>
    if (b.isRoot t && t == Forest.root) || (b.isPart t && !task.isSplit) then return .ok none
    else if !b.contains t then return .error (.notInBlock k t)
    else
      match d.above k with
      | .error e => return .error e
      | .ok above =>
        let stay ← d.checkedStayProbs k above
        let _ ← d.head? k
        return .ok (some { upward := b.isRoot t, above := above, stay := stay })

/-- Move the focus, or not, after task `t` has run.  A message about a move names the head of
the block that is reached. -/
def checkedMoveFocus [UnitSource R S] (t : TaskId) (source : R) :
    Option (Except TopologyError Unit × Decomposition S × R) :=
  match d.focus with
  | none => some (.ok (), d, source)
  | some k => do
    match ← d.checkedCrossing k t with
    | .error e => return (.error e, d, source)
    | .ok none => return (.ok (), d, source)
    | .ok (some c) =>
      let (draw, source) := (UnitSource.uniform source : S × R)
      let d := { d with lastStay := some c.stay }
      match d.destination k t c draw with
      | .error e => return (.error e, d, source)
      | .ok target =>
        unless target = k do
          let _ ← d.head? target
        return (.ok (), { d with focus := some target }, source)

end Move

namespace Coherent

variable {d : Decomposition S} {k : BlockId}

/-- A block is headed by a task. -/
theorem exists_head? (h : d.Coherent) (hk : k < d.blocks.size) :
    ∃ b task, d.block? k = some b ∧ d.forest.task? b.root = some task ∧ d.head? k = some task := by
  obtain ⟨b, hb⟩ := exists_block? hk
  obtain ⟨task, htask⟩ := h.exists_root hb
  exact ⟨b, task, hb, htask, by rw [head?, hb, Option.bind_eq_bind, Option.bind_some, htask]⟩

variable [Scalar S]

theorem exists_head?_estimate (h : d.Coherent) (hk : k < d.blocks.size) :
    ∃ task, d.head? k = some task ∧ task.estimate.value = d.blockEstimate k := by
  obtain ⟨b, task, hb, htask, hhead⟩ := h.exists_head? hk
  refine ⟨task, hhead, ?_⟩
  rw [blockEstimate, hb]
  simp only [Forest.estimate, htask]

theorem checkedStayProbs_eq (h : d.Coherent) (hk : k < d.blocks.size) {above : Option BlockId}
    (habove : ∀ j, above = some j → j < d.blocks.size) :
    d.checkedStayProbs k above = some (d.stayProbs k above) := by
  obtain ⟨here, hhere, hestimate⟩ := h.exists_head?_estimate hk
  cases above with
  | none => simp [checkedStayProbs, stayProbs, hhere, hestimate]
  | some j =>
    obtain ⟨there, hthere, hestimate'⟩ := h.exists_head?_estimate (habove j rfl)
    simp [checkedStayProbs, stayProbs, hhere, hthere, hestimate, hestimate']

theorem checkedCrossing_eq (h : d.Coherent) (hk : k < d.blocks.size) (t : TaskId) :
    d.checkedCrossing k t = some (d.crossing? k t) := by
  obtain ⟨b, task, hb, -, hhead⟩ := h.exists_head? hk
  obtain ⟨above, habove, -⟩ := h.exists_above hb
  have hstay : d.checkedStayProbs k above = some (d.stayProbs k above) := by
    refine h.checkedStayProbs_eq hk fun j hj => ?_
    rw [hj] at habove
    exact h.lt_size_of_above hb habove
  unfold checkedCrossing crossing?
  rw [block_eq_ok_iff.mpr hb, hb, habove]
  cases d.forest.task t with
  | error e => rfl
  | ok task =>
    simp only [Option.bind_some, hstay, hhead, bind, Except.bind]
    split
    · rfl
    · split
      · rfl
      · rfl

variable [UnitSource R S]

/-- **Moving the focus looks up nothing that is not there**, whichever task it follows. -/
theorem checkedMoveFocus_eq (h : d.Coherent) (t : TaskId) (source : R) :
    d.checkedMoveFocus t source = some (d.moveFocus t source) := by
  unfold checkedMoveFocus Decomposition.moveFocus
  cases hfocus : d.focus with
  | none => rfl
  | some k =>
    have hk := h.focus_lt k hfocus
    obtain ⟨b, hb⟩ := exists_block? hk
    simp only [h.checkedCrossing_eq hk, Option.bind_eq_bind, Option.bind_some]
    cases ht : b.contains t with
    | false =>
      simp only [crossing?_of_notMem hb ht, Option.pure_def]
    | true =>
      by_cases hsettled : d.IsSettled b t
      · simp only [h.crossing?_of_settled hb ht hsettled, Option.pure_def]
      · obtain ⟨above, habove, -⟩ := h.exists_above hb
        obtain ⟨target, htarget, hdest⟩ := h.exists_destination hb ht hsettled habove
          (d.stayProbs k above) (UnitSource.uniform source : S × R).1
        obtain ⟨_, task, -, -, hhead⟩ := h.exists_head? htarget
        -- where a way leads, and who heads the block there, depends on blocks and tasks alone
        have hdest' : ({ d with focus := some k, lastStay := some (d.stayProbs k above) } :
            Decomposition S).destination k t
              { upward := b.isRoot t, above := above, stay := d.stayProbs k above }
              (UnitSource.uniform source : S × R).1 = .ok target := hdest
        have hhead' : ({ d with focus := some k, lastStay := some (d.stayProbs k above) } :
            Decomposition S).head? target = some task := hhead
        simp only [h.crossing?_of_open hb ht hsettled habove, hdest', hhead']
        split
        · rfl
        · rfl

end Coherent

end Decomposition

namespace Allocation

/-! ### Choosing the next task -/

section Next

variable [Scalar S] (a : Allocation S) (d : Decomposition S)

/-- One step of the walk. -/
def checkedNeighbourStep [UnitSource R S] (t : TaskId) (source : R) :
    Option (Except TopologyError TaskId × Decomposition S × R) := do
  match ← d.checkedMoveFocus t source with
  | (.error e, d, source) => return (.error e, d, source)
  | (.ok (), d, source) =>
    match d.focus with
    | none => return (.error .noTasks, d, source)
    | some k => return a.partitioning.choose d k source

/-- The next task of the walk. -/
def checkedNeighbour [UnitSource R S] (t : TaskId) (source : R) :
    Option (TaskId × Decomposition S × R) :=
  match d.focus with
  | none => some (Forest.root, d, source)
  | some _ => do
    match ← a.checkedNeighbourStep d t source with
    | (.ok next, d, source) => return (next, d, source)
    | (.error _, d, source) => return (Forest.root, d.resetFocus, source)

/-- Any task, if there are tasks to draw from. -/
def checkedAnyTask [IndexSource R] (source : R) : Option (TaskId × R) :=
  if 0 < d.forest.size then some (anyTask d source) else none

/-- The task after `t`. -/
def checkedNext [IndexSource R] [UnitSource R S] (t : TaskId) (source : R) :
    Option (TaskId × Decomposition S × R) :=
  match a.policy with
  | .neighbour => a.checkedNeighbour d t source
  | .cheapest => some (cheapest d, d, source)
  | .random => do
    let (t, source) ← checkedAnyTask d source
    return (t, d, source)

end Next

end Allocation

namespace Decomposition.Coherent

variable [Scalar S] [UnitSource R S] {d : Decomposition S}

theorem checkedNeighbourStep_eq (h : d.Coherent) (a : Allocation S) (t : TaskId) (source : R) :
    a.checkedNeighbourStep d t source = some (a.neighbourStep d t source) := by
  unfold Allocation.checkedNeighbourStep Allocation.neighbourStep
  rw [h.checkedMoveFocus_eq, Option.bind_eq_bind, Option.bind_some]
  obtain ⟨_ | _, e, rest⟩ := d.moveFocus t source
  · rfl
  · dsimp only
    cases e.focus with
    | none => rfl
    | some k => rfl

theorem checkedNeighbour_eq (h : d.Coherent) (a : Allocation S) (t : TaskId) (source : R) :
    a.checkedNeighbour d t source = some (a.neighbour d t source) := by
  unfold Allocation.checkedNeighbour Allocation.neighbour
  cases d.focus with
  | none => rfl
  | some k =>
    dsimp only
    rw [h.checkedNeighbourStep_eq, Option.bind_eq_bind, Option.bind_some]
    obtain ⟨_ | _, e, rest⟩ := a.neighbourStep d t source
    · rfl
    · rfl

/-- **Choosing the next task looks up nothing that is not there**, whichever policy chooses it
and whatever it is to follow. -/
theorem checkedNext_eq [IndexSource R] (h : d.Coherent) (a : Allocation S) (t : TaskId)
    (source : R) : a.checkedNext d t source = some (a.next d t source) := by
  unfold Allocation.checkedNext Allocation.next
  cases a.policy with
  | neighbour => exact h.checkedNeighbour_eq a t source
  | cheapest => rfl
  | random =>
    dsimp only
    rw [Allocation.checkedAnyTask, if_pos h.size_pos, Option.bind_eq_bind, Option.bind_some]
    rfl

end Decomposition.Coherent

end TaskAllocation
