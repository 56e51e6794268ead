import TaskAllocation.Proofs.Decomposition.Outline
import TaskAllocation.Proofs.Executive.Focus

/-!
# What a timestep can do

A timestep is spent on the running task, or on one that is chosen now.  It ends in one of
three ways: the task is given up, runs to its end, or has got one timestep further.  What is
said about runs is read off these three, so the steps inside a timestep are looked at
here only.

## Main definitions

* `Executive.settings` — what no act changes.
* `Executive.engaged`, `Executive.engagedPlace` — the task that the next timestep is spent on,
  ready to run, and the block that has the focus then.
* `Executive.drawn`, `Executive.advanced` — an executive after the draw, and after its
  mechanism has moved.
* `Executive.placements` — the tasks that are chosen in a run, each with the block that has
  the focus then.

## Main results

* `Executive.work_cases`, `Executive.work_induction` — the ways in which a timestep ends.
* `Executive.exists_task?_finish` — what is recorded of a task that ends.
* `Executive.outline_act` — the outline stays.
* `Executive.isChain_placements` — from one choice to the next, and so along a run.
-/

namespace TaskAllocation

namespace Decomposition

variable {S : Type} {d e : Decomposition S} {t : TaskId}

theorem outline_noteAborted (d : Decomposition S) (t : TaskId) :
    (d.noteAborted t).outline = d.outline := by
  unfold noteAborted
  split
  · split
    · simp [outline]
    · rfl
  · rfl

/-- Only the part that was given up last may differ. -/
theorem exists_task?_noteAborted {u : TaskId} {task : Task S} (h : d.forest.task? u = some task) :
    ∃ part, (d.noteAborted t).forest.task? u = some { task with lastAborted := part } := by
  unfold noteAborted
  split
  · split
    · simp only [Forest.task?, Forest.noteAborted, Array.getElem?_modify]
      split
      · exact ⟨_, congrArg (Option.map _) h⟩
      · exact ⟨_, h⟩
    · exact ⟨_, h⟩
  · exact ⟨_, h⟩

variable [Scalar S] {measured : S} {learn : Bool}

theorem outline_record (h : d.record t measured learn = .ok e) : e.outline = d.outline := by
  obtain ⟨f, hf, rfl⟩ := Except.map_eq_ok_iff.mp h
  simp [outline, Forest.outline_of_record hf]

theorem task?_record (h : d.record t measured learn = .ok e) (u : TaskId) :
    e.forest.task? u =
      if u = t then (d.forest.task? u).map (·.record measured learn) else d.forest.task? u := by
  obtain ⟨f, hf, rfl⟩ := Except.map_eq_ok_iff.mp h
  obtain ⟨-, rfl⟩ := Forest.record_eq_ok_iff.mp hf
  simp only [Forest.task?, Array.getElem?_modify, eq_comm]

theorem record_eq_error {error : TopologyError} (h : d.record t measured learn = .error error) :
    d.forest.task? t = none := by
  cases ht : d.forest.task? t with
  | none => rfl
  | some task => simp [record, Forest.record, Forest.task_eq_ok_iff.mpr ht, Except.map] at h

end Decomposition

theorem Phase.task?_eq_some_iff {p : Phase} {t : TaskId} :
    p.task? = some t ↔ p = .executing t ∨ p = .completed t ∨ p = .aborted t := by
  cases p <;> simp [Phase.task?]

namespace Executive

variable {S R M : Type}

/-- Policies and curves, and whether the executive learns. -/
def settings (e : Executive S R M) : Allocation S × AbortCurve S × Bool :=
  (e.allocation, e.abortCurve, e.learns)

theorem allocation_of_settings {e e' : Executive S R M} (h : e'.settings = e.settings) :
    e'.allocation = e.allocation := congrArg Prod.fst h

theorem learns_of_settings {e e' : Executive S R M} (h : e'.settings = e.settings) :
    e'.learns = e.learns := congrArg (·.2.2) h

/-- A task that was chosen, and the block that has the focus then. -/
structure Placement where
  /-- The chosen task. -/
  task : TaskId
  /-- The block that has the focus. -/
  focus : Option BlockId
  deriving Repr, DecidableEq, Inhabited

/-- The task that the executive is about, where it was chosen. -/
def place? (e : Executive S R M) : Option Placement :=
  e.phase.task?.map fun t => { task := t, focus := e.decomposition.focus }

/-! ### Ending a task -/

section Finish

variable [Scalar S] (e : Executive S R M) (t : TaskId) (givenUp : Bool)

@[simp]
theorem phase_finish :
    (e.finish t givenUp).phase = if givenUp then .aborted t else .completed t := rfl

@[simp]
theorem elapsed_finish : (e.finish t givenUp).elapsed = e.elapsed := rfl

@[simp]
theorem mechanisms_finish : (e.finish t givenUp).mechanisms = e.mechanisms := rfl

/-- Ending a task records its time, and then perhaps that it was given up. -/
theorem exists_decomposition_finish : ∃ d,
    (e.finish t givenUp).decomposition = (if givenUp then d.noteAborted t else d) ∧
      (e.decomposition.record t (Scalar.ofNat e.elapsed) (e.learns && !givenUp) = .ok d ∨
        e.decomposition.forest.task? t = none ∧ d = e.decomposition) := by
  refine ⟨_, rfl, ?_⟩
  split
  · next d hrecord => exact .inl hrecord
  · next error hrecord => exact .inr ⟨Decomposition.record_eq_error hrecord, rfl⟩

/-- Blocks, focus and outline are those from before. -/
theorem finish_keeps : (e.finish t givenUp).decomposition.outline = e.decomposition.outline ∧
    (e.finish t givenUp).decomposition.blocks = e.decomposition.blocks ∧
    (e.finish t givenUp).decomposition.focus = e.decomposition.focus := by
  obtain ⟨d, hd, hrecord⟩ := exists_decomposition_finish e t givenUp
  have hkept : d.outline = e.decomposition.outline ∧ d.blocks = e.decomposition.blocks ∧
      d.focus = e.decomposition.focus := by
    rcases hrecord with hrecord | ⟨-, rfl⟩
    · exact ⟨Decomposition.outline_record hrecord, Decomposition.record_blocks_focus hrecord⟩
    · exact ⟨rfl, rfl, rfl⟩
  rw [hd]
  cases givenUp with
  | false => exact hkept
  | true =>
    obtain ⟨houtline, hblocks, hfocus⟩ := hkept
    obtain ⟨hblocks', hfocus'⟩ := d.noteAborted_blocks_focus t
    exact ⟨(d.outline_noteAborted t).trans houtline, hblocks'.trans hblocks, hfocus'.trans hfocus⟩

variable {e} in
/-- Giving up does nothing unless a task is running. -/
theorem abortCurrent_of_not_executing (h : e.phase.isExecuting = false) :
    e.abortCurrent = (none, e) := by
  unfold abortCurrent
  split
  · next t ht =>
    rw [ht] at h
    cases h
  · rfl

variable {e t} in
theorem abortCurrent_of_executing (h : e.phase = .executing t) :
    e.abortCurrent = (some t, e.finish t true) := by
  simp [abortCurrent, h]

theorem outline_abortCurrent :
    e.abortCurrent.2.decomposition.outline = e.decomposition.outline := by
  unfold abortCurrent
  split
  · exact (finish_keeps e _ true).1
  · rfl

theorem settings_abortCurrent : e.abortCurrent.2.settings = e.settings := by
  unfold abortCurrent
  split
  · rfl
  · rfl

theorem step_abortCurrent : e.abortCurrent.2.step = e.step := by
  unfold abortCurrent
  split
  · rfl
  · rfl

/-- The executive is still about the same task, and the focus stays. -/
theorem abortCurrent_keeps : e.abortCurrent.2.decomposition.focus = e.decomposition.focus ∧
    e.abortCurrent.2.phase.task? = e.phase.task? := by
  unfold abortCurrent
  split
  · next t ht => exact ⟨(finish_keeps e t true).2.2, by rw [ht]; rfl⟩
  · exact ⟨rfl, rfl⟩

theorem place?_abortCurrent : e.abortCurrent.2.place? = e.place? := by
  obtain ⟨hfocus, htask⟩ := e.abortCurrent_keeps
  rw [place?, place?, hfocus, htask]

/-- **What is recorded of a task that ends**: its time, and in the estimate only if it was
completed and the executive learns.  Of other tasks nothing is recorded. -/
theorem exists_task?_finish {u : TaskId} {task : Task S}
    (htask : e.decomposition.forest.task? u = some task) :
    ∃ task', (e.finish t givenUp).decomposition.forest.task? u = some task' ∧
      task'.estimate = (if u = t ∧ e.learns ∧ givenUp = false then
        task.estimate.update (Scalar.ofNat e.elapsed) else task.estimate) ∧
      task'.lastExecTime = if u = t then Scalar.ofNat e.elapsed else task.lastExecTime := by
  obtain ⟨d, hd, hrecord⟩ := exists_decomposition_finish e t givenUp
  obtain ⟨task', htask', hestimate, htime⟩ : ∃ task', d.forest.task? u = some task' ∧
      task'.estimate = (if u = t ∧ e.learns ∧ givenUp = false then
        task.estimate.update (Scalar.ofNat e.elapsed) else task.estimate) ∧
      task'.lastExecTime = if u = t then Scalar.ofNat e.elapsed else task.lastExecTime := by
    rcases hrecord with hrecord | ⟨hnone, rfl⟩
    · rw [Decomposition.task?_record hrecord, htask]
      by_cases hu : u = t
      · exact ⟨_, if_pos hu, by simp [hu, Task.record], by simp [hu, Task.record]⟩
      · exact ⟨task, if_neg hu, by simp [hu], by simp [hu]⟩
    · -- a task that is none leaves the others alone
      have hu : u ≠ t := by
        rintro rfl
        cases htask.symm.trans hnone
      exact ⟨task, htask, by simp [hu], by simp [hu]⟩
  rw [hd]
  cases givenUp with
  | false => exact ⟨task', htask', hestimate, htime⟩
  | true =>
    obtain ⟨part, hpart⟩ := Decomposition.exists_task?_noteAborted (t := t) htask'
    exact ⟨_, hpart, hestimate, htime⟩

end Finish

/-! ### Working -/

/-- An executive after the mechanism `m` of task `t` has done a timestep. -/
def advanced [Performer M] (e : Executive S R M) (t : TaskId) (m : M) : Executive S R M :=
  { e with
    mechanisms := e.mechanisms.setIfInBounds t (Performer.execute m)
    elapsed := e.elapsed + 1 }

theorem getElem?_mechanisms_advanced [Performer M] {e : Executive S R M} {t : TaskId} {m : M}
    (hm : e.mechanisms[t]? = some m) (u : TaskId) : (e.advanced t m).mechanisms[u]? =
      if t = u then some (Performer.execute m) else e.mechanisms[u]? := by
  have hlt := (Array.getElem?_eq_some_iff.mp hm).1
  simp only [advanced, Array.getElem?_setIfInBounds, hlt, if_true]

section Work

variable [Scalar S] [UnitSource R S]

/-- An executive after the draw about task `t`. -/
def drawn (e : Executive S R M) (t : TaskId) : Executive S R M :=
  { e with
    abortProb := e.abortCurve.prob (Scalar.ofNat e.elapsed) (e.decomposition.forest.estimate t)
    source := (UnitSource.uniform e.source : S × R).2 }

variable [Performer M]

/-- **The ways in which a timestep ends.**  The task is given up, it runs to its end, or it is
carried on. -/
theorem work_cases {e : Executive S R M} {t : TaskId} {m : M} (hm : e.mechanisms[t]? = some m) :
    e.work t = (e.drawn t).finish t true ∨
      (Performer.isFinished (Performer.execute m) = true ∧
        e.work t = ((e.drawn t).advanced t m).finish t false) ∨
      (Performer.isFinished (Performer.execute m) = false ∧
        e.work t = (e.drawn t).advanced t m) := by
  unfold work
  dsimp only
  split
  · exact .inl rfl
  · right
    simp only [carryOn, hm]
    split
    · next hdone => exact .inl ⟨hdone, rfl⟩
    · next hdone => exact .inr ⟨by simpa using hdone, rfl⟩

theorem work_of_none {e : Executive S R M} {t : TaskId} (hm : e.mechanisms[t]? = none) :
    e.work t = (e.drawn t).finish t true ∨ e.work t = e.drawn t := by
  unfold work
  dsimp only
  split
  · exact .inl rfl
  · simp only [carryOn, hm]
    exact .inr rfl

/-- What holds however a timestep ends, also if there is no mechanism, holds after it. -/
@[elab_as_elim]
theorem work_induction {motive : Executive S R M → Prop} (e : Executive S R M) (t : TaskId)
    (aborted : motive ((e.drawn t).finish t true))
    (completed : ∀ m, motive (((e.drawn t).advanced t m).finish t false))
    (carried : ∀ m, motive ((e.drawn t).advanced t m)) (still : motive (e.drawn t)) :
    motive (e.work t) := by
  cases hm : e.mechanisms[t]? with
  | none =>
    rcases work_of_none hm with hw | hw
    · exact hw ▸ aborted
    · exact hw ▸ still
  | some m =>
    rcases work_cases hm with hw | ⟨-, hw⟩ | ⟨-, hw⟩
    · exact hw ▸ aborted
    · exact hw ▸ completed m
    · exact hw ▸ carried m

theorem settings_work (e : Executive S R M) (t : TaskId) : (e.work t).settings = e.settings :=
  work_induction e t rfl (fun _ => rfl) (fun _ => rfl) rfl

theorem step_work (e : Executive S R M) (t : TaskId) : (e.work t).step = e.step :=
  work_induction e t rfl (fun _ => rfl) (fun _ => rfl) rfl

/-- Blocks, focus and outline are those from before, and the task is still the one that the
executive is about. -/
theorem work_keeps {e : Executive S R M} {t : TaskId} (hphase : e.phase = .executing t) :
    (e.work t).decomposition.outline = e.decomposition.outline ∧
      (e.work t).decomposition.blocks = e.decomposition.blocks ∧
      (e.work t).decomposition.focus = e.decomposition.focus ∧
      (e.work t).phase.task? = some t := by
  have hrunning : e.phase.task? = some t := by rw [hphase]; rfl
  refine work_induction e t ?_ (fun m => ?_) (fun m => ?_) ?_
  · obtain ⟨houtline, hblocks, hfocus⟩ := finish_keeps (e.drawn t) t true
    exact ⟨houtline, hblocks, hfocus, rfl⟩
  · obtain ⟨houtline, hblocks, hfocus⟩ := finish_keeps ((e.drawn t).advanced t m) t false
    exact ⟨houtline, hblocks, hfocus, rfl⟩
  · exact ⟨rfl, rfl, rfl, hrunning⟩
  · exact ⟨rfl, rfl, rfl, hrunning⟩

end Work

/-! ### Engaging a task -/

section Engage

variable [Scalar S] [UnitSource R S] [IndexSource R]

theorem rearranged_nextTask (e : Executive S R M) (last : Option TaskId) :
    e.decomposition.Rearranged (e.nextTask last).2.decomposition := by
  cases last with
  | none => exact Decomposition.rearranged_first e.allocation e.decomposition e.source
  | some t => exact Decomposition.rearranged_next e.allocation e.decomposition t e.source

variable [Performer M]

/-- The task that the next timestep is spent on, and the executive that is to run it. -/
def engaged (e : Executive S R M) : TaskId × Executive S R M :=
  { e with step := e.step + 1 }.engage

/-- That task, with the block that has the focus then. -/
def engagedPlace (e : Executive S R M) : Placement where
  task := e.engaged.1
  focus := e.engaged.2.decomposition.focus

theorem timestep_eq (e : Executive S R M) : e.timestep =
    ((e.engaged.2.work e.engaged.1).report e.engaged.1, e.engaged.2.work e.engaged.1) := rfl

theorem engaged_of_executing {e : Executive S R M} {t : TaskId} (h : e.phase = .executing t) :
    e.engaged = (t, { e with step := e.step + 1 }) := by
  simp [engaged, engage, h]

theorem engagedPlace_of_executing {e : Executive S R M} {t : TaskId} (h : e.phase = .executing t) :
    e.engagedPlace = { task := t, focus := e.decomposition.focus } := by
  rw [engagedPlace, engaged_of_executing h]

theorem engaged_of_not_executing {e : Executive S R M} (h : e.phase.isExecuting = false) :
    e.engaged = { e with step := e.step + 1 }.allocate := by
  unfold engaged engage
  split
  · next t ht =>
    change e.phase = .executing t at ht
    rw [ht] at h
    cases h
  · rfl

/-- The first task of all is engaged as it is chosen. -/
theorem engaged_of_choose {e : Executive S R M} (h : e.phase.isExecuting = false)
    (hlast : e.last = none) {k : BlockId} (hfocus : e.decomposition.focus = some k) {t : TaskId}
    {d : Decomposition S} {source : R}
    (hchoose : e.allocation.partitioning.choose e.decomposition k e.source = (.ok t, d, source)) :
    e.engaged.1 = t ∧ e.engaged.2.decomposition = d := by
  rw [engaged_of_not_executing h]
  simp [allocate, nextTask, hlast, Allocation.first, hfocus, hchoose]

/-- Every later task of a walk is engaged as a step leads to it. -/
theorem engaged_of_neighbourStep {e : Executive S R M} (h : e.phase.isExecuting = false)
    (hpolicy : e.allocation.policy = .neighbour) {last : TaskId} (hlast : e.last = some last)
    {k : BlockId} (hfocus : e.decomposition.focus = some k) {t : TaskId} {d : Decomposition S}
    {source : R}
    (hstep : e.allocation.neighbourStep e.decomposition last e.source = (.ok t, d, source)) :
    e.engaged.1 = t ∧ e.engaged.2.decomposition = d := by
  rw [engaged_of_not_executing h]
  simp [allocate, nextTask, hlast, Allocation.next, hpolicy, Allocation.neighbour, hfocus, hstep]

/-- The mechanism of a task that is chosen starts again. -/
theorem getElem?_mechanisms_engaged {e : Executive S R M} (h : e.phase.isExecuting = false)
    (u : TaskId) : e.engaged.2.mechanisms[u]? =
      if e.engaged.1 = u then (e.mechanisms[u]?).map Performer.reset else e.mechanisms[u]? := by
  rw [engaged_of_not_executing h]
  exact Array.getElem?_modify

theorem current_engaged {e : Executive S R M} (h : e.phase.isExecuting = false) :
    e.engaged.2.current = some e.engaged.1 := by
  rw [engaged_of_not_executing h]
  rfl

theorem elapsed_engaged {e : Executive S R M} (h : e.phase.isExecuting = false) :
    e.engaged.2.elapsed = 0 := by
  rw [engaged_of_not_executing h]
  rfl

theorem exists_executing {p : Phase} (h : p.isExecuting = true) : ∃ t, p = .executing t := by
  cases p with
  | executing t => exact ⟨t, rfl⟩
  | _ => cases h

theorem phase_engaged (e : Executive S R M) : e.engaged.2.phase = .executing e.engaged.1 := by
  cases h : e.phase.isExecuting with
  | true =>
    obtain ⟨t, ht⟩ := exists_executing h
    rw [engaged_of_executing ht]
    exact ht
  | false =>
    rw [engaged_of_not_executing h]
    rfl

theorem outline_engaged (e : Executive S R M) :
    e.engaged.2.decomposition.outline = e.decomposition.outline := by
  cases h : e.phase.isExecuting with
  | true =>
    obtain ⟨t, ht⟩ := exists_executing h
    rw [engaged_of_executing ht]
  | false =>
    rw [engaged_of_not_executing h]
    exact (rearranged_nextTask _ e.last).outline_eq

/-- Choosing leaves the tasks alone, with all that they remember. -/
theorem forest_engaged (e : Executive S R M) :
    e.engaged.2.decomposition.forest = e.decomposition.forest := by
  cases h : e.phase.isExecuting with
  | true =>
    obtain ⟨t, ht⟩ := exists_executing h
    rw [engaged_of_executing ht]
  | false =>
    rw [engaged_of_not_executing h]
    exact (rearranged_nextTask _ e.last).forest

theorem settings_engaged (e : Executive S R M) : e.engaged.2.settings = e.settings := by
  cases h : e.phase.isExecuting with
  | true =>
    obtain ⟨t, ht⟩ := exists_executing h
    rw [engaged_of_executing ht]
    rfl
  | false =>
    rw [engaged_of_not_executing h]
    rfl

theorem step_engaged (e : Executive S R M) : e.engaged.2.step = e.step + 1 := by
  cases h : e.phase.isExecuting with
  | true =>
    obtain ⟨t, ht⟩ := exists_executing h
    rw [engaged_of_executing ht]
  | false =>
    rw [engaged_of_not_executing h]
    rfl

theorem step_timestep (e : Executive S R M) : e.timestep.2.step = e.step + 1 :=
  (step_work _ _).trans e.step_engaged

/-- What a timestep leaves of the executive that ran it. -/
theorem timestep_keeps (e : Executive S R M) :
    e.timestep.2.decomposition.outline = e.decomposition.outline ∧
      e.timestep.2.decomposition.blocks = e.engaged.2.decomposition.blocks ∧
      e.timestep.2.decomposition.focus = e.engaged.2.decomposition.focus ∧
      e.timestep.2.phase.task? = some e.engaged.1 := by
  obtain ⟨houtline, hblocks, hfocus, htask⟩ := work_keeps e.phase_engaged
  exact ⟨houtline.trans e.outline_engaged, hblocks, hfocus, htask⟩

theorem outline_act (e : Executive S R M) (act : Act) :
    (e.act act).decomposition.outline = e.decomposition.outline := by
  cases act with
  | timestep => exact e.timestep_keeps.1
  | abortCurrent => exact e.outline_abortCurrent

theorem settings_timestep (e : Executive S R M) : e.timestep.2.settings = e.settings :=
  (settings_work _ _).trans e.settings_engaged

theorem settings_act (e : Executive S R M) (act : Act) : (e.act act).settings = e.settings := by
  cases act with
  | timestep => exact e.settings_timestep
  | abortCurrent => exact e.settings_abortCurrent

/-! ### The tasks that are chosen -/

/-- What the next timestep chooses, if it has to. -/
def placement? (e : Executive S R M) : Option Placement :=
  if e.phase.isExecuting then none
  else
    let (t, e) := { e with step := e.step + 1 }.allocate
    some { task := t, focus := e.decomposition.focus }

/-- The tasks that are chosen during a sequence of acts, one after another. -/
def placements (e : Executive S R M) : List Act → List Placement
  | [] => []
  | .timestep :: acts => e.placement?.toList ++ (e.act .timestep).placements acts
  | .abortCurrent :: acts => (e.act .abortCurrent).placements acts

theorem placement?_of_executing {e : Executive S R M} (h : e.phase.isExecuting = true) :
    e.placement? = none := if_pos h

theorem placement?_of_not_executing {e : Executive S R M} (h : e.phase.isExecuting = false) :
    e.placement? = some e.engagedPlace := by
  rw [engagedPlace, engaged_of_not_executing h]
  exact if_neg (by simp [h])

theorem place?_timestep (e : Executive S R M) : e.timestep.2.place? = some e.engagedPlace := by
  obtain ⟨-, -, hfocus, htask⟩ := e.timestep_keeps
  rw [place?, htask, hfocus]
  rfl

/-- **What holds from one choice to the next holds all along a run.**  Between two choices
the executive is about the task that was chosen first, and the focus stays where it was. -/
theorem isChain_placements (Inv : Executive S R M → Prop) (Next : Placement → Placement → Prop)
    (hact : ∀ e act, Inv e → Inv (e.act act))
    (hnext : ∀ e, Inv e → e.phase.isExecuting = false → ∀ p, e.place? = some p →
      Next p e.engagedPlace)
    {e : Executive S R M} (h : Inv e) (acts : List Act) :
    (e.place?.toList ++ e.placements acts).IsChain Next := by
  induction acts generalizing e with
  | nil =>
    cases e.place? with
    | none => exact .nil
    | some p => exact .singleton p
  | cons act acts ih =>
    have hrest := ih (hact e act h)
    cases act with
    | abortCurrent =>
      change (e.abortCurrent.2.place?.toList ++ _).IsChain Next at hrest
      rwa [place?_abortCurrent] at hrest
    | timestep =>
      change (e.timestep.2.place?.toList ++ _).IsChain Next at hrest
      rw [place?_timestep, Option.toList_some, List.singleton_append] at hrest
      cases hexec : e.phase.isExecuting with
      | true =>
        -- the task was chosen before
        obtain ⟨t, ht⟩ := exists_executing hexec
        rw [engagedPlace_of_executing ht] at hrest
        rw [placements, placement?_of_executing hexec, place?, ht]
        exact hrest
      | false =>
        rw [placements, placement?_of_not_executing hexec]
        cases hplace : e.place? with
        | none => exact hrest
        | some p => exact List.IsChain.cons_cons (hnext e h hexec p hplace) hrest

end Engage

end Executive

/-! ### An executive to look at -/

/-- A root of two parts, the first of which is split again. -/
def Decomposition.twoLevels : Decomposition Float :=
  (Decomposition.single ⟨"root", 0.5, 4⟩ default).run
    ([.add ⟨"left", 0.5, 2⟩, .add ⟨"right", 0.5, 2⟩, .add ⟨"low", 0.5, 1⟩, .add ⟨"high", 0.5, 1⟩,
      .split 0 [1, 2], .split 1 [3, 4]] : List (Decomposition.Call Float ScriptedWords))

/-- An executive for these tasks, with mechanisms of given durations. -/
def Executive.startTwoLevels (policy : AllocationPolicy) (words : List UInt64)
    (durations : Array Nat) : Except ExecutiveError (Executive Float ScriptedWords) :=
  start Decomposition.twoLevels ⟨policy, default⟩ default true ⟨words⟩ (durations.map .lasting)

theorem Executive.exists_startTwoLevels (policy : AllocationPolicy) (words : List UInt64)
    (durations : Array Nat) (hsize : durations.size = 5) :
    ∃ e, startTwoLevels policy words durations = .ok e := by
  refine ⟨_, start_eq_ok_iff.mpr ⟨?_, ?_, rfl⟩⟩
  · decide +kernel
  · rw [Array.size_map, hsize]
    decide +kernel

end TaskAllocation
