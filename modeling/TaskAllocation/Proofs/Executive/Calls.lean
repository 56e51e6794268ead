import TaskAllocation.Proofs.Executive.Timestep

/-!
# Executives under all their calls

From outside an executive is asked for timesteps, told to give up its task, or asked for a
next task without running it, after any task or none.  Whatever comes, tasks and blocks agree
and every task has its mechanism; so what is chosen is a task, whichever policy chooses it,
and what is chosen can be run.

## Main definitions

* `Executive.Call`, `Executive.call`, `Executive.afterCalls`, `Executive.callReports` —
  calls in any order.
* `Executive.Equipped` — tasks and blocks agree, and every task has its mechanism.

## Main results

* `Decomposition.Coherent.lt_size_of_next`, `Decomposition.Coherent.lt_size_of_first` — what is
  chosen is a task.
* `Executive.Equipped.call` — every call keeps an executive equipped.
-/

namespace TaskAllocation

namespace Decomposition.Coherent

variable {S R : Type} {d : Decomposition S} [Scalar S]

/-! ### What is chosen is a task -/

theorem cheaper_mem {best : Option (Task S)} {t : Task S} {tasks : List (Task S)}
    (hbest : ∀ b, best = some b → b ∈ tasks) (ht : t ∈ tasks) :
    ∀ b, Allocation.cheaper best t = some b → b ∈ tasks := by
  intro b hb
  unfold Allocation.cheaper at hb
  split at hb
  · split at hb
    · cases hb
      exact ht
    · exact hbest b hb
  · cases hb
    exact ht

theorem foldl_cheaper_mem {tasks : List (Task S)} :
    ∀ b, tasks.foldl Allocation.cheaper none = some b → b ∈ tasks := by
  -- the cheapest task so far is one of them all
  have hfold : ∀ (rest : List (Task S)) (best : Option (Task S)),
      (∀ t ∈ rest, t ∈ tasks) → (∀ b, best = some b → b ∈ tasks) →
        ∀ b, rest.foldl Allocation.cheaper best = some b → b ∈ tasks := by
    intro rest
    induction rest with
    | nil => exact fun _ _ hbest => hbest
    | cons t rest ih =>
      intro best hrest hbest
      exact ih _ (fun u hu => hrest u (List.mem_cons_of_mem t hu))
        (cheaper_mem hbest (hrest t List.mem_cons_self))
  exact hfold tasks none (fun _ ht => ht) fun _ hnone => nomatch hnone

theorem lt_size_of_cheapest (h : d.Coherent) : Allocation.cheapest d < d.forest.size := by
  unfold Allocation.cheapest
  split
  · next task htask =>
    obtain ⟨t, ht⟩ := List.mem_iff_getElem?.mp (foldl_cheaper_mem task htask)
    rw [Array.getElem?_toList] at ht
    rw [h.forest.id_eq t task ht]
    exact Forest.lt_size_of_task? ht
  · exact h.size_pos

section Draws

variable [UnitSource R S]

theorem lt_size_of_choose (h : d.Coherent) {p : Partitioning S} {k : BlockId} {source rest : R}
    {t : TaskId} {e : Decomposition S} (hchoose : p.choose d k source = (.ok t, e, rest)) :
    t < d.forest.size := by
  rcases Nat.lt_or_ge k d.blocks.size with hlt | hge
  · obtain ⟨b, hb⟩ := exists_block? hlt
    obtain ⟨root, -, hok⟩ := h.choose_of_block p hb source
    have ht : (p.drawFrom d b root source).1.task = t := by
      simpa using congrArg Prod.fst (hok.symm.trans hchoose)
    rw [← ht]
    exact h.lt_size_of_contains hb (contains_draw b _ _ source)
  · have hfails := (choose_of_size_le p hge source).symm.trans hchoose
    cases congrArg Prod.fst hfails

theorem lt_size_of_neighbourStep (h : d.Coherent) {a : Allocation S} {t next : TaskId}
    {source rest : R} {e : Decomposition S}
    (hstep : a.neighbourStep d t source = (.ok next, e, rest)) : next < d.forest.size := by
  obtain ⟨hcoherent, -, hforest⟩ := h.moveFocus t source
  unfold Allocation.neighbourStep at hstep
  generalize d.moveFocus t source = moved at hstep hcoherent hforest
  obtain ⟨_ | _, d', source'⟩ := moved
  · cases hstep
  · simp only at hstep hforest
    split at hstep
    · cases hstep
    · have hlt := hcoherent.lt_size_of_choose hstep
      rwa [hforest] at hlt

theorem lt_size_of_first (h : d.Coherent) (a : Allocation S) (source : R) :
    (a.first d source).1 < d.forest.size := by
  unfold Allocation.first
  split
  · exact h.size_pos
  · split
    · next hchoose => exact h.lt_size_of_choose hchoose
    · exact h.size_pos

theorem lt_size_of_neighbour (h : d.Coherent) (a : Allocation S) (t : TaskId) (source : R) :
    (a.neighbour d t source).1 < d.forest.size := by
  unfold Allocation.neighbour
  split
  · exact h.size_pos
  · split
    · next hstep => exact h.lt_size_of_neighbourStep hstep
    · exact h.size_pos

theorem first (h : d.Coherent) (a : Allocation S) (source : R) :
    (a.first d source).2.1.Coherent := by
  unfold Allocation.first
  split
  · exact h
  next k _ =>
    have hchoose := h.choose a.partitioning k source
    generalize a.partitioning.choose d k source = chosen at hchoose
    obtain ⟨_ | _, e, rest⟩ := chosen
    · exact hchoose
    · exact hchoose

variable [IndexSource R]

/-- **What is chosen after a task is a task**, whichever policy chooses it and whatever it is
to follow. -/
theorem lt_size_of_next (h : d.Coherent) (a : Allocation S) (t : TaskId) (source : R) :
    (a.next d t source).1 < d.forest.size := by
  unfold Allocation.next
  cases a.policy with
  | neighbour => exact h.lt_size_of_neighbour a t source
  | cheapest => exact h.lt_size_of_cheapest
  | random => exact IndexSource.below_lt source h.size_pos

end Draws

end Decomposition.Coherent

namespace Executive

variable {S R M : Type}

/-! ### Calls -/

/-- What may be asked of an executive. -/
inductive Call where
  /-- Run a timestep. -/
  | timestep
  /-- Give up the running task. -/
  | abortCurrent
  /-- Choose the task after another, or the first task, without running it. -/
  | nextTask (last : Option TaskId)
  deriving Repr, DecidableEq, Inhabited

section Calls

variable [Scalar S] [UnitSource R S] [IndexSource R] [Performer M]

/-- The executive after a call. -/
def call (e : Executive S R M) : Call → Executive S R M
  | .timestep => e.timestep.2
  | .abortCurrent => e.abortCurrent.2
  | .nextTask last => (e.nextTask last).2

/-- The executive after a sequence of calls. -/
def afterCalls (e : Executive S R M) (calls : List Call) : Executive S R M := calls.foldl call e

/-- The reports of the timesteps among a sequence of calls. -/
def callReports (e : Executive S R M) : List Call → List (Report S)
  | [] => []
  | .timestep :: calls => e.timestep.1 :: (e.call .timestep).callReports calls
  | .abortCurrent :: calls => (e.call .abortCurrent).callReports calls
  | .nextTask last :: calls => (e.call (.nextTask last)).callReports calls

/-- Calls leave the outline alone. -/
theorem outline_call (e : Executive S R M) (call : Call) :
    (e.call call).decomposition.outline = e.decomposition.outline := by
  cases call with
  | timestep => exact e.timestep_keeps.1
  | abortCurrent => exact e.outline_abortCurrent
  | nextTask last => exact (e.rearranged_nextTask last).outline_eq

theorem outline_afterCalls (e : Executive S R M) (calls : List Call) :
    (e.afterCalls calls).decomposition.outline = e.decomposition.outline := by
  induction calls generalizing e with
  | nil => rfl
  | cons call calls ih => exact (ih (e.call call)).trans (e.outline_call call)

end Calls

/-! ### Every task has its mechanism -/

/-- Tasks and blocks agree, and every task has its mechanism. -/
structure Equipped (e : Executive S R M) : Prop where
  coherent : e.decomposition.Coherent
  size_eq : e.mechanisms.size = e.decomposition.forest.size

theorem size_eq_of_outline {e e' : Executive S R M}
    (h : e'.decomposition.outline = e.decomposition.outline) :
    e'.decomposition.forest.size = e.decomposition.forest.size :=
  Forest.size_eq_of_outline (Decomposition.forest_outline_of_outline h)

namespace Equipped

variable {e : Executive S R M} {t : TaskId}

theorem lt_size_of_mechanism (h : e.Equipped) {m : M} (hm : e.mechanisms[t]? = some m) :
    t < e.decomposition.forest.size := by
  rw [← h.size_eq]
  exact (Array.getElem?_eq_some_iff.mp hm).1

theorem exists_mechanism (h : e.Equipped) (ht : t < e.decomposition.forest.size) :
    ∃ m, e.mechanisms[t]? = some m :=
  ⟨_, Array.getElem?_eq_getElem (by rw [h.size_eq]; exact ht)⟩

variable [Scalar S]

theorem finish (h : e.Equipped) (t : TaskId) (givenUp : Bool) : (e.finish t givenUp).Equipped where
  coherent := (OnCourse.finish_decomposition h.coherent t givenUp).1
  size_eq := by
    rw [mechanisms_finish, h.size_eq, size_eq_of_outline (finish_keeps e t givenUp).1]

theorem abortCurrent (h : e.Equipped) : e.abortCurrent.2.Equipped := by
  unfold Executive.abortCurrent
  split
  · exact h.finish _ true
  · exact h

variable [UnitSource R S]

theorem work [Performer M] (h : e.Equipped) (t : TaskId) : (e.work t).Equipped := by
  have hdrawn : (e.drawn t).Equipped := ⟨h.coherent, h.size_eq⟩
  have hadvanced : ∀ m, ((e.drawn t).advanced t m).Equipped := fun _ =>
    ⟨h.coherent, (Array.size_setIfInBounds ..).trans h.size_eq⟩
  exact work_induction e t (hdrawn.finish t true) (fun m => (hadvanced m).finish t false)
    hadvanced hdrawn

variable [IndexSource R]

/-- A choice is a task, and leaves the executive equipped. -/
theorem nextTask (h : e.Equipped) (last : Option TaskId) :
    (e.nextTask last).1 < e.decomposition.forest.size ∧ (e.nextTask last).2.Equipped := by
  have hforest := (e.rearranged_nextTask last).forest
  cases last with
  | none =>
    refine ⟨h.coherent.lt_size_of_first e.allocation e.source,
      h.coherent.first e.allocation e.source, ?_⟩
    rw [hforest]
    exact h.size_eq
  | some t =>
    refine ⟨h.coherent.lt_size_of_next e.allocation t e.source,
      h.coherent.next e.allocation t e.source, ?_⟩
    rw [hforest]
    exact h.size_eq

variable [Performer M]

/-- A task that is chosen to run is a task, and leaves the executive equipped. -/
theorem allocate (h : e.Equipped) :
    e.allocate.1 < e.decomposition.forest.size ∧ e.allocate.2.Equipped := by
  have hbegun : ({ e with phase := .allocating } : Executive S R M).Equipped :=
    ⟨h.coherent, h.size_eq⟩
  obtain ⟨hlt, hnext⟩ := hbegun.nextTask e.last
  exact ⟨hlt, hnext.coherent, Array.size_modify.trans hnext.size_eq⟩

/-- A task that is chosen now has its mechanism. -/
theorem exists_mechanism_engaged (h : e.Equipped) (hexec : e.phase.isExecuting = false) :
    ∃ m, e.mechanisms[e.engaged.1]? = some m := by
  have hbegun : ({ e with step := e.step + 1 } : Executive S R M).Equipped :=
    ⟨h.coherent, h.size_eq⟩
  rw [engaged_of_not_executing hexec]
  exact h.exists_mechanism hbegun.allocate.1

theorem engaged (h : e.Equipped) : e.engaged.2.Equipped := by
  have hbegun : ({ e with step := e.step + 1 } : Executive S R M).Equipped :=
    ⟨h.coherent, h.size_eq⟩
  cases hexec : e.phase.isExecuting with
  | true =>
    obtain ⟨t, ht⟩ := exists_executing hexec
    rw [engaged_of_executing ht]
    exact hbegun
  | false =>
    rw [engaged_of_not_executing hexec]
    exact hbegun.allocate.2

theorem timestep (h : e.Equipped) : e.timestep.2.Equipped := h.engaged.work e.engaged.1

/-- **Every call keeps an executive equipped.** -/
theorem call (h : e.Equipped) : ∀ call, (e.call call).Equipped
  | .timestep => h.timestep
  | .abortCurrent => h.abortCurrent
  | .nextTask last => (h.nextTask last).2

end Equipped

/-- An executive begins equipped. -/
theorem equipped_of_start [Scalar S] {d : Decomposition S} (hd : d.Coherent) {a : Allocation S}
    {abort : AbortCurve S} {learns : Bool} {source : R} {mechanisms : Array M}
    {e : Executive S R M} (hstart : start d a abort learns source mechanisms = .ok e) :
    e.Equipped := by
  obtain ⟨-, hsize, rfl⟩ := start_eq_ok_iff.mp hstart
  exact ⟨hd, hsize⟩

end Executive

end TaskAllocation
