import TaskAllocation.Proofs.Executive.Calls

/-!
# The clock of a running task

A mechanism of a fixed duration counts the timesteps that it has done, and so does the
executive.  The mechanism is put back to its start whenever its task is chosen, so the two
counts agree while the task runs, whatever was left in the mechanism from before; and the
task ends when they have reached its duration, or is given up before.  What is recorded
at the end is this count.

A task that is laid down to take `duration t` timesteps takes `max (duration t) 1`.

## Main definitions

* `Executive.Ready` — a task is about to work for a timestep.
* `Executive.Timed` — phase, running task, last task and counts agree.
* `Executive.Within` — no mechanism has counted beyond its duration.

## Main results

* `Executive.Ready.work_eq`, `Executive.Ready.work_cases` — how a timestep of work ends.
* `Executive.Timed.timestep` — a timestep keeps phase and counts in agreement.
* `Executive.state_coherent` — **phase, tasks and counts agree** under all calls.
-/

namespace TaskAllocation

namespace Executive

variable {S R : Type} {duration : TaskId → Nat} {e : Executive S R} {t : TaskId}

/-! ### The invariants -/

/-- Every mechanism takes as many timesteps as are laid down for its task, and at least one. -/
def Lasting (duration : TaskId → Nat) (e : Executive S R) : Prop :=
  ∀ t m, e.mechanisms[t]? = some m → m.duration = max (duration t) 1

/-- None of the mechanisms handed over has counted beyond its duration. -/
def Fresh (mechanisms : Array Mechanism) : Prop :=
  ∀ (t : TaskId) (m : Mechanism), mechanisms[t]? = some m → m.progress ≤ m.duration

/-- No mechanism has counted beyond its duration. -/
def Within (duration : TaskId → Nat) (e : Executive S R) : Prop :=
  ∀ t m, e.mechanisms[t]? = some m → m.progress ≤ max (duration t) 1

/-- Task `t` is about to work for a timestep: it is running, its mechanism has counted what the
executive has, and both are short of its duration. -/
structure Ready (duration : TaskId → Nat) (t : TaskId) (e : Executive S R) : Prop where
  equipped : e.Equipped
  lasting : e.Lasting duration
  phase_eq : e.phase = .executing t
  current_eq : e.current = some t
  elapsed_lt : e.elapsed < max (duration t) 1
  progress_eq : ∃ m, e.mechanisms[t]? = some m ∧ m.progress = e.elapsed

/-- The time for which the last task ran is on record. -/
def OnRecord [Scalar S] (e : Executive S R) (t : TaskId) : Prop :=
  ∃ task, e.decomposition.forest.task? t = some task ∧ task.lastExecTime = Scalar.ofNat e.elapsed

/-- **Phase, running task, last task and counts agree.** -/
structure Timed [Scalar S] (duration : TaskId → Nat) (e : Executive S R) : Prop where
  equipped : e.Equipped
  lasting : e.Lasting duration
  /-- A choice is over when a call is. -/
  not_allocating : e.phase ≠ .allocating
  /-- Before the first timestep nothing has been counted. -/
  idle : e.phase = .idle → e.current = none ∧ e.last = none ∧ e.elapsed = 0
  /-- A running task is the current one, and its mechanism has counted what the executive has. -/
  executing : ∀ t, e.phase = .executing t → e.current = some t ∧ 1 ≤ e.elapsed ∧
    e.elapsed < max (duration t) 1 ∧ ∃ m, e.mechanisms[t]? = some m ∧ m.progress = e.elapsed
  /-- A completed task is the last one, and has run for its duration. -/
  completed : ∀ t, e.phase = .completed t → e.current = none ∧ e.last = some t ∧
    e.elapsed = max (duration t) 1 ∧ e.OnRecord t
  /-- A task that was given up is the last one, and has not run for its duration. -/
  aborted : ∀ t, e.phase = .aborted t → e.current = none ∧ e.last = some t ∧
    e.elapsed < max (duration t) 1 ∧ e.OnRecord t

namespace Ready

theorem lt_size (h : e.Ready duration t) : t < e.decomposition.forest.size := by
  obtain ⟨m, hm, -⟩ := h.progress_eq
  exact h.equipped.lt_size_of_mechanism hm

/-- A timestep of a mechanism moves both counts. -/
theorem advanced (h : e.Ready duration t) {m : Mechanism} (hm : e.mechanisms[t]? = some m) :
    (e.advanced t m).Equipped ∧ (e.advanced t m).Lasting duration ∧
      (e.advanced t m).mechanisms[t]? = some m.execute ∧
      m.execute.progress = (e.advanced t m).elapsed := by
  have hget := getElem?_mechanisms_advanced hm
  refine ⟨⟨h.equipped.coherent, (Array.size_setIfInBounds ..).trans h.equipped.size_eq⟩,
    fun u m' hu => ?_, (hget t).trans (if_pos rfl), ?_⟩
  · rw [hget] at hu
    split at hu
    · next htu =>
      cases hu
      exact h.lasting u m (htu ▸ hm)
    · exact h.lasting u m' hu
  · obtain ⟨m', hm', hprogress⟩ := h.progress_eq
    cases hm.symm.trans hm'
    exact congrArg (· + 1) hprogress

end Ready

variable [Scalar S]

/-! ### Ending a task -/

/-- The time of a task that ends is recorded. -/
theorem onRecord_finish (ht : t < e.decomposition.forest.size) (givenUp : Bool) :
    (e.finish t givenUp).OnRecord t := by
  obtain ⟨task, htask⟩ := Forest.exists_task? ht
  obtain ⟨task', htask', -, htime⟩ := exists_task?_finish e t givenUp htask
  exact ⟨task', htask', by rw [htime, if_pos rfl, elapsed_finish]⟩

theorem Timed.of_completed (h : e.Equipped) (hlasting : e.Lasting duration)
    (ht : t < e.decomposition.forest.size) (helapsed : e.elapsed = max (duration t) 1) :
    (e.finish t false).Timed duration where
  equipped := h.finish t false
  lasting := hlasting
  not_allocating := nofun
  idle := nofun
  executing := nofun
  completed u hu := by
    cases hu
    exact ⟨rfl, rfl, helapsed, onRecord_finish ht false⟩
  aborted := nofun

theorem Timed.of_aborted (h : e.Equipped) (hlasting : e.Lasting duration)
    (ht : t < e.decomposition.forest.size) (helapsed : e.elapsed < max (duration t) 1) :
    (e.finish t true).Timed duration where
  equipped := h.finish t true
  lasting := hlasting
  not_allocating := nofun
  idle := nofun
  executing := nofun
  completed := nofun
  aborted u hu := by
    cases hu
    exact ⟨rfl, rfl, helapsed, onRecord_finish ht true⟩

/-! ### Working -/

namespace Ready

variable [UnitSource R S]

theorem drawn (h : e.Ready duration t) : (e.drawn t).Ready duration t :=
  ⟨⟨h.equipped.coherent, h.equipped.size_eq⟩, h.lasting, h.phase_eq, h.current_eq, h.elapsed_lt,
    h.progress_eq⟩

/-- What a timestep of work makes of an executive that is ready: the mechanism is done exactly if
its count has reached the duration. -/
theorem work_eq (h : e.Ready duration t) : ∃ m, e.mechanisms[t]? = some m ∧
    (e.work t = (e.drawn t).finish t true ∨
      (e.elapsed + 1 = max (duration t) 1 ∧
        e.work t = ((e.drawn t).advanced t m).finish t false) ∨
      (e.elapsed + 1 < max (duration t) 1 ∧ e.work t = (e.drawn t).advanced t m)) := by
  obtain ⟨m, hm, hprogress⟩ := h.progress_eq
  have hduration := h.lasting t m hm
  have hlt := h.elapsed_lt
  refine ⟨m, hm, ?_⟩
  -- the mechanism tells by its own count whether it is done, and that is the executive's
  rcases Executive.work_cases hm with hw | ⟨hdone, hw⟩ | ⟨hdone, hw⟩
  · exact .inl hw
  · have hle : m.duration ≤ m.progress + 1 := m.execute.isFinished_iff.mp hdone
    exact .inr (.inl ⟨by omega, hw⟩)
  · have hnot : ¬ m.duration ≤ m.progress + 1 := fun hle =>
      absurd (m.execute.isFinished_iff.mpr hle) (ne_true_of_eq_false hdone)
    exact .inr (.inr ⟨by omega, hw⟩)

/-- **How a timestep of work ends.**  The task is given up with its count as it was, or is
completed, or is carried on, with a count that is greater by one. -/
theorem work_cases (h : e.Ready duration t) : (e.work t).Timed duration ∧
    (((e.work t).phase = .aborted t ∧ (e.work t).elapsed = e.elapsed) ∨
      ((e.work t).phase = .completed t ∧ (e.work t).elapsed = e.elapsed + 1 ∧
        e.elapsed + 1 = max (duration t) 1) ∨
      ((e.work t).phase = .executing t ∧ (e.work t).elapsed = e.elapsed + 1 ∧
        e.elapsed + 1 < max (duration t) 1)) := by
  obtain ⟨m, hm, hwork⟩ := h.work_eq
  obtain ⟨hequipped, hlasting, hself, hcount⟩ := h.drawn.advanced hm
  have helapsed : ((e.drawn t).advanced t m).elapsed = e.elapsed + 1 := rfl
  rcases hwork with hw | ⟨hreached, hw⟩ | ⟨hshort, hw⟩
  · rw [hw]
    exact ⟨.of_aborted h.drawn.equipped h.drawn.lasting h.drawn.lt_size h.elapsed_lt,
      .inl ⟨rfl, rfl⟩⟩
  · rw [hw]
    exact ⟨.of_completed hequipped hlasting h.lt_size (helapsed.trans hreached),
      .inr (.inl ⟨rfl, rfl, hreached⟩)⟩
  · have hphase : ((e.drawn t).advanced t m).phase = .executing t := h.phase_eq
    rw [hw]
    refine ⟨?_, .inr (.inr ⟨hphase, rfl, hshort⟩)⟩
    constructor
    case equipped => exact hequipped
    case lasting => exact hlasting
    case executing =>
      intro u hu
      cases hphase.symm.trans hu
      exact ⟨h.current_eq, by omega, by omega, m.execute, hself, hcount⟩
    all_goals simp [hphase]

/-- What a mechanism counts in a timestep does not take it beyond its duration. -/
theorem within_work (h : e.Ready duration t) (hwithin : e.Within duration) :
    (e.work t).Within duration := by
  obtain ⟨m, hm, hwork⟩ := h.work_eq
  obtain ⟨-, -, hself, hcount⟩ := h.drawn.advanced hm
  have hadvanced : ((e.drawn t).advanced t m).Within duration := by
    intro u m' hu
    by_cases hut : t = u
    · subst hut
      cases hself.symm.trans hu
      rw [hcount]
      exact h.elapsed_lt
    · rw [getElem?_mechanisms_advanced (e := e.drawn t) hm, if_neg hut] at hu
      exact hwithin u m' hu
  rcases hwork with hw | ⟨-, hw⟩ | ⟨-, hw⟩
  · exact hw ▸ hwithin
  · exact hw ▸ hadvanced
  · exact hw ▸ hadvanced

end Ready

/-! ### Calls -/

/-- An executive begins with phase and counts in agreement. -/
theorem timed_of_start {d : Decomposition S} (hd : d.Coherent) {a : Allocation S}
    {abort : AbortCurve S} {learns : Bool} {source : R} {mechanisms : Array Mechanism}
    (hlasting : ∀ t m, mechanisms[t]? = some m → m.duration = max (duration t) 1)
    (hstart : start d a abort learns source mechanisms = .ok e) : e.Timed duration := by
  have hequipped := equipped_of_start hd hstart
  obtain ⟨-, -, rfl⟩ := start_eq_ok_iff.mp hstart
  exact ⟨hequipped, hlasting, nofun, fun _ => ⟨rfl, rfl, rfl⟩, nofun, nofun, nofun⟩

namespace Timed

/-- Giving up ends a running task, and without one changes nothing. -/
theorem abortCurrent (h : e.Timed duration) : e.abortCurrent.2.Timed duration := by
  unfold Executive.abortCurrent
  split
  · next t ht =>
    obtain ⟨-, -, hlt, m, hm, -⟩ := h.executing t ht
    exact .of_aborted h.equipped h.lasting (h.equipped.lt_size_of_mechanism hm) hlt
  · exact h

/-- The count never exceeds the duration of the task that it is about. -/
theorem elapsed_le (h : e.Timed duration) (ht : e.phase.task? = some t) :
    e.elapsed ≤ max (duration t) 1 := by
  rcases Phase.task?_eq_some_iff.mp ht with hphase | hphase | hphase
  · exact Nat.le_of_lt (h.executing t hphase).2.2.1
  · exact Nat.le_of_eq (h.completed t hphase).2.2.1
  · exact Nat.le_of_lt (h.aborted t hphase).2.2.1

/-- Nor does it exceed a bound on all durations, for before the first task it is zero. -/
theorem elapsed_lt (h : e.Timed duration) {bound : Nat} (hbound : ∀ t, max (duration t) 1 < bound) :
    e.elapsed < bound := by
  cases hphase : e.phase with
  | idle =>
    rw [(h.idle hphase).2.2]
    exact Nat.lt_of_le_of_lt (Nat.zero_le _) (hbound 0)
  | allocating => exact absurd hphase h.not_allocating
  | executing t =>
    exact Nat.lt_of_le_of_lt (h.elapsed_le (by rw [hphase]; rfl)) (hbound t)
  | completed t =>
    exact Nat.lt_of_le_of_lt (h.elapsed_le (by rw [hphase]; rfl)) (hbound t)
  | aborted t =>
    exact Nat.lt_of_le_of_lt (h.elapsed_le (by rw [hphase]; rfl)) (hbound t)

variable [UnitSource R S] [IndexSource R]

/-- **A task that is chosen is ready**, for its mechanism starts again; so is one that is
running. -/
theorem engaged (h : e.Timed duration) : e.engaged.2.Ready duration e.engaged.1 := by
  have hequipped := h.equipped.engaged
  have hphase := e.phase_engaged
  cases hexec : e.phase.isExecuting with
  | true =>
    obtain ⟨t, ht⟩ := exists_executing hexec
    obtain ⟨hcurrent, -, hlt, hprogress⟩ := h.executing t ht
    rw [engaged_of_executing ht] at hequipped hphase ⊢
    exact ⟨hequipped, h.lasting, hphase, hcurrent, hlt, hprogress⟩
  | false =>
    -- whatever an earlier run has left in the mechanism is gone
    obtain ⟨m, hm⟩ := h.equipped.exists_mechanism_engaged hexec
    have hget := getElem?_mechanisms_engaged hexec
    have helapsed := elapsed_engaged hexec
    refine ⟨hequipped, fun u m' hu => ?_, hphase, current_engaged hexec, ?_, m.reset, ?_, ?_⟩
    · rw [hget] at hu
      split at hu
      · obtain ⟨old, hold, rfl⟩ := Option.map_eq_some_iff.mp hu
        exact h.lasting u old hold
      · exact h.lasting u m' hu
    · rw [helapsed]
      omega
    · rw [hget, if_pos rfl, hm]
      rfl
    · rw [helapsed]
      rfl

theorem timestep (h : e.Timed duration) : e.timestep.2.Timed duration := h.engaged.work_cases.1

/-- **How a timestep ends**, for the task that it is spent on. -/
theorem timestep_cases (h : e.Timed duration) :
    (e.timestep.2.phase = .aborted e.engaged.1 ∧
        e.timestep.2.elapsed = e.engaged.2.elapsed) ∨
      (e.timestep.2.phase = .completed e.engaged.1 ∧
        e.timestep.2.elapsed = e.engaged.2.elapsed + 1 ∧
        e.engaged.2.elapsed + 1 = max (duration e.engaged.1) 1) ∨
      (e.timestep.2.phase = .executing e.engaged.1 ∧
        e.timestep.2.elapsed = e.engaged.2.elapsed + 1 ∧
        e.engaged.2.elapsed + 1 < max (duration e.engaged.1) 1) :=
  h.engaged.work_cases.2

/-- Choosing without running leaves tasks, phase and counts alone. -/
theorem nextTask (h : e.Timed duration) (last : Option TaskId) :
    (e.nextTask last).2.Timed duration := by
  have hforest := (e.rearranged_nextTask last).forest
  have hrecord : ∀ t, e.OnRecord t → (e.nextTask last).2.OnRecord t := by
    rintro t ⟨task, htask, htime⟩
    exact ⟨task, by rw [hforest, htask], htime⟩
  constructor
  case equipped => exact (h.equipped.nextTask last).2
  case lasting => exact h.lasting
  case not_allocating => exact h.not_allocating
  case idle => exact h.idle
  case executing => exact h.executing
  case completed =>
    intro t ht
    obtain ⟨hcurrent, hlast, helapsed, htime⟩ := h.completed t ht
    exact ⟨hcurrent, hlast, helapsed, hrecord t htime⟩
  case aborted =>
    intro t ht
    obtain ⟨hcurrent, hlast, helapsed, htime⟩ := h.aborted t ht
    exact ⟨hcurrent, hlast, helapsed, hrecord t htime⟩

theorem call (h : e.Timed duration) : ∀ call, (e.call call).Timed duration
  | .timestep => h.timestep
  | .abortCurrent => h.abortCurrent
  | .nextTask last => h.nextTask last

theorem act (h : e.Timed duration) : ∀ act, (e.act act).Timed duration
  | .timestep => h.timestep
  | .abortCurrent => h.abortCurrent

theorem afterCalls (h : e.Timed duration) (calls : List Call) :
    (e.afterCalls calls).Timed duration := by
  induction calls generalizing e with
  | nil => exact h
  | cons call calls ih => exact ih (h.call call)

/-- A mechanism that starts again has counted nothing. -/
theorem within_timestep (h : e.Timed duration) (hwithin : e.Within duration) :
    e.timestep.2.Within duration := by
  refine h.engaged.within_work fun u m hu => ?_
  cases hexec : e.phase.isExecuting with
  | true =>
    obtain ⟨t, ht⟩ := exists_executing hexec
    rw [engaged_of_executing ht] at hu
    exact hwithin u m hu
  | false =>
    rw [getElem?_mechanisms_engaged hexec] at hu
    split at hu
    · obtain ⟨old, -, rfl⟩ := Option.map_eq_some_iff.mp hu
      exact Nat.zero_le _
    · exact hwithin u m hu

theorem within_afterCalls (h : e.Timed duration) (hwithin : e.Within duration)
    (calls : List Call) : (e.afterCalls calls).Within duration := by
  induction calls generalizing e with
  | nil => exact hwithin
  | cons call calls ih =>
    refine ih (h.call call) ?_
    cases call with
    | timestep => exact h.within_timestep hwithin
    | abortCurrent =>
      show e.abortCurrent.2.Within duration
      unfold Executive.abortCurrent
      split
      · exact hwithin
      · exact hwithin
    | nextTask last => exact hwithin

end Timed

/-! ### The state under all calls -/

section Idle

variable [UnitSource R S] [IndexSource R]

/-- A timestep is what it takes to leave idleness. -/
theorem phase_call_eq_idle_iff (e : Executive S R) (call : Call) :
    (e.call call).phase = .idle ↔ e.phase = .idle ∧ call ≠ .timestep := by
  cases call with
  | timestep =>
    obtain ⟨-, -, -, htask⟩ := e.timestep_keeps
    simp only [ne_eq, not_true_eq_false, and_false, iff_false]
    intro hidle
    change e.timestep.2.phase = .idle at hidle
    rw [hidle] at htask
    cases htask
  | abortCurrent =>
    simp only [Executive.call, abortCurrent]
    split
    · next t ht => simp [ht]
    · simp
  | nextTask last => simp [Executive.call, nextTask]

theorem phase_afterCalls_eq_idle_iff (e : Executive S R) (calls : List Call) :
    (e.afterCalls calls).phase = .idle ↔ e.phase = .idle ∧ Call.timestep ∉ calls := by
  induction calls generalizing e with
  | nil => simp [afterCalls]
  | cons call calls ih =>
    refine (ih (e.call call)).trans ?_
    rw [phase_call_eq_idle_iff, List.mem_cons, not_or, and_assoc, ne_comm]

end Idle

/-- **Phase, tasks and counts agree under all calls.**  Whatever an executive with mechanisms
of fixed durations is asked for, and in whatever order, it is idle until its first timestep;
it gives up exactly when a task is running; and no count exceeds a duration, so that none
leaves the range in which the durations lie. -/
theorem state_coherent {R₀ : Type} [UnitSource R₀ S] [IndexSource R₀] [UnitSource R S]
    [IndexSource R] (root : TaskSpec S) (curve : Logistic S)
    (building : List (Decomposition.Call S R₀)) {a : Allocation S} {abort : AbortCurve S}
    {learns : Bool} {source : R} {mechanisms : Array Mechanism}
    (hlasting : ∀ t m, mechanisms[t]? = some m → m.duration = max (duration t) 1)
    (hstart : start ((Decomposition.single root curve).run building) a abort learns source
      mechanisms = .ok e) (calls : List Call) :
    (e.afterCalls calls).Timed duration ∧
      ((e.afterCalls calls).phase = .idle ↔ Call.timestep ∉ calls) ∧
      (∀ t, (e.afterCalls calls).phase = .executing t →
        (e.afterCalls calls).abortCurrent = (some t, (e.afterCalls calls).finish t true)) ∧
      ((e.afterCalls calls).phase.isExecuting = false →
        (e.afterCalls calls).abortCurrent = (none, e.afterCalls calls)) ∧
      (∀ t, (e.afterCalls calls).phase.task? = some t →
        (e.afterCalls calls).elapsed ≤ max (duration t) 1) ∧
      (Fresh mechanisms → (e.afterCalls calls).Within duration) ∧
      ((∀ t, duration t < UInt64.size) → (e.afterCalls calls).elapsed < UInt64.size ∧
        (Fresh mechanisms → ∀ (t : TaskId) m, (e.afterCalls calls).mechanisms[t]? = some m →
          m.progress < UInt64.size)) := by
  have hd := (Decomposition.Coherent.single root curve).run building
  have htimed := timed_of_start hd hlasting hstart
  obtain ⟨-, -, he⟩ := start_eq_ok_iff.mp hstart
  have hidle : e.phase = .idle := by rw [← he]
  have hafter := htimed.afterCalls calls
  have hbound : Fresh mechanisms → (e.afterCalls calls).Within duration := by
    intro hfresh
    refine htimed.within_afterCalls (fun t m hm => ?_) calls
    rw [← he] at hm
    rw [← hlasting t m hm]
    exact hfresh t m hm
  refine ⟨hafter, ?_, fun t => abortCurrent_of_executing, abortCurrent_of_not_executing,
    fun t => hafter.elapsed_le, hbound, fun hsmall => ?_⟩
  · rw [phase_afterCalls_eq_idle_iff, hidle, eq_self_iff_true, true_and]
  have hlt : ∀ t, max (duration t) 1 < UInt64.size := fun t =>
    Nat.max_lt.mpr ⟨hsmall t, by decide⟩
  exact ⟨hafter.elapsed_lt hlt,
    fun hfresh t m hm => Nat.lt_of_le_of_lt (hbound hfresh t m hm) (hlt t)⟩

/-- The mechanisms of given durations. -/
theorem duration_of_lasting {durations : Array Nat} {m : Mechanism}
    (hm : (durations.map Mechanism.lasting)[t]? = some m) :
    m.duration = max (durations.getD t 0) 1 := by
  rw [Array.getElem?_map] at hm
  obtain ⟨n, hn, rfl⟩ := Option.map_eq_some_iff.mp hm
  rw [Array.getD_eq_getD_getElem?, hn]
  rfl

/-- Two levels of tasks, with a choice that nothing comes of. -/
theorem state_coherent_two_levels :
    ∃ e, startTwoLevels .random [] #[3, 2, 2, 1, 0] = .ok e ∧
      (e.afterCalls [.timestep, .nextTask none, .abortCurrent, .timestep]).Timed
        ((#[3, 2, 2, 1, 0] : Array Nat).getD · 0) := by
  obtain ⟨e, hstart⟩ := exists_startTwoLevels .random [] #[3, 2, 2, 1, 0] rfl
  exact ⟨e, hstart, (state_coherent _ _ _ (fun _ _ => duration_of_lasting) hstart _).1⟩

end Executive

end TaskAllocation
