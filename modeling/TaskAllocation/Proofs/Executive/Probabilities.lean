import TaskAllocation.Proofs.Executive.Learning

/-!
# The probabilities that reports show

A report shows the probability of giving up that was used last, and those of the whole task and of
staying that were used last in the block with the focus and anywhere.  They are read off curves at
estimates of tasks, and kept until the next ones are.  So whatever is true of all that the curves
say of the estimates at hand is true of all that is reported.

## Main definitions

* `Forest.Weighed` — what the curves say of the estimates of a forest has a property.
* `Decomposition.Records`, `Executive.Records` — the probabilities that are kept have it.
* `Report.Shows` — the probabilities of a report have it.

## Main results

* `Decomposition.Records.next` — a choice keeps what it reads off the curves, and nothing else.
* `Executive.Records.timestep` — so does a timestep, and so are its probabilities reported.
* `Executive.Timed.shows_callReports` — **what is true of the curves is true of the reports.**
-/

namespace TaskAllocation

variable {S R M : Type} {P : S → Prop}

/-- The probabilities that a report shows have property `P`. -/
structure Report.Shows (P : S → Prop) (r : Report S) : Prop where
  abort : P r.abortProb
  whole : ∀ p, r.wholeProb = some p → P p
  stay : ∀ s, r.stayProbs = some s → P s.up ∧ P s.down

/-- What the curves say of the estimates of a forest has property `P`. -/
structure Forest.Weighed [Scalar S] (P : S → Prop) (abort : AbortCurve S)
    (partitioning : Partitioning S) (stay : Logistic S) (f : Forest S) : Prop where
  abort : ∀ n t, P (abort.prob (Scalar.ofNat n) (f.estimate t))
  whole : ∀ t u v, P (partitioning.wholeProb (f.estimate t + f.estimate u) (f.estimate v))
  stay : ∀ t u, P (stayProb stay (f.estimate t) (f.estimate u))

/-- However the draw comes out, the probability of the whole task is the one that was given. -/
theorem Partitioning.wholeProb_draw [Scalar S] [UnitSource R S] (b : Block S) (whole first : S)
    (source : R) : (Partitioning.draw b whole first source).1.wholeProb = whole := by
  unfold Partitioning.draw
  dsimp only
  split
  · rfl
  · rfl

namespace Decomposition

variable {d : Decomposition S} {abort : AbortCurve S} {p : Partitioning S} {stay : Logistic S}

/-- The probabilities that blocks and walk keep have property `P`; the walk goes by the curve
`stay`. -/
structure Records (P : S → Prop) (stay : Logistic S) (d : Decomposition S) : Prop where
  curve : d.stayCurve = stay
  whole : ∀ k b, d.block? k = some b → ∀ q, b.lastWholeProb = some q → P q
  stay : ∀ s, d.lastStay = some s → P s.up ∧ P s.down

theorem Records.withFocus (h : d.Records P stay) (k : Option BlockId) :
    (d.withFocus k).Records P stay := by
  cases k with
  | none => exact h
  | some k => exact ⟨h.curve, h.whole, h.stay⟩

section Choose

variable [Scalar S] [UnitSource R S]

/-- The estimate of a block is that of a task, if only of one that there is not. -/
theorem exists_blockEstimate_eq (d : Decomposition S) (k : BlockId) :
    ∃ t, d.blockEstimate k = d.forest.estimate t := by
  unfold blockEstimate
  split
  · exact ⟨_, rfl⟩
  · refine ⟨d.forest.size, ?_⟩
    unfold Forest.estimate
    rw [Forest.task?_eq_none (Nat.le_refl _)]

/-- The curve of the walk is read at estimates. -/
theorem Records.stayProbs (h : d.Records P stay) (hweighed : d.forest.Weighed P abort p stay)
    (k : BlockId) (above : Option BlockId) :
    P (d.stayProbs k above).up ∧ P (d.stayProbs k above).down := by
  obtain ⟨t, ht⟩ := d.exists_blockEstimate_eq k
  simp only [Decomposition.stayProbs, h.curve, ht]
  cases above with
  | none => exact ⟨hweighed.stay t t, hweighed.stay t t⟩
  | some j =>
    obtain ⟨u, hu⟩ := d.exists_blockEstimate_eq j
    simp only [hu]
    exact ⟨hweighed.stay t u, hweighed.stay u t⟩

/-- Choosing a member keeps the probability of the whole task that it went by. -/
theorem Records.choose (h : d.Records P stay) (hweighed : d.forest.Weighed P abort p stay)
    (k : BlockId) (source : R) : (p.choose d k source).2.1.Records P stay := by
  unfold Partitioning.choose
  split
  · exact h
  next b hb =>
    split
    · exact h
    next whole first hprobs =>
      dsimp only
      split
      · exact h
      next c hc =>
        obtain ⟨-, rfl⟩ := Block.activate_eq_ok_iff.mp hc
        -- only the block of the choice has another probability of the whole task
        refine ⟨h.curve, fun j b' hb' q hq => ?_, h.stay⟩
        rw [block?_setIfInBounds (block_eq_ok_iff.mp hb)] at hb'
        split at hb'
        · cases hb'
          rw [Partitioning.wholeProb_draw] at hq
          cases hq
          obtain ⟨root, first, second, hroot, hfirst, hsecond, rfl, -⟩ :=
            Partitioning.probs_eq_ok_iff.mp hprobs
          rw [← Forest.estimate_of_task? hroot, ← Forest.estimate_of_task? hfirst,
            ← Forest.estimate_of_task? hsecond]
          exact hweighed.whole b.first b.second b.root
        · exact h.whole j b' hb' q hq

/-- An open way has the probabilities of its block and of one above it. -/
theorem exists_stay_eq_of_crossing? {k : BlockId} {t : TaskId} {c : Crossing S}
    (hc : d.crossing? k t = .ok (some c)) : ∃ above, c.stay = d.stayProbs k above := by
  unfold crossing? at hc
  obtain ⟨b, -, hc⟩ := Except.bind_eq_ok_iff.mp hc
  obtain ⟨task, -, hc⟩ := Except.bind_eq_ok_iff.mp hc
  split at hc
  · cases hc
  · obtain ⟨-, hc⟩ := Except.guard_eq_ok_iff.mp hc
    obtain ⟨above, -, hc⟩ := Except.bind_eq_ok_iff.mp hc
    cases hc
    exact ⟨above, rfl⟩

/-- Moving the focus keeps the probabilities of staying that it went by. -/
theorem Records.moveFocus (h : d.Records P stay) (hweighed : d.forest.Weighed P abort p stay)
    (t : TaskId) (source : R) : (d.moveFocus t source).2.1.Records P stay := by
  unfold Decomposition.moveFocus
  split
  · exact h
  next k _ =>
    split
    · exact h
    · exact h
    next c hc =>
      obtain ⟨above, habove⟩ := exists_stay_eq_of_crossing? hc
      have hstay : ∀ s, some c.stay = some s → P s.up ∧ P s.down := by
        rintro s hs
        cases hs
        rw [habove]
        exact h.stayProbs hweighed k above
      dsimp only
      split
      · exact ⟨h.curve, h.whole, hstay⟩
      · exact ⟨h.curve, h.whole, hstay⟩

variable {a : Allocation S} (h : d.Records P stay)
  (hweighed : d.forest.Weighed P abort a.partitioning stay)
include h hweighed

theorem Records.neighbourStep (t : TaskId) (source : R) :
    (a.neighbourStep d t source).2.1.Records P stay := by
  have hmove := h.moveFocus hweighed t source
  have hforest := (d.rearranged_moveFocus t source).forest
  unfold Allocation.neighbourStep
  generalize d.moveFocus t source = moved at hmove hforest
  obtain ⟨_ | _, e, rest⟩ := moved
  · exact hmove
  · dsimp only
    split
    · exact hmove
    · rw [← hforest] at hweighed
      exact hmove.choose hweighed _ rest

theorem Records.neighbour (t : TaskId) (source : R) :
    (a.neighbour d t source).2.1.Records P stay := by
  have hstep := h.neighbourStep hweighed t source
  unfold Allocation.neighbour
  split
  · exact h
  · generalize a.neighbourStep d t source = step at hstep
    obtain ⟨_ | _, e, rest⟩ := step
    · exact hstep.withFocus _
    · exact hstep

theorem Records.first (source : R) : (a.first d source).2.1.Records P stay := by
  unfold Allocation.first
  split
  · exact h
  next k _ =>
    have hchoose := h.choose hweighed k source
    generalize a.partitioning.choose d k source = chosen at hchoose
    obtain ⟨_ | _, e, rest⟩ := chosen
    · exact hchoose
    · exact hchoose

/-- **A choice keeps what it reads off the curves**, and nothing else. -/
theorem Records.next [IndexSource R] (t : TaskId) (source : R) :
    (a.next d t source).2.1.Records P stay := by
  unfold Allocation.next
  cases a.policy with
  | neighbour => exact h.neighbour hweighed t source
  | cheapest => exact h
  | random => exact h

end Choose

/-- Taking note of what became of a task leaves the probabilities alone. -/
theorem Records.noteAborted (h : d.Records P stay) (t : TaskId) :
    (d.noteAborted t).Records P stay := by
  unfold Decomposition.noteAborted
  split
  · split
    · exact ⟨h.curve, h.whole, h.stay⟩
    · exact h
  · exact h

theorem Records.record [Scalar S] (h : d.Records P stay) {t : TaskId} {measured : S} {learn : Bool}
    {e : Decomposition S} (hrecord : d.record t measured learn = .ok e) : e.Records P stay := by
  obtain ⟨f, -, rfl⟩ := Except.map_eq_ok_iff.mp hrecord
  exact ⟨h.curve, h.whole, h.stay⟩

end Decomposition

namespace Executive

variable {e : Executive S R M} {t : TaskId} {stay : Logistic S}

/-- The probabilities that an executive keeps have property `P`. -/
structure Records (P : S → Prop) (stay : Logistic S) (e : Executive S R M) : Prop where
  decomposition : e.decomposition.Records P stay
  abort : P e.abortProb

/-- What the curves of an executive say of the estimates at hand has property `P`. -/
def Weighed [Scalar S] (P : S → Prop) (stay : Logistic S) (e : Executive S R M) : Prop :=
  e.decomposition.forest.Weighed P e.abortCurve e.allocation.partitioning stay

theorem Weighed.congr [Scalar S] {e' : Executive S R M} (h : e.Weighed P stay)
    (hforest : e'.decomposition.forest = e.decomposition.forest)
    (hsettings : e'.settings = e.settings) : e'.Weighed P stay := by
  have habort : e'.abortCurve = e.abortCurve := congrArg (·.2.1) hsettings
  rw [Weighed, hforest, habort, allocation_of_settings hsettings]
  exact h

namespace Records

/-- What is kept is reported. -/
theorem report (h : e.Records P stay) (t : TaskId) : (e.report t).Shows P where
  abort := h.abort
  whole p hp := by
    obtain ⟨b, hb, hwhole⟩ := Option.bind_eq_some_iff.mp hp
    obtain ⟨k, -, hk⟩ := Option.bind_eq_some_iff.mp hb
    exact h.decomposition.whole k b hk p hwhole
  stay := h.decomposition.stay

variable [Scalar S]

theorem finish (h : e.Records P stay) (t : TaskId) (givenUp : Bool) :
    (e.finish t givenUp).Records P stay := by
  obtain ⟨d, hd, hrecord⟩ := exists_decomposition_finish e t givenUp
  have hrecorded : d.Records P stay := by
    rcases hrecord with hrecord | ⟨-, rfl⟩
    · exact h.decomposition.record hrecord
    · exact h.decomposition
  refine ⟨?_, h.abort⟩
  rw [hd]
  cases givenUp with
  | false => exact hrecorded
  | true => exact hrecorded.noteAborted t

theorem abortCurrent (h : e.Records P stay) : e.abortCurrent.2.Records P stay := by
  unfold Executive.abortCurrent
  split
  · exact h.finish _ true
  · exact h

variable [UnitSource R S]

/-- Work keeps the probability of giving up that was drawn against. -/
theorem work [Performer M] (h : e.Records P stay) (hweighed : e.Weighed P stay) (t : TaskId) :
    (e.work t).Records P stay := by
  have hdrawn : (e.drawn t).Records P stay := ⟨h.decomposition, hweighed.abort e.elapsed t⟩
  have hadvanced (m : M) : ((e.drawn t).advanced t m).Records P stay :=
    ⟨hdrawn.decomposition, hdrawn.abort⟩
  exact work_induction e t (hdrawn.finish t true) (fun m => (hadvanced m).finish t false)
    hadvanced hdrawn

variable [IndexSource R]

theorem nextTask (h : e.Records P stay) (hweighed : e.Weighed P stay) (last : Option TaskId) :
    (e.nextTask last).2.Records P stay := by
  cases last with
  | none => exact ⟨h.decomposition.first hweighed e.source, h.abort⟩
  | some t => exact ⟨h.decomposition.next hweighed t e.source, h.abort⟩

variable [Performer M]

theorem engaged (h : e.Records P stay) (hweighed : e.Weighed P stay) :
    e.engaged.2.Records P stay := by
  cases hexec : e.phase.isExecuting with
  | true =>
    obtain ⟨t, ht⟩ := exists_executing hexec
    rw [engaged_of_executing ht]
    exact ⟨h.decomposition, h.abort⟩
  | false =>
    have hnext := nextTask
      (e := { { e with step := e.step + 1 } with phase := .allocating })
      ⟨h.decomposition, h.abort⟩ hweighed e.last
    rw [engaged_of_not_executing hexec]
    exact ⟨hnext.decomposition, hnext.abort⟩

/-- **A timestep keeps and reports what it reads off the curves.** -/
theorem timestep (h : e.Records P stay) (hweighed : e.Weighed P stay) :
    e.timestep.2.Records P stay ∧ e.timestep.1.Shows P := by
  have hwork := (h.engaged hweighed).work
    (hweighed.congr e.forest_engaged e.settings_engaged) e.engaged.1
  exact ⟨hwork, hwork.report e.engaged.1⟩

theorem call (h : e.Records P stay) (hweighed : e.Weighed P stay) (call : Call) :
    (e.call call).Records P stay := by
  cases call with
  | timestep => exact (h.timestep hweighed).1
  | abortCurrent => exact h.abortCurrent
  | nextTask last => exact h.nextTask hweighed last

end Records

section Run

variable [Scalar S] [UnitSource R S] [IndexSource R]

theorem settings_call [Performer M] (e : Executive S R M) (call : Call) :
    (e.call call).settings = e.settings := by
  cases call with
  | timestep => exact e.settings_timestep
  | abortCurrent => exact e.settings_abortCurrent
  | nextTask last => rfl

variable {e : Executive S R} {duration : TaskId → Nat} {good : Estimate S → Prop}
  (hupdate : ∀ estimate t, good estimate →
    good (estimate.update (Scalar.ofNat (max (duration t) 1))))
include hupdate

/-- What durations do not take from an estimate, calls do not take from the estimates. -/
theorem Timed.good_call (h : e.Timed duration)
    (hgood : ∀ t task, e.decomposition.forest.task? t = some task → good task.estimate)
    (call : Call) : ∀ t task, (e.call call).decomposition.forest.task? t = some task →
      good task.estimate := by
  intro t task' htask'
  have hout := Decomposition.forest_outline_of_outline (e.outline_call call)
  have hlt := Forest.lt_size_of_task? htask'
  rw [Forest.size_eq_of_outline hout] at hlt
  obtain ⟨task, htask⟩ := Forest.exists_task? hlt
  obtain ⟨learnt, hlearnt, hestimate⟩ := h.estimate_call htask call
  cases htask'.symm.trans hlearnt
  rw [hestimate]
  exact Function.Iterate.rec good (hgood t task htask) (fun estimate => hupdate estimate t) _

/-- **What is true of all that the curves say of estimates is true of all that is reported**, if
it is true of estimates that they have been worked out from durations. -/
theorem Timed.shows_callReports (h : e.Timed duration) (hrecords : e.Records P stay)
    (hgood : ∀ t task, e.decomposition.forest.task? t = some task → good task.estimate)
    (hweighed : ∀ f : Forest S, (∀ t task, f.task? t = some task → good task.estimate) →
      f.Weighed P e.abortCurve e.allocation.partitioning stay) (calls : List Call) :
    ∀ r ∈ e.callReports calls, r.Shows P := by
  -- over the calls: settings stay, what is kept is read off the curves, estimates stay good
  induction calls generalizing e with
  | nil => intro r hr; cases hr
  | cons call calls ih =>
    have hhere : e.Weighed P stay := hweighed _ hgood
    have hsettings := e.settings_call call
    have habort : (e.call call).abortCurve = e.abortCurve := congrArg (·.2.1) hsettings
    have hrest := ih (h.call call) (hrecords.call hhere call) (h.good_call hupdate hgood call)
      (by rw [habort, allocation_of_settings hsettings]; exact hweighed)
    cases call with
    | timestep =>
      intro r hr
      rcases List.mem_cons.mp hr with rfl | hr
      · exact (hrecords.timestep hhere).2
      · exact hrest r hr
    | abortCurrent => exact hrest
    | nextTask last => exact hrest

end Run

end Executive

end TaskAllocation
