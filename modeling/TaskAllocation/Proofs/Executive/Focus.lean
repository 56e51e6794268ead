import Mathlib.Control.Monad.Basic
import TaskAllocation.Draw.Scripted
import TaskAllocation.Executive
import TaskAllocation.Proofs.Decomposition.Growth

/-!
# The focus follows the task

An executive that walks between blocks never gets lost: the task that it runs, or ran
last, is the active member of the block that has the focus.  So the step of the walk
always has a task of that block to start from, and its way out of a failure is never taken.

## Main definitions

* `Phase.task?` — the task that a phase is about.
* `Executive.Act`, `Executive.after`, `Executive.reports` — timesteps and abortions from
  outside, in any order.
* `Executive.OnCourse` — the invariant of the walk.
* `Executive.ChoosesUnaided` — the next choice succeeds without a way out.

## Main results

* `Executive.OnCourse.act` — the invariant is kept.
* `Executive.focus_follows_task` — **the focus follows the task**, in every run.
-/

namespace TaskAllocation

/-- The task that a phase is about, running or ended. -/
def Phase.task? : Phase → Option TaskId
  | .idle => none
  | .allocating => none
  | .executing t => some t
  | .completed t => some t
  | .aborted t => some t

/-- A task is running. -/
def Phase.isExecuting : Phase → Bool
  | .executing _ => true
  | _ => false

namespace Decomposition

variable {S : Type} {d e : Decomposition S} {t : TaskId}

/-- What is chosen is a matter of blocks and focus alone. -/
theorem HasChosen.congr (h : d.HasChosen t) (hblocks : e.blocks = d.blocks)
    (hfocus : e.focus = d.focus) : e.HasChosen t := by
  have hlookup : e.block? = d.block? := funext fun k => by rw [block?, block?, hblocks]
  obtain ⟨b, hb, hchosen⟩ := h
  refine ⟨b, ?_, hchosen⟩
  rw [focused?, hfocus, hlookup]
  exact hb

theorem HasChosen.focus_isSome (h : d.HasChosen t) : d.focus.isSome := by
  obtain ⟨b, hb, -⟩ := h
  obtain ⟨k, hk, -⟩ := Option.bind_eq_some_iff.mp hb
  rw [hk]
  rfl

theorem noteAborted_blocks_focus (d : Decomposition S) (t : TaskId) :
    (d.noteAborted t).blocks = d.blocks ∧ (d.noteAborted t).focus = d.focus := by
  unfold noteAborted
  split
  · split
    · exact ⟨rfl, rfl⟩
    · exact ⟨rfl, rfl⟩
  · exact ⟨rfl, rfl⟩

theorem record_blocks_focus [Scalar S] {measured : S} {learn : Bool}
    (h : d.record t measured learn = .ok e) : e.blocks = d.blocks ∧ e.focus = d.focus := by
  obtain ⟨f, -, rfl⟩ := Except.map_eq_ok_iff.mp h
  exact ⟨rfl, rfl⟩

end Decomposition

namespace Executive

variable {S R M : Type}

/-! ### Acts -/

/-- What may happen to an executive from outside. -/
inductive Act where
  /-- Run a timestep. -/
  | timestep
  /-- Give up the running task. -/
  | abortCurrent
  deriving Repr, DecidableEq, Inhabited

section Acts

variable [Scalar S] [UnitSource R S] [IndexSource R] [Performer M]

/-- The executive after an act. -/
def act (e : Executive S R M) : Act → Executive S R M
  | .timestep => e.timestep.2
  | .abortCurrent => e.abortCurrent.2

/-- The executive after a sequence of acts. -/
def after (e : Executive S R M) (acts : List Act) : Executive S R M := acts.foldl act e

/-- The reports of the timesteps among a sequence of acts. -/
def reports (e : Executive S R M) : List Act → List (Report S)
  | [] => []
  | .timestep :: acts => e.timestep.1 :: (e.act .timestep).reports acts
  | .abortCurrent :: acts => (e.act .abortCurrent).reports acts

end Acts

/-! ### The invariant -/

/-- The executive walks between blocks, and the focus is with its task. -/
structure OnCourse (e : Executive S R M) : Prop where
  /-- Tasks and blocks agree. -/
  coherent : e.decomposition.Coherent
  /-- The next task is chosen by the walk. -/
  policy : e.allocation.policy = .neighbour
  /-- A block has the focus. -/
  focused : e.decomposition.focus.isSome
  /-- The task was chosen in the block with the focus, and nothing has been since. -/
  chosen : ∀ t, e.phase.task? = some t → e.decomposition.HasChosen t
  /-- Between tasks, the task that ended last is the one that the phase is about. -/
  last_eq : e.phase.isExecuting = false → e.last = e.phase.task?

/-- The next choice succeeds: the walk needs no way out of a failure. -/
def ChoosesUnaided [Scalar S] [UnitSource R S] (e : Executive S R M) : Prop :=
  ∃ k, e.decomposition.focus = some k ∧
    match e.last with
    | none => ∃ t d source,
        e.allocation.partitioning.choose e.decomposition k e.source = (.ok t, d, source)
    | some last => ∃ t d source,
        e.allocation.neighbourStep e.decomposition last e.source = (.ok t, d, source)

theorem isSome_wholeProb_report {e : Executive S R M} {t : TaskId}
    (hchosen : e.decomposition.HasChosen t) (u : TaskId) :
    (e.report u).wholeProb.isSome := by
  obtain ⟨b, hb, -, -, hprob⟩ := hchosen
  show (e.decomposition.focused?.bind (·.lastWholeProb)).isSome
  rw [hb]
  exact hprob

namespace OnCourse

variable {e : Executive S R M} {t : TaskId}

/-- The member that the next choice starts from. -/
theorem exists_block_of_last (h : e.OnCourse) (hphase : e.phase.isExecuting = false)
    (hlast : e.last = some t) : ∃ k b, e.decomposition.focus = some k ∧
      e.decomposition.block? k = some b ∧ b.contains t = true := by
  rw [h.last_eq hphase] at hlast
  obtain ⟨b, hb, hmem, -⟩ := h.chosen t hlast
  obtain ⟨k, hk, hblock⟩ := Option.bind_eq_some_iff.mp hb
  exact ⟨k, b, hk, hblock, hmem⟩

/-- Steps, draws and mechanisms are no part of the invariant. -/
theorem congr (h : e.OnCourse) {e' : Executive S R M}
    (hdecomposition : e'.decomposition = e.decomposition)
    (hallocation : e'.allocation = e.allocation) (hphase : e'.phase = e.phase)
    (hlast : e'.last = e.last) : e'.OnCourse := by
  obtain ⟨hcoherent, hpolicy, hfocused, hchosen, hlast_eq⟩ := h
  rw [← hdecomposition] at hcoherent hfocused hchosen
  rw [← hallocation] at hpolicy
  rw [← hphase] at hchosen
  rw [← hphase, ← hlast] at hlast_eq
  exact ⟨hcoherent, hpolicy, hfocused, hchosen, hlast_eq⟩

variable [Scalar S]

/-! ### Choosing -/

/-- **A choice succeeds and what it chooses is active**: the first task is chosen in the
block with the focus, and every later one by a step from a member of that block. -/
theorem choose [UnitSource R S] (h : e.OnCourse) (hphase : e.phase.isExecuting = false) :
    e.ChoosesUnaided ∧ ∀ [IndexSource R],
      (e.nextTask e.last).2.decomposition.Coherent ∧
        (e.nextTask e.last).2.decomposition.HasChosen (e.nextTask e.last).1 := by
  cases hlast : e.last with
  | none =>
    -- nothing has run yet, and any block will do
    obtain ⟨k, hk⟩ := Option.isSome_iff_exists.mp h.focused
    obtain ⟨t, d, source, hchoose, hchosen⟩ :=
      h.coherent.choose_of_focus e.allocation.partitioning hk e.source
    have hcoherent := h.coherent.choose e.allocation.partitioning k e.source
    rw [hchoose] at hcoherent
    constructor
    · refine ⟨k, hk, ?_⟩
      rw [hlast]
      exact ⟨t, d, source, hchoose⟩
    · simp only [nextTask, Allocation.first, hk, hchoose]
      exact ⟨hcoherent, hchosen⟩
  | some last =>
    -- the task that ended is a member of the block with the focus
    obtain ⟨k, b, hk, hb, hmem⟩ := h.exists_block_of_last hphase hlast
    obtain ⟨t, d, source, hstep, hchosen⟩ :=
      h.coherent.neighbourStep_of_contains e.allocation hk hb hmem e.source
    have hcoherent := h.coherent.neighbourStep e.allocation last e.source
    rw [hstep] at hcoherent
    constructor
    · refine ⟨k, hk, ?_⟩
      rw [hlast]
      exact ⟨t, d, source, hstep⟩
    · simp only [nextTask, Allocation.next, h.policy, Allocation.neighbour, hk, hstep]
      exact ⟨hcoherent, hchosen⟩

/-! ### Ending a task -/

/-- What is recorded at the end of a task is no matter of blocks and focus. -/
theorem finish_decomposition (h : e.decomposition.Coherent) (t : TaskId) (givenUp : Bool) :
    (e.finish t givenUp).decomposition.Coherent ∧
      (e.finish t givenUp).decomposition.blocks = e.decomposition.blocks ∧
      (e.finish t givenUp).decomposition.focus = e.decomposition.focus := by
  obtain ⟨d, hd, hcoherent, hblocks, hfocus⟩ : ∃ d, (e.finish t givenUp).decomposition =
      (if givenUp then d.noteAborted t else d) ∧ d.Coherent ∧
        d.blocks = e.decomposition.blocks ∧ d.focus = e.decomposition.focus := by
    refine ⟨_, rfl, ?_⟩
    split
    · next d hrecord =>
      obtain ⟨hblocks, hfocus⟩ := Decomposition.record_blocks_focus hrecord
      exact ⟨h.record hrecord, hblocks, hfocus⟩
    · exact ⟨h, rfl, rfl⟩
  rw [hd]
  cases givenUp with
  | false => exact ⟨hcoherent, hblocks, hfocus⟩
  | true =>
    obtain ⟨hblocks', hfocus'⟩ := d.noteAborted_blocks_focus t
    exact ⟨hcoherent.noteAborted t, hblocks'.trans hblocks, hfocus'.trans hfocus⟩

/-- A task that ends stays active. -/
theorem finish (h : e.OnCourse) (hchosen : e.decomposition.HasChosen t) (givenUp : Bool) :
    (e.finish t givenUp).OnCourse ∧ (e.finish t givenUp).decomposition.HasChosen t := by
  obtain ⟨hcoherent, hblocks, hfocus⟩ := finish_decomposition h.coherent t givenUp
  have hkept := hchosen.congr hblocks hfocus
  refine ⟨⟨hcoherent, h.policy, hkept.focus_isSome, ?_, ?_⟩, hkept⟩
  · intro u hu
    cases givenUp <;> (cases hu; exact hkept)
  · intro _
    cases givenUp <;> rfl

theorem abortCurrent (h : e.OnCourse) : e.abortCurrent.2.OnCourse := by
  unfold Executive.abortCurrent
  split
  · next t hphase => exact (h.finish (h.chosen t (by rw [hphase]; rfl)) true).1
  · exact h

/-! ### Running a task -/

section Work

variable [Performer M]

theorem carryOn (h : e.OnCourse) (hchosen : e.decomposition.HasChosen t) :
    (e.carryOn t).OnCourse ∧ (e.carryOn t).decomposition.HasChosen t := by
  unfold Executive.carryOn
  split
  · exact ⟨h, hchosen⟩
  · next m _ =>
    have hmoved : ({ e with
        mechanisms := e.mechanisms.setIfInBounds t (Performer.execute m)
        elapsed := e.elapsed + 1 } : Executive S R M).OnCourse := h.congr rfl rfl rfl rfl
    dsimp only
    split
    · exact hmoved.finish hchosen false
    · exact ⟨hmoved, hchosen⟩

variable [UnitSource R S]

theorem work (h : e.OnCourse) (hchosen : e.decomposition.HasChosen t) :
    (e.work t).OnCourse ∧ (e.work t).decomposition.HasChosen t := by
  have hdrawn : ({ e with
      abortProb := e.abortCurve.prob (Scalar.ofNat e.elapsed) (e.decomposition.forest.estimate t)
      source := (UnitSource.uniform e.source : S × R).2 } : Executive S R M).OnCourse :=
    h.congr rfl rfl rfl rfl
  unfold Executive.work
  dsimp only
  split
  · exact hdrawn.finish hchosen true
  · exact hdrawn.carryOn hchosen

variable [IndexSource R]

/-- The task that is engaged, new or not, is active in the block with the focus. -/
theorem engage (h : e.OnCourse) :
    e.engage.2.OnCourse ∧ e.engage.2.decomposition.HasChosen e.engage.1 := by
  unfold Executive.engage
  split
  · next t hphase => exact ⟨h, h.chosen t (by rw [hphase]; rfl)⟩
  · next hphase =>
    -- no task is running, so one is chosen
    have hidle : e.phase.isExecuting = false := by
      cases hexec : e.phase with
      | executing t => exact absurd hexec (hphase t)
      | _ => rfl
    obtain ⟨hcoherent, hchosen⟩ := (h.choose hidle).2
    refine ⟨⟨hcoherent, h.policy, hchosen.focus_isSome, ?_, ?_⟩, hchosen⟩
    · rintro t ht
      cases ht
      exact hchosen
    · intro hexec
      cases hexec

/-- **A timestep keeps the invariant**, and its report shows the probability that its task
was chosen with. -/
theorem timestep (h : e.OnCourse) :
    e.timestep.2.OnCourse ∧ e.timestep.1.wholeProb.isSome := by
  have hbegun : ({ e with step := e.step + 1 } : Executive S R M).OnCourse :=
    h.congr rfl rfl rfl rfl
  obtain ⟨hengaged, hchosen⟩ := hbegun.engage
  obtain ⟨hworked, hkept⟩ := hengaged.work hchosen
  exact ⟨hworked, isSome_wholeProb_report hkept _⟩

/-! ### Runs -/

theorem act (h : e.OnCourse) : ∀ act, (e.act act).OnCourse
  | .timestep => h.timestep.1
  | .abortCurrent => h.abortCurrent

theorem after (h : e.OnCourse) (acts : List Act) : (e.after acts).OnCourse := by
  induction acts generalizing e with
  | nil => exact h
  | cons act acts ih => exact ih (h.act act)

theorem wholeProb_isSome (h : e.OnCourse) (acts : List Act) :
    ∀ report ∈ e.reports acts, report.wholeProb.isSome := by
  induction acts generalizing e with
  | nil => exact fun _ hreport => absurd hreport List.not_mem_nil
  | cons act acts ih =>
    have hrest := ih (h.act act)
    cases act with
    | abortCurrent => exact hrest
    | timestep =>
      intro report hreport
      rcases List.mem_cons.mp hreport with rfl | hreport
      · exact h.timestep.2
      · exact hrest report hreport

end Work

end OnCourse

variable [Scalar S]

theorem start_eq_ok_iff {d : Decomposition S} {a : Allocation S} {abort : AbortCurve S}
    {learns : Bool} {source : R} {mechanisms : Array M} {e : Executive S R M} :
    start d a abort learns source mechanisms = .ok e ↔
      d.validate = .ok () ∧ mechanisms.size = d.forest.size ∧
        { decomposition := d, allocation := a, abortCurve := abort, learns := learns
          source := source, mechanisms := mechanisms, phase := .idle, current := none
          last := none, elapsed := 0, step := 0, abortProb := 0.0 } = e := by
  unfold start
  split
  · next hvalid => simp [hvalid]
  · next hvalid =>
    split
    · next hsize => simp [hvalid, hsize]
    · next hsize => simp [hsize]

/-- An executive begins on course if there are blocks. -/
theorem onCourse_of_start {d : Decomposition S} (hd : d.Coherent) {a : Allocation S}
    {abort : AbortCurve S} {learns : Bool} {source : R} {mechanisms : Array M}
    {e : Executive S R M} (hstart : start d a abort learns source mechanisms = .ok e)
    (hpolicy : a.policy = .neighbour) (hblocks : 0 < d.blocks.size) : e.OnCourse := by
  have hfocused : d.focus.isSome := by
    rw [Option.isSome_iff_ne_none]
    exact fun hnone => absurd (hd.focus_eq_none_iff.mp hnone) (Nat.ne_of_gt hblocks)
  obtain ⟨-, -, rfl⟩ := start_eq_ok_iff.mp hstart
  exact ⟨hd, hpolicy, hfocused, (fun _ ht => nomatch ht), fun _ => rfl⟩

/-- **The focus follows the task.**  In every run of an executive that walks between
blocks, the task that runs or ran last is the active member of the block with the focus,
every choice succeeds unaided, and every report shows a probability. -/
theorem focus_follows_task {R₀ : Type} [UnitSource R₀ S] [IndexSource R₀] [UnitSource R S]
    [IndexSource R] [Performer M] (root : TaskSpec S) (curve : Logistic S)
    (calls : List (Decomposition.Call S R₀)) {a : Allocation S} {abort : AbortCurve S}
    {learns : Bool} {source : R} {mechanisms : Array M} {e : Executive S R M}
    (hstart : start ((Decomposition.single root curve).run calls) a abort learns source
      mechanisms = .ok e)
    (hpolicy : a.policy = .neighbour)
    (hblocks : 0 < ((Decomposition.single root curve).run calls).blocks.size)
    (acts : List Act) :
    (∀ t, (e.after acts).phase.task? = some t →
      ∃ k b, (e.after acts).decomposition.focus = some k ∧
        (e.after acts).decomposition.block? k = some b ∧ b.contains t = true ∧
          b.active = some t) ∧
      ((e.after acts).phase.isExecuting = false → (e.after acts).ChoosesUnaided) ∧
      ∀ report ∈ e.reports acts, report.wholeProb.isSome := by
  have hd := (Decomposition.Coherent.single root curve).run calls
  have hcourse := onCourse_of_start hd hstart hpolicy hblocks
  have hafter := hcourse.after acts
  refine ⟨fun t ht => ?_, fun hphase => (hafter.choose hphase).1, hcourse.wholeProb_isSome acts⟩
  obtain ⟨b, hb, hmem, hactive, -⟩ := hafter.chosen t ht
  obtain ⟨k, hk, hblock⟩ := Option.bind_eq_some_iff.mp hb
  exact ⟨k, b, hk, hblock, hmem, hactive⟩

/-- A root of two parts, given up once from outside. -/
theorem focus_follows_task_two_parts :
    ∃ e : Executive Float ScriptedWords,
      start ((Decomposition.single ⟨"root", 0.5, 4⟩ default).run
        ([.add ⟨"left", 0.5, 2⟩, .add ⟨"right", 0.5, 2⟩, .split 0 [1, 2]] :
          List (Decomposition.Call Float ScriptedWords)))
        ⟨.neighbour, default⟩ default true ⟨[]⟩
        #[.lasting 3, .lasting 2, .lasting 2] = .ok e ∧
      (∀ t, (e.after [.timestep, .abortCurrent, .timestep]).phase.task? = some t →
        ∃ k b, (e.after [.timestep, .abortCurrent, .timestep]).decomposition.focus = some k ∧
          (e.after [.timestep, .abortCurrent, .timestep]).decomposition.block? k = some b ∧
            b.contains t = true ∧ b.active = some t) := by
  refine ⟨_, start_eq_ok_iff.mpr ⟨?_, ?_, rfl⟩, ?_⟩
  · decide +kernel
  · decide +kernel
  · refine (focus_follows_task _ _ _ (start_eq_ok_iff.mpr ⟨?_, ?_, rfl⟩) rfl ?_ _).1
    · decide +kernel
    · decide +kernel
    · decide +kernel

end Executive

end TaskAllocation
