import TaskAllocation.Proofs.Executive.Timing

/-!
# The episodes of a run

Between one choice and the next an executive is about one task, and shows so in every report:
the task is running with a count of one, two, three and so on, until it is completed at its
duration, is given up with the count as it was, or is stopped from outside.  So every timestep
belongs to one task that was chosen, and the timesteps begun so far can be told from the
ends of the tasks.

## Main definitions

* `Sight`, `Executive.sights` — what is seen of a run, reports and stops.
* `Sight.charge` — the timesteps that an end accounts for.
* `Episode`, `Episode.Sound` — what is seen of one task between its choice and its end.
* `History` — the episodes of a run.

## Main results

* `Executive.Timed.step_act` — an act moves the timesteps begun by what it accounts for.
* `Executive.Timed.exists_history` — what is seen is the episodes, one after another.
* `Executive.run_episodes` — **a run is its episodes**, and they account for all timesteps.
-/

namespace TaskAllocation

/-- What is seen of an executive. -/
inductive Sight (S : Type) where
  /-- A timestep shows its report. -/
  | report (r : Report S)
  /-- A task that has run for `elapsed` timesteps is stopped from outside. -/
  | stopped (t : TaskId) (elapsed : Nat)
  deriving Repr, Inhabited, DecidableEq

namespace Sight

variable {S : Type}

/-- The report of a timestep. -/
def report? : Sight S → Option (Report S)
  | .report r => some r
  | .stopped _ _ => none

/-- The timesteps that an end accounts for.  When a timestep gives a task up, that timestep is
one more than the task has run for. -/
def charge (duration : TaskId → Nat) : Sight S → Nat
  | .report r =>
    match r.phase with
    | .completed t => max (duration t) 1
    | .aborted _ => r.elapsed + 1
    | _ => 0
  | .stopped _ elapsed => elapsed

variable (duration : TaskId → Nat) {r : Report S} {t : TaskId}

theorem charge_of_completed (h : r.phase = .completed t) :
    (report r).charge duration = max (duration t) 1 := by
  simp [charge, h]

theorem charge_of_aborted (h : r.phase = .aborted t) :
    (report r).charge duration = r.elapsed + 1 := by
  simp [charge, h]

theorem charge_of_executing (h : r.phase = .executing t) : (report r).charge duration = 0 := by
  simp [charge, h]

/-- The timesteps that all the ends together account for. -/
def charges : List (Sight S) → Nat
  | [] => 0
  | sight :: sights => sight.charge duration + charges sights

@[simp]
theorem charges_nil : charges duration ([] : List (Sight S)) = 0 := rfl

@[simp]
theorem charges_singleton (sight : Sight S) : charges duration [sight] = sight.charge duration :=
  rfl

theorem charges_append (sights more : List (Sight S)) :
    charges duration (sights ++ more) = charges duration sights + charges duration more := by
  induction sights with
  | nil => rw [List.nil_append, charges_nil, Nat.zero_add]
  | cons sight sights ih => rw [List.cons_append, charges, charges, ih, Nat.add_assoc]

end Sight

/-! ### Episodes -/

/-- How an episode ends. -/
inductive Ending (S : Type) where
  /-- A timestep completes the task or gives it up. -/
  | reported (r : Report S)
  /-- The task is stopped from outside. -/
  | stopped
  /-- The task is running still. -/
  | unfinished
  deriving Repr, Inhabited, DecidableEq

/-- A choice, and what is seen until the chosen task ends. -/
structure Episode (S : Type) where
  /-- The chosen task, and the block that has the focus then. -/
  placement : Executive.Placement
  /-- The reports of the timesteps that carry the task on. -/
  running : List (Report S)
  /-- How the task ends. -/
  ending : Ending S
  deriving Repr, Inhabited, DecidableEq

/-- The report is about a chosen task, with the focus where it was at the choice. -/
def Report.About {S : Type} (d : Decomposition S) (p : Executive.Placement) (r : Report S) : Prop :=
  r.task = p.task ∧ r.focusRoot = d.headOf? p.focus

/-- The reports show a chosen task running, with counts from one on. -/
def Running {S : Type} (d : Decomposition S) (p : Executive.Placement) (reports : List (Report S)) :
    Prop :=
  ∀ i r, reports[i]? = some r → r.About d p ∧ r.phase = .executing p.task ∧ r.elapsed = i + 1

/-- How an episode may end after `count` timesteps. -/
def Ending.Sound {S : Type} (d : Decomposition S) (duration : TaskId → Nat)
    (p : Executive.Placement) (count : Nat) : Ending S → Prop
  | .reported r => r.About d p ∧
      ((r.phase = .completed p.task ∧ r.elapsed = count + 1 ∧
          r.elapsed = max (duration p.task) 1) ∨
        (r.phase = .aborted p.task ∧ r.elapsed = count))
  | .stopped => 0 < count
  | .unfinished => 0 < count

namespace Episode

variable {S : Type}

/-- What is seen of an episode. -/
def sights (episode : Episode S) : List (Sight S) :=
  episode.running.map .report ++
    match episode.ending with
    | .reported r => [.report r]
    | .stopped => [.stopped episode.placement.task episode.running.length]
    | .unfinished => []

/-- The task runs, short of its duration, and then ends. -/
structure Sound (d : Decomposition S) (duration : TaskId → Nat) (episode : Episode S) : Prop where
  running : Running d episode.placement episode.running
  short : episode.running.length < max (duration episode.placement.task) 1
  ending : episode.ending.Sound d duration episode.placement episode.running.length

end Episode

namespace Running

variable {S : Type} {d : Decomposition S} {p : Executive.Placement} {reports : List (Report S)}

theorem nil : Running d p [] := by
  intro i r hr
  cases hr

theorem append_singleton (h : Running d p reports) {r : Report S} (habout : r.About d p)
    (hphase : r.phase = .executing p.task) (helapsed : r.elapsed = reports.length + 1) :
    Running d p (reports ++ [r]) := by
  intro i r' hr'
  rcases Nat.lt_or_ge i reports.length with hlt | hge
  · rw [List.getElem?_append_left hlt] at hr'
    exact h i r' hr'
  · rw [List.getElem?_append_right hge] at hr'
    obtain ⟨hi, rfl⟩ := List.getElem?_eq_some_iff.mp hr'
    have heq : i = reports.length := by
      have hone : i - reports.length < 1 := hi
      omega
    subst heq
    simpa using ⟨habout, hphase, helapsed⟩

end Running

/-- The episodes of a run, the last one apart if it is not over. -/
structure History (S : Type) where
  /-- The episodes that are over. -/
  past : List (Episode S)
  /-- The episode of the running task. -/
  current : Option (Episode S)
  deriving Repr, Inhabited, DecidableEq

namespace History

variable {S : Type}

/-- All episodes in their order. -/
def episodes (h : History S) : List (Episode S) := h.past ++ h.current.toList

/-- A history with an episode before it. -/
def after (h : History S) (episode : Episode S) : History S := { h with past := episode :: h.past }

@[simp]
theorem episodes_after (h : History S) (episode : Episode S) :
    (h.after episode).episodes = episode :: h.episodes := rfl

end History

namespace Executive

variable {S R M : Type}

/-! ### What is seen of a run -/

/-- A report shows the head of the block that has the focus. -/
theorem about_report [Scalar S] {e : Executive S R M} {d : Decomposition S}
    (hout : e.decomposition.outline = d.outline) (t : TaskId) :
    (e.report t).About d { task := t, focus := e.decomposition.focus } := by
  refine ⟨rfl, ?_⟩
  rw [← Decomposition.headOf?_eq_of_outline hout]
  rfl

/-- The timesteps that the running task has had. -/
def underway (e : Executive S R M) : Nat := if e.phase.isExecuting then e.elapsed else 0

theorem underway_of_executing {e : Executive S R M} {t : TaskId} (h : e.phase = .executing t) :
    e.underway = e.elapsed := by
  rw [underway, h]
  rfl

theorem underway_of_not_executing {e : Executive S R M} (h : e.phase.isExecuting = false) :
    e.underway = 0 := by
  rw [underway, h]
  rfl

/-- The choice that the running task goes back to. -/
def opening (e : Executive S R M) : List Placement :=
  if e.phase.isExecuting then e.place?.toList else []

theorem opening_of_executing {e : Executive S R M} {t : TaskId} (h : e.phase = .executing t) :
    e.opening = [{ task := t, focus := e.decomposition.focus }] := by
  rw [opening, place?, h]
  rfl

theorem opening_of_not_executing {e : Executive S R M} (h : e.phase.isExecuting = false) :
    e.opening = [] := by
  rw [opening, h]
  rfl

section Telling

variable {d : Decomposition S} {duration : TaskId → Nat} {e : Executive S R M}

/-- The running task has shown these reports so far. -/
def Shown (d : Decomposition S) (begun : List (Report S)) (e : Executive S R M) : Prop :=
  begun.length = e.underway ∧ ∀ p ∈ e.opening, Running d p begun

/-- Nothing is shown of a task that is over. -/
theorem Shown.of_not_executing (h : e.phase.isExecuting = false) : Shown d [] e := by
  refine ⟨(underway_of_not_executing h).symm, ?_⟩
  rw [opening_of_not_executing h]
  exact fun _ hp => absurd hp List.not_mem_nil

/-- The history tells what has been seen: the episodes that are over, and that of the running
task. -/
structure Tells (d : Decomposition S) (duration : TaskId → Nat) (e : Executive S R M)
    (history : History S) : Prop where
  past : ∀ episode ∈ history.past, episode.Sound d duration ∧ episode.ending ≠ .unfinished
  current : ∀ episode ∈ history.current, episode.Sound d duration ∧
    episode.ending = .unfinished ∧ episode.running.length = e.elapsed
  isSome_current : history.current.isSome = e.phase.isExecuting

theorem Tells.after {history : History S} (h : Tells d duration e history) {episode : Episode S}
    (hsound : episode.Sound d duration) (hover : episode.ending ≠ .unfinished) :
    Tells d duration e (history.after episode) where
  past other hother := by
    rcases List.mem_cons.mp hother with rfl | hother
    · exact ⟨hsound, hover⟩
    · exact h.past other hother
  current := h.current
  isSome_current := h.isSome_current

/-- A running task may be stopped from outside, or stay unfinished. -/
theorem Timed.sound_stopped [Scalar S] {e : Executive S R} {begun : List (Report S)}
    (h : e.Timed duration) {t : TaskId} (ht : e.phase = .executing t) (hshown : Shown d begun e)
    {ending : Ending S} (hending : ending = .stopped ∨ ending = .unfinished) :
    Episode.Sound d duration
      { placement := { task := t, focus := e.decomposition.focus }
        running := begun
        ending := ending } := by
  obtain ⟨-, hpos, hlt, -⟩ := h.executing t ht
  have hlength : begun.length = e.elapsed := hshown.1.trans (underway_of_executing ht)
  refine ⟨hshown.2 _ ?_, hlength ▸ hlt, ?_⟩
  · rw [opening_of_executing ht]
    exact List.mem_singleton_self _
  · rcases hending with rfl | rfl
    · exact hlength ▸ hpos
    · exact hlength ▸ hpos

/-- Before anything more is seen, there is at most the episode of the running task. -/
theorem Timed.exists_history_nil [Scalar S] {e : Executive S R} {begun : List (Report S)}
    (h : e.Timed duration) (hshown : Shown d begun e) :
    ∃ history : History S, Tells d duration e history ∧
      history.episodes.map (·.placement) = e.opening ∧
      history.episodes.flatMap (·.sights) = begun.map .report := by
  cases hexec : e.phase.isExecuting with
  | true =>
    obtain ⟨t, ht⟩ := exists_executing hexec
    have hsound := h.sound_stopped ht hshown (.inr rfl)
    refine ⟨{ past := [], current := some ⟨⟨t, e.decomposition.focus⟩, begun, .unfinished⟩ },
      ⟨nofun, ?_, hexec.symm⟩, ?_, ?_⟩
    · rintro episode ⟨⟩
      exact ⟨hsound, rfl, hshown.1.trans (underway_of_executing ht)⟩
    · rw [opening_of_executing ht]
      rfl
    · simp [History.episodes, Episode.sights]
  | false =>
    refine ⟨{ past := [], current := none }, ⟨nofun, nofun, hexec.symm⟩, ?_, ?_⟩
    · rw [opening_of_not_executing hexec]
      rfl
    · rw [List.length_eq_zero_iff.mp (hshown.1.trans (underway_of_not_executing hexec))]
      rfl

end Telling

section Sights

variable [Scalar S] [UnitSource R S] [IndexSource R] [Performer M]

/-- What is seen of a sequence of acts. -/
def sights (e : Executive S R M) : List Act → List (Sight S)
  | [] => []
  | .timestep :: acts => .report e.timestep.1 :: (e.act .timestep).sights acts
  | .abortCurrent :: acts =>
    (e.abortCurrent.1.map (Sight.stopped · e.elapsed)).toList ++ (e.act .abortCurrent).sights acts

theorem filterMap_report?_sights (e : Executive S R M) (acts : List Act) :
    (e.sights acts).filterMap Sight.report? = e.reports acts := by
  induction acts generalizing e with
  | nil => rfl
  | cons act acts ih =>
    cases act with
    | timestep =>
      rw [sights, reports, ← ih]
      rfl
    | abortCurrent =>
      rw [sights, reports, ← ih]
      cases e.abortCurrent.1 with
      | none => rfl
      | some t => rfl

/-- The timesteps begun are those that have been reported. -/
theorem step_after_eq (e : Executive S R M) (acts : List Act) :
    (e.after acts).step = e.step + (e.reports acts).length := by
  induction acts generalizing e with
  | nil => rfl
  | cons act acts ih =>
    refine (ih (e.act act)).trans ?_
    cases act with
    | timestep =>
      rw [reports, List.length_cons, Executive.act, e.step_timestep]
      omega
    | abortCurrent => rw [reports, Executive.act, e.step_abortCurrent]

theorem elapsed_engaged_eq (e : Executive S R M) : e.engaged.2.elapsed = e.underway := by
  cases hexec : e.phase.isExecuting with
  | true =>
    obtain ⟨t, ht⟩ := exists_executing hexec
    rw [engaged_of_executing ht, underway_of_executing ht]
  | false => rw [elapsed_engaged hexec, underway_of_not_executing hexec]

/-- A timestep is spent on the running task, or on the one that it chooses. -/
theorem opening_append_placements (e : Executive S R M) (acts : List Act) :
    e.opening ++ e.placements (.timestep :: acts) =
      e.engagedPlace :: (e.act .timestep).placements acts := by
  rw [placements]
  cases hexec : e.phase.isExecuting with
  | true =>
    obtain ⟨t, ht⟩ := exists_executing hexec
    rw [placement?_of_executing hexec, engagedPlace_of_executing ht, opening_of_executing ht]
    rfl
  | false =>
    rw [placement?_of_not_executing hexec, opening_of_not_executing hexec]
    rfl

end Sights

/-! ### Accounting for timesteps -/

section Accounting

variable [Scalar S] [UnitSource R S] [IndexSource R] {duration : TaskId → Nat} {e : Executive S R}
  {d : Decomposition S}

/-- **An act moves the timesteps begun by what it accounts for**, and by what the running task
has had. -/
theorem Timed.step_act (h : e.Timed duration) (act : Act) :
    (e.act act).step + e.underway =
      e.step + Sight.charges duration (e.sights [act]) + (e.act act).underway := by
  cases act with
  | timestep =>
    have hstep : (e.act .timestep).step = e.step + 1 := e.step_timestep
    have hseen : Sight.charges duration (e.sights [.timestep]) =
        (Sight.report e.timestep.1).charge duration := by simp [sights]
    rw [hstep, hseen, ← e.elapsed_engaged_eq]
    change _ = _ + e.timestep.2.underway
    rcases h.timestep_cases with ⟨hphase, hcount⟩ | ⟨hphase, -, hdone⟩ | ⟨hphase, hcount, -⟩
    · have hidle : e.timestep.2.underway = 0 := underway_of_not_executing (congrArg _ hphase)
      -- the timestep that gives the task up is not in its count
      have hcharge : (Sight.report e.timestep.1).charge duration = e.engaged.2.elapsed + 1 :=
        (Sight.charge_of_aborted duration hphase).trans (congrArg (· + 1) hcount)
      omega
    · have hidle : e.timestep.2.underway = 0 := underway_of_not_executing (congrArg _ hphase)
      have hcharge := Sight.charge_of_completed duration (r := e.timestep.1) hphase
      omega
    · have hrunning : e.timestep.2.underway = e.engaged.2.elapsed + 1 :=
        (underway_of_executing hphase).trans hcount
      have hcharge := Sight.charge_of_executing duration (r := e.timestep.1) hphase
      omega
  | abortCurrent =>
    have hstep : (e.act .abortCurrent).step = e.step := e.step_abortCurrent
    rw [hstep]
    cases hexec : e.phase.isExecuting with
    | true =>
      obtain ⟨t, ht⟩ := exists_executing hexec
      have hidle : (e.act .abortCurrent).underway = 0 := by
        rw [Executive.act, abortCurrent_of_executing ht]
        rfl
      rw [hidle, underway_of_executing ht]
      simp [sights, abortCurrent_of_executing ht, Sight.charge]
    | false => simp [sights, Executive.act, abortCurrent_of_not_executing hexec]

theorem sights_cons (e : Executive S R) (act : Act) (acts : List Act) :
    e.sights (act :: acts) = e.sights [act] ++ (e.act act).sights acts := by
  cases act with
  | timestep => rfl
  | abortCurrent => simp [sights]

/-- All timesteps are accounted for by the ends of tasks and the running task. -/
theorem Timed.step_after (h : e.Timed duration) (acts : List Act) :
    (e.after acts).step + e.underway =
      e.step + Sight.charges duration (e.sights acts) + (e.after acts).underway := by
  induction acts generalizing e with
  | nil => rfl
  | cons act acts ih =>
    have hact := h.step_act act
    have hrest := ih (h.act act)
    rw [sights_cons, Sight.charges_append]
    change ((e.act act).after acts).step + _ = _ + ((e.act act).after acts).underway
    omega

/-! ### Telling a run by its episodes -/

variable {begun : List (Report S)}

/-- What has been shown of the running task, or of the one that is chosen now. -/
theorem Shown.engaged (h : Shown d begun e) :
    Running d e.engagedPlace begun ∧ begun.length = e.engaged.2.elapsed := by
  refine ⟨?_, h.1.trans e.elapsed_engaged_eq.symm⟩
  cases hexec : e.phase.isExecuting with
  | true =>
    obtain ⟨t, ht⟩ := exists_executing hexec
    refine h.2 _ ?_
    rw [engagedPlace_of_executing ht, opening_of_executing ht]
    exact List.mem_singleton_self _
  | false =>
    rw [List.length_eq_zero_iff.mp (h.1.trans (underway_of_not_executing hexec))]
    exact .nil

namespace Timed

/-- **What a timestep shows**: its task goes on, or this is how its episode ends. -/
theorem shown_timestep (h : e.Timed duration) (hout : e.decomposition.outline = d.outline)
    (hshown : Shown d begun e) :
    (Shown d (begun ++ [e.timestep.1]) e.timestep.2 ∧
        e.timestep.2.opening = [e.engagedPlace]) ∨
      (e.timestep.2.phase.isExecuting = false ∧
        Episode.Sound d duration ⟨e.engagedPlace, begun, .reported e.timestep.1⟩) := by
  obtain ⟨hrunning, hlength⟩ := hshown.engaged
  obtain ⟨houtline, -, hfocus, -⟩ := e.timestep_keeps
  have habout : e.timestep.1.About d e.engagedPlace := by
    rw [engagedPlace, ← hfocus]
    exact about_report (houtline.trans hout) e.engaged.1
  have hshort : begun.length < max (duration e.engaged.1) 1 := hlength ▸ h.engaged.elapsed_lt
  rcases h.timestep_cases with ⟨hphase, hcount⟩ | ⟨hphase, hcount, hdone⟩ | ⟨hphase, hcount, -⟩
  · exact .inr ⟨congrArg _ hphase, hrunning, hshort, habout,
      .inr ⟨hphase, hcount.trans hlength.symm⟩⟩
  · have hnext : e.timestep.1.elapsed = begun.length + 1 := hlength ▸ hcount
    exact .inr ⟨congrArg _ hphase, hrunning, hshort, habout,
      .inl ⟨hphase, hnext, hcount.trans hdone⟩⟩
  · have hnext : e.timestep.1.elapsed = begun.length + 1 := hlength ▸ hcount
    have hopening : e.timestep.2.opening = [e.engagedPlace] := by
      rw [opening_of_executing hphase, hfocus]
      rfl
    refine .inl ⟨⟨?_, ?_⟩, hopening⟩
    · rw [underway_of_executing hphase, List.length_append]
      exact hnext.symm
    · intro p hp
      rw [hopening, List.mem_singleton] at hp
      exact hp ▸ hrunning.append_singleton habout hphase hnext

/-- **What is seen is the episodes, one after another**, from the choice of the running task
on. -/
theorem exists_history (h : e.Timed duration) (hout : e.decomposition.outline = d.outline)
    (hshown : Shown d begun e) (acts : List Act) :
    ∃ history : History S, Tells d duration (e.after acts) history ∧
      history.episodes.map (·.placement) = e.opening ++ e.placements acts ∧
      history.episodes.flatMap (·.sights) = begun.map .report ++ e.sights acts := by
  -- the reports of the running task wait until it ends, and then make an episode
  induction acts generalizing e begun with
  | nil =>
    obtain ⟨history, htells, hplaces, hseen⟩ := h.exists_history_nil hshown
    refine ⟨history, htells, ?_, ?_⟩
    · rw [hplaces, placements, List.append_nil]
    · rw [hseen, sights, List.append_nil]
  | cons act acts ih =>
    have hout' := (e.outline_act act).trans hout
    cases act with
    | timestep =>
      rw [opening_append_placements]
      rcases h.shown_timestep hout hshown with ⟨hgoes, hopening⟩ | ⟨hover, hsound⟩
      · obtain ⟨history, htells, hplaces, hseen⟩ := ih (h.act .timestep) hout' hgoes
        refine ⟨history, htells, ?_, ?_⟩
        · rw [hplaces, Executive.act, hopening]
          rfl
        · rw [hseen, List.map_append, List.append_assoc]
          rfl
      · obtain ⟨history, htells, hplaces, hseen⟩ :=
          ih (h.act .timestep) hout' (Shown.of_not_executing hover)
        refine ⟨history.after _, htells.after hsound (by simp), ?_, ?_⟩
        · rw [History.episodes_after, List.map_cons, hplaces, Executive.act,
            opening_of_not_executing hover]
          rfl
        · rw [History.episodes_after, List.flatMap_cons, hseen]
          simp [Episode.sights, sights]
    | abortCurrent =>
      cases hexec : e.phase.isExecuting with
      | true =>
        obtain ⟨t, ht⟩ := exists_executing hexec
        have hover : (e.act .abortCurrent).phase.isExecuting = false := by
          rw [Executive.act, abortCurrent_of_executing ht]
          rfl
        have hsound := h.sound_stopped ht hshown (.inl rfl)
        have hlength : begun.length = e.elapsed := hshown.1.trans (underway_of_executing ht)
        obtain ⟨history, htells, hplaces, hseen⟩ :=
          ih (h.act .abortCurrent) hout' (Shown.of_not_executing hover)
        refine ⟨history.after _, htells.after hsound (by simp), ?_, ?_⟩
        · rw [History.episodes_after, List.map_cons, hplaces, opening_of_not_executing hover,
            opening_of_executing ht]
          rfl
        · rw [History.episodes_after, List.flatMap_cons, hseen, sights,
            abortCurrent_of_executing ht]
          simp [Episode.sights, hlength]
      | false =>
        -- nothing is running, and nothing happens
        have hsame : e.act .abortCurrent = e :=
          congrArg Prod.snd (abortCurrent_of_not_executing hexec)
        obtain ⟨history, htells, hplaces, hseen⟩ := ih h hout hshown
        refine ⟨history, ?_, ?_, ?_⟩
        · change Tells d duration ((e.act .abortCurrent).after acts) history
          rwa [hsame]
        · rw [hplaces, placements, hsame]
        · rw [hseen, sights, hsame, abortCurrent_of_not_executing hexec]
          rfl

end Timed

/-- **A run is its episodes.**  What is seen of a run splits into one episode for every choice,
each of which runs its course, and only that of the running task is not over.  The timesteps
begun are those that the ends of tasks account for, and those of the running task.  They are as
many as have been reported, so that 64 bits hold them as long as these are fewer than `2 ^ 64`. -/
theorem run_episodes {R₀ : Type} [UnitSource R₀ S] [IndexSource R₀] (root : TaskSpec S)
    (curve : Logistic S) (building : List (Decomposition.Call S R₀)) {a : Allocation S}
    {abort : AbortCurve S} {learns : Bool} {source : R} {mechanisms : Array Mechanism}
    (hlasting : ∀ t m, mechanisms[t]? = some m → m.duration = max (duration t) 1)
    (hstart : start ((Decomposition.single root curve).run building) a abort learns source
      mechanisms = .ok e) (acts : List Act) :
    (∃ history : History S,
      Tells ((Decomposition.single root curve).run building) duration (e.after acts) history ∧
        history.episodes.map (·.placement) = e.placements acts ∧
        history.episodes.flatMap (·.sights) = e.sights acts) ∧
      (e.sights acts).filterMap Sight.report? = e.reports acts ∧
      (e.after acts).step =
        Sight.charges duration (e.sights acts) + (e.after acts).underway ∧
      (e.after acts).step = (e.reports acts).length ∧
      ((e.reports acts).length < UInt64.size → (e.after acts).step < UInt64.size) := by
  have hd := (Decomposition.Coherent.single root curve).run building
  have htimed := timed_of_start hd hlasting hstart
  obtain ⟨-, -, he⟩ := start_eq_ok_iff.mp hstart
  have hidle : e.phase.isExecuting = false := by rw [← he]; rfl
  have hout : e.decomposition.outline =
      ((Decomposition.single root curve).run building).outline := by rw [← he]
  have hstep : e.step = 0 := by rw [← he]
  have hbegun : (e.after acts).step = (e.reports acts).length := by
    rw [e.step_after_eq, hstep, Nat.zero_add]
  refine ⟨?_, e.filterMap_report?_sights acts, ?_, hbegun, fun hfew => by rwa [hbegun]⟩
  · obtain ⟨history, htells, hplaces, hseen⟩ :=
      htimed.exists_history hout (Shown.of_not_executing hidle) acts
    rw [opening_of_not_executing hidle] at hplaces
    exact ⟨history, htells, hplaces, hseen⟩
  · have hafter := htimed.step_after acts
    rw [underway_of_not_executing hidle, hstep] at hafter
    omega

/-- Two levels of tasks, one of them given up once from outside. -/
theorem run_episodes_two_levels :
    ∃ e, startTwoLevels .neighbour [] #[3, 2, 2, 1, 0] = .ok e ∧
      (∃ history : History Float,
        Tells Decomposition.twoLevels ((#[3, 2, 2, 1, 0] : Array Nat).getD · 0)
            (e.after [.timestep, .abortCurrent, .timestep, .timestep]) history ∧
          history.episodes.map (·.placement) =
            e.placements [.timestep, .abortCurrent, .timestep, .timestep] ∧
          history.episodes.flatMap (·.sights) =
            e.sights [.timestep, .abortCurrent, .timestep, .timestep]) := by
  obtain ⟨e, hstart⟩ := exists_startTwoLevels .neighbour [] #[3, 2, 2, 1, 0] rfl
  exact ⟨e, hstart, (run_episodes _ _ _ (fun _ _ => duration_of_lasting) hstart _).1⟩

end Accounting

end Executive

end TaskAllocation
