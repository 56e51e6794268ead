import TaskAllocation.Proofs.Decomposition.Neighbourhood
import TaskAllocation.Proofs.Executive.Timestep

/-!
# Runs go from neighbour to neighbour

An executive that walks between blocks never jumps: of two tasks chosen one after the other,
the second is the first one, its parent, a part of it, or the other part of its parent, and
the focus moves by one level at most.  Without blocks there is nothing to walk between, and
the root is chosen for ever.

## Main definitions

* `Executive.Unfocused` — an executive that has no block to walk in.

## Main results

* `Executive.placements_neighbouring` — **runs go from neighbour to neighbour.**
-/

namespace TaskAllocation

namespace Executive

variable {S R M : Type} {e : Executive S R M}

/-- The executive is to walk between blocks, and there is none: its tasks are all the root. -/
structure Unfocused (e : Executive S R M) : Prop where
  policy : e.allocation.policy = .neighbour
  focus_eq : e.decomposition.focus = none
  task_eq : ∀ t, e.phase.task? = some t → t = Forest.root

variable [Scalar S] [UnitSource R S] [IndexSource R] [Performer M]

namespace Unfocused

/-- Without a focus the root is chosen. -/
theorem engaged (h : e.Unfocused) :
    e.engaged.1 = Forest.root ∧ e.engaged.2.decomposition.focus = none := by
  cases hexec : e.phase.isExecuting with
  | true =>
    obtain ⟨t, ht⟩ := exists_executing hexec
    rw [engaged_of_executing ht]
    exact ⟨h.task_eq t (by rw [ht]; rfl), h.focus_eq⟩
  | false =>
    rw [engaged_of_not_executing hexec]
    cases e.last with
    | none => simp [allocate, nextTask, Allocation.first, h.focus_eq]
    | some t =>
      simp [allocate, nextTask, Allocation.next, Allocation.neighbour, h.policy, h.focus_eq]

theorem act (h : e.Unfocused) (act : Act) : (e.act act).Unfocused := by
  have hpolicy : (e.act act).allocation.policy = .neighbour := by
    rw [allocation_of_settings (e.settings_act act), h.policy]
  cases act with
  | timestep =>
    obtain ⟨hroot, hfocus⟩ := h.engaged
    obtain ⟨-, -, hkept, htask⟩ := e.timestep_keeps
    refine ⟨hpolicy, hkept.trans hfocus, fun t ht => ?_⟩
    rw [← hroot]
    exact Option.some.inj (ht.symm.trans htask)
  | abortCurrent =>
    obtain ⟨hfocus, htask⟩ := e.abortCurrent_keeps
    exact ⟨hpolicy, hfocus.trans h.focus_eq, fun t ht => h.task_eq t (htask ▸ ht)⟩

end Unfocused

/-- **The choice after a task is a neighbour of it.**  The task is a member of the block with
the focus, so that the walk needs no way out. -/
theorem OnCourse.engaged_near (h : e.OnCourse) (hexec : e.phase.isExecuting = false) {t : TaskId}
    (ht : e.phase.task? = some t) :
    e.decomposition.forest.Near t e.engaged.1 ∧
      e.decomposition.FocusStep t e.decomposition.focus e.engaged.2.decomposition.focus := by
  have hlast : e.last = some t := (h.last_eq hexec).trans ht
  obtain ⟨k, b, hk, hb, hmem⟩ := h.exists_block_of_last hexec hlast
  obtain ⟨next, d, source, hstep, hfocus, hnear⟩ :=
    h.coherent.neighbourStep_near e.allocation hk hb hmem e.source
  obtain ⟨htask, hd⟩ := engaged_of_neighbourStep hexec h.policy hlast hk hstep
  rw [htask, hd]
  exact ⟨hnear, hfocus⟩

/-- **Runs go from neighbour to neighbour.**  In every run of an executive that walks between
blocks, a task is chosen near the one that was chosen before it, and in between the focus
stays, or goes to the block above if that task is the head of its block, or to the block
that the task heads if it is a part. -/
theorem placements_neighbouring {R₀ : Type} [UnitSource R₀ S] [IndexSource R₀] (root : TaskSpec S)
    (curve : Logistic S) (calls : List (Decomposition.Call S R₀)) {a : Allocation S}
    {abort : AbortCurve S} {learns : Bool} {source : R} {mechanisms : Array M}
    (hstart : start ((Decomposition.single root curve).run calls) a abort learns source
      mechanisms = .ok e)
    (hpolicy : a.policy = .neighbour) (acts : List Act) :
    (e.placements acts).IsChain fun p q =>
      ((Decomposition.single root curve).run calls).forest.Near p.task q.task ∧
        ((Decomposition.single root curve).run calls).FocusStep p.task p.focus q.focus := by
  have hd := (Decomposition.Coherent.single root curve).run calls
  generalize (Decomposition.single root curve).run calls = d at hd hstart
  obtain ⟨-, -, he⟩ := start_eq_ok_iff.mp hstart
  have hplace : e.place? = none := by rw [← he]; rfl
  cases hfocus : d.focus with
  | none =>
    have hun : e.Unfocused := by
      rw [← he]
      exact ⟨hpolicy, hfocus, fun _ ht => nomatch ht⟩
    have hchain := isChain_placements Unfocused
      (fun p q => d.forest.Near p.task q.task ∧ d.FocusStep p.task p.focus q.focus)
      (fun _ act h => h.act act) ?_ hun acts
    · rwa [hplace] at hchain
    · rintro e h - p hp
      obtain ⟨t, ht, rfl⟩ := Option.map_eq_some_iff.mp hp
      rw [engagedPlace, h.engaged.1, h.engaged.2, h.task_eq t ht, h.focus_eq]
      exact ⟨.self, .stay none⟩
  | some k =>
    have hcourse : e.OnCourse ∧ e.decomposition.outline = d.outline := by
      rw [← he]
      exact ⟨⟨hd, hpolicy, by rw [hfocus]; rfl, (fun _ ht => nomatch ht), fun _ => rfl⟩, rfl⟩
    have hchain := isChain_placements (fun e => e.OnCourse ∧ e.decomposition.outline = d.outline)
      (fun p q => d.forest.Near p.task q.task ∧ d.FocusStep p.task p.focus q.focus)
      (fun e act h => ⟨h.1.act act, (e.outline_act act).trans h.2⟩) ?_ hcourse acts
    · rwa [hplace] at hchain
    · rintro e ⟨h, hout⟩ hexec p hp
      obtain ⟨t, ht, rfl⟩ := Option.map_eq_some_iff.mp hp
      obtain ⟨hnear, hstep⟩ := h.engaged_near hexec ht
      exact ⟨Decomposition.near_of_outline hout hnear,
        Decomposition.focusStep_of_outline hout hstep⟩

/-- Two levels of tasks, one of them given up once from outside. -/
theorem placements_neighbouring_two_levels :
    ∃ e, startTwoLevels .neighbour [] #[3, 2, 2, 1, 0] = .ok e ∧
      (e.placements [.timestep, .abortCurrent, .timestep, .timestep, .timestep]).IsChain fun p q =>
        Decomposition.twoLevels.forest.Near p.task q.task ∧
          Decomposition.twoLevels.FocusStep p.task p.focus q.focus := by
  obtain ⟨e, hstart⟩ := exists_startTwoLevels .neighbour [] #[3, 2, 2, 1, 0] rfl
  exact ⟨e, hstart, placements_neighbouring _ _ _ hstart rfl _⟩

end Executive

end TaskAllocation
