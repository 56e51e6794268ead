import TaskAllocation.Proofs.Decomposition.Cheapest
import TaskAllocation.Proofs.Executive.Calls

/-!
# Runs that take the cheapest task

An executive that is to take the cheapest task chooses the first one as any other does, among the
members of a block.  From then on there is always a task that ended last, and what is chosen
after it is the cheapest of all, whichever it was.  Where the executive does not learn, estimates
stay as they are, whatever ends and however; so the choice is the same for ever.

## Main definitions

* `Executive.Thrifty` — an executive that is to take the cheapest task, and remembers which ended
  last.

## Main results

* `Executive.Thrifty.task_engaged` — what is chosen after a task is the cheapest.
* `Executive.estimate_act` — without learning no act touches an estimate.
* `Executive.chooses_cheapest` — **the cheapest task is taken throughout a run**, by every choice
  but the first.
-/

namespace TaskAllocation

namespace Executive

variable {S R M : Type} [Scalar S] {e : Executive S R M}

/-! ### The task that ended last -/

/-- The executive is to take the cheapest task, and between tasks it remembers the one that ended
last. -/
structure Thrifty (e : Executive S R M) : Prop where
  equipped : e.Equipped
  policy : e.allocation.policy = .cheapest
  last_eq : e.phase.isExecuting = false → e.last = e.phase.task?

/-- A task that ends is remembered. -/
theorem last_finish (e : Executive S R M) (t : TaskId) (givenUp : Bool) :
    (e.finish t givenUp).last = (e.finish t givenUp).phase.task? := by
  cases givenUp with
  | false => rfl
  | true => rfl

theorem Thrifty.abortCurrent (h : e.Thrifty) : e.abortCurrent.2.Thrifty where
  equipped := h.equipped.abortCurrent
  policy := by rw [allocation_of_settings e.settings_abortCurrent, h.policy]
  last_eq := by
    unfold Executive.abortCurrent
    split
    · next t _ => exact fun _ => last_finish e t true
    · exact h.last_eq

/-! ### Estimates without learning -/

theorem estimate_finish (hlearns : e.learns = false) (t : TaskId) (givenUp : Bool) (u : TaskId) :
    (e.finish t givenUp).decomposition.forest.estimate u = e.decomposition.forest.estimate u := by
  have hsize := size_eq_of_outline (finish_keeps e t givenUp).1
  rcases Nat.lt_or_ge u e.decomposition.forest.size with hlt | hge
  · obtain ⟨task, htask⟩ := Forest.exists_task? hlt
    obtain ⟨task', htask', hestimate, -⟩ := exists_task?_finish e t givenUp htask
    rw [hlearns, if_neg (by simp)] at hestimate
    rw [Forest.estimate_of_task? htask, Forest.estimate_of_task? htask', hestimate]
  · rw [Forest.estimate, Forest.task?_eq_none (hsize ▸ hge), Forest.estimate,
      Forest.task?_eq_none hge]

/-- An executive that does not learn, with the estimates of these tasks. -/
structure Keeps (f : Forest S) (e : Executive S R M) : Prop where
  thrifty : e.Thrifty
  learns : e.learns = false
  size_eq : e.decomposition.forest.size = f.size
  estimate_eq : ∀ t, e.decomposition.forest.estimate t = f.estimate t

theorem Keeps.numeric {f : Forest S} (h : Keeps f e) (hnumeric : f.Numeric) :
    e.decomposition.forest.Numeric := by
  intro t ht
  rw [h.estimate_eq]
  exact hnumeric t (h.size_eq ▸ ht)

/-- With the estimates of these tasks, the cheapest task is the same as among them. -/
theorem Keeps.cheapest_eq [Scalar.Ordered S] {d : Decomposition S} (h : Keeps d.forest e)
    (hd : d.Coherent) (hnumeric : d.forest.Numeric) :
    Allocation.cheapest e.decomposition = Allocation.cheapest d := by
  have hcheapest := h.thrifty.equipped.coherent.isCheapest_cheapest (h.numeric hnumeric)
  exact (hcheapest.congr h.size_eq.symm fun t => (h.estimate_eq t).symm).unique
    (hd.isCheapest_cheapest hnumeric)

section Start

variable {d : Decomposition S} {a : Allocation S} {abort : AbortCurve S} {learns : Bool}
  {source : R} {mechanisms : Array M} (hd : d.Coherent)
  (hstart : start d a abort learns source mechanisms = .ok e) (hpolicy : a.policy = .cheapest)
include hd hstart hpolicy

theorem thrifty_of_start : e.Thrifty := by
  have hequipped := equipped_of_start hd hstart
  obtain ⟨-, -, rfl⟩ := start_eq_ok_iff.mp hstart
  exact ⟨hequipped, hpolicy, fun _ => rfl⟩

theorem keeps_of_start (hlearns : learns = false) : Keeps d.forest e := by
  have hthrifty := thrifty_of_start hd hstart hpolicy
  obtain ⟨-, -, rfl⟩ := start_eq_ok_iff.mp hstart
  exact ⟨hthrifty, hlearns, rfl, fun _ => rfl⟩

end Start

section Acts

variable [UnitSource R S] [IndexSource R] [Performer M]

namespace Thrifty

/-- A timestep is spent on a task that is running, and remembered if it ends. -/
theorem timestep (h : e.Thrifty) : e.timestep.2.Thrifty where
  equipped := h.equipped.timestep
  policy := by rw [allocation_of_settings e.settings_timestep, h.policy]
  last_eq := by
    rw [timestep_eq]
    have hrunning : e.engaged.2.phase.isExecuting = true := by rw [e.phase_engaged]; rfl
    refine work_induction (motive := fun e => e.phase.isExecuting = false → e.last = e.phase.task?)
      e.engaged.2 e.engaged.1 (fun _ => last_finish _ _ _) (fun _ _ => last_finish _ _ _)
      (fun _ hended => ?_) fun hended => ?_
    · exact absurd hended (ne_false_of_eq_true hrunning)
    · exact absurd hended (ne_false_of_eq_true hrunning)

theorem act (h : e.Thrifty) : ∀ act, (e.act act).Thrifty
  | .timestep => h.timestep
  | .abortCurrent => h.abortCurrent

theorem after (h : e.Thrifty) (acts : List Act) : (e.after acts).Thrifty := by
  induction acts generalizing e with
  | nil => exact h
  | cons act acts ih => exact ih (h.act act)

/-- **What is chosen after a task is the cheapest**, as the tasks are then. -/
theorem task_engaged (h : e.Thrifty) (hexec : e.phase.isExecuting = false)
    (htask : e.phase.task?.isSome) : e.engaged.1 = Allocation.cheapest e.decomposition := by
  obtain ⟨t, ht⟩ := Option.isSome_iff_exists.mp htask
  have hlast : e.last = some t := (h.last_eq hexec).trans ht
  rw [engaged_of_not_executing hexec]
  simp [allocate, nextTask, hlast, Allocation.next, h.policy]

end Thrifty

/-! ### The first choice -/

theorem isSome_task?_timestep (e : Executive S R M) : e.timestep.2.phase.task?.isSome := by
  rw [e.timestep_keeps.2.2.2]
  rfl

/-- Once an executive is about a task, it always is. -/
theorem isSome_task?_after (h : e.phase.task?.isSome) (acts : List Act) :
    (e.after acts).phase.task?.isSome := by
  induction acts generalizing e with
  | nil => exact h
  | cons act acts ih =>
    refine ih ?_
    cases act with
    | timestep => exact e.isSome_task?_timestep
    | abortCurrent =>
      rw [Executive.act, e.abortCurrent_keeps.2]
      exact h

/-- After the first choice an executive is about a task. -/
theorem isSome_task?_of_placements {acts : List Act} (h : e.placements acts ≠ []) :
    (e.after acts).phase.task?.isSome := by
  induction acts generalizing e with
  | nil => exact absurd rfl h
  | cons act acts ih =>
    cases act with
    | timestep => exact isSome_task?_after e.isSome_task?_timestep acts
    | abortCurrent => exact ih h

/-! ### Runs -/

/-- **Without learning no act touches an estimate**: neither completions nor abortions do. -/
theorem estimate_act (hlearns : e.learns = false) (act : Act) (u : TaskId) :
    (e.act act).decomposition.forest.estimate u = e.decomposition.forest.estimate u := by
  cases act with
  | timestep =>
    have hengaged : e.engaged.2.learns = false := by
      rw [learns_of_settings e.settings_engaged, hlearns]
    rw [Executive.act, timestep_eq, ← e.forest_engaged]
    refine work_induction (motive := fun e' =>
      e'.decomposition.forest.estimate u = e.engaged.2.decomposition.forest.estimate u)
      e.engaged.2 e.engaged.1 ?_ (fun m => ?_) (fun m => rfl) rfl
    · exact estimate_finish (e := e.engaged.2.drawn e.engaged.1) hengaged _ true u
    · exact estimate_finish (e := (e.engaged.2.drawn e.engaged.1).advanced _ m) hengaged _ false u
  | abortCurrent =>
    rw [Executive.act]
    unfold Executive.abortCurrent
    split
    · next t _ => exact estimate_finish hlearns t true u
    · rfl

theorem Keeps.act {f : Forest S} (h : Keeps f e) (act : Act) : Keeps f (e.act act) where
  thrifty := h.thrifty.act act
  learns := by rw [learns_of_settings (e.settings_act act), h.learns]
  size_eq := (size_eq_of_outline (e.outline_act act)).trans h.size_eq
  estimate_eq t := (estimate_act h.learns act t).trans (h.estimate_eq t)

end Acts

/-! ### The cheapest task throughout -/

/-- What every element of a chain owes to the one before it, all but the first have. -/
theorem forall_mem_tail_of_isChain {α : Type} {P : α → Prop} {xs : List α}
    (h : xs.IsChain fun _ y => P y) : ∀ y ∈ xs.tail, P y := by
  induction xs with
  | nil => simp
  | cons x xs ih =>
    obtain ⟨hhead, hrest⟩ := List.isChain_cons.mp h
    intro y hy
    cases xs with
    | nil => cases hy
    | cons z zs =>
      rcases List.mem_cons.mp hy with rfl | hy
      · exact hhead y rfl
      · exact ih hrest y hy

/-- **The cheapest task is taken throughout a run.**  It is found among the tasks of every
decomposition whose estimates are numbers.  An executive that is to take it does so by every
choice but the first, among the tasks as they are when it chooses; and if it does not learn, it is
one and the same task, whatever is drawn and given up. -/
theorem chooses_cheapest [Scalar.Ordered S] {R₀ : Type} [UnitSource R₀ S] [IndexSource R₀]
    [UnitSource R S] [IndexSource R] [Performer M] (root : TaskSpec S) (curve : Logistic S)
    (calls : List (Decomposition.Call S R₀)) :
    (((Decomposition.single root curve).run calls).forest.Numeric →
      ((Decomposition.single root curve).run calls).forest.IsCheapest
        (Allocation.cheapest ((Decomposition.single root curve).run calls))) ∧
      ∀ (a : Allocation S) (abort : AbortCurve S) (learns : Bool) (source : R)
        (mechanisms : Array M) (e : Executive S R M),
        start ((Decomposition.single root curve).run calls) a abort learns source mechanisms =
            .ok e → a.policy = .cheapest → ∀ acts : List Act,
          (e.placements acts ≠ [] → ∀ p, (e.after acts).placement? = some p →
            (e.after acts).decomposition.forest.Numeric →
              (e.after acts).decomposition.forest.IsCheapest p.task) ∧
          (learns = false → ((Decomposition.single root curve).run calls).forest.Numeric →
            ∀ p ∈ (e.placements acts).tail,
              p.task = Allocation.cheapest ((Decomposition.single root curve).run calls)) := by
  have hd := (Decomposition.Coherent.single root curve).run calls
  generalize (Decomposition.single root curve).run calls = d at hd
  refine ⟨hd.isCheapest_cheapest, ?_⟩
  intro a abort learns source mechanisms e hstart hpolicy acts
  constructor
  · intro hchosen p hp hnumeric
    have hafter := (thrifty_of_start hd hstart hpolicy).after acts
    have hexec : (e.after acts).phase.isExecuting = false := by
      by_contra hexec
      rw [placement?_of_executing (Bool.not_eq_false _ ▸ hexec)] at hp
      cases hp
    rw [placement?_of_not_executing hexec] at hp
    cases hp
    rw [engagedPlace, hafter.task_engaged hexec (isSome_task?_of_placements hchosen)]
    exact hafter.equipped.coherent.isCheapest_cheapest hnumeric
  · intro hlearns hnumeric
    have hkeeps := keeps_of_start hd hstart hpolicy hlearns
    have hplace : e.place? = none := by
      obtain ⟨-, -, rfl⟩ := start_eq_ok_iff.mp hstart
      rfl
    have hchain := isChain_placements (Keeps d.forest)
      (fun _ q => q.task = Allocation.cheapest d) (fun e act h => h.act act) ?_ hkeeps acts
    · rw [hplace] at hchain
      exact forall_mem_tail_of_isChain hchain
    · intro e h hexec p hp
      have htask : e.phase.task?.isSome := by
        obtain ⟨t, ht, -⟩ := Option.map_eq_some_iff.mp hp
        rw [ht]
        rfl
      rw [engagedPlace, h.thrifty.task_engaged hexec htask]
      exact h.cheapest_eq hd hnumeric

/-- Giving up leaves no task running. -/
theorem isExecuting_abortCurrent (e : Executive S R M) :
    e.abortCurrent.2.phase.isExecuting = false := by
  unfold abortCurrent
  split
  · rfl
  · next hphase =>
    cases hexec : e.phase with
    | executing t => exact absurd hexec (hphase t)
    | _ => rfl

/-- Two levels of tasks that are not learnt from: of the two that are estimated at one, the first
is taken, also after a task has been given up from outside. -/
theorem chooses_cheapest_two_levels :
    ∃ e : Executive Float ScriptedWords,
      start Decomposition.twoLevels ⟨.cheapest, default⟩ default false ⟨[]⟩
        (#[3, 2, 2, 1, 0].map Mechanism.lasting) = .ok e ∧
      Decomposition.twoLevels.forest.IsCheapest 3 ∧
      (∃ p, (e.after [.timestep, .abortCurrent]).placement? = some p ∧
        (e.after [.timestep, .abortCurrent]).decomposition.forest.IsCheapest p.task) ∧
      ∀ p ∈ (e.placements [.timestep, .abortCurrent, .timestep, .abortCurrent, .timestep]).tail,
        p.task = 3 := by
  have hthree : Allocation.cheapest Decomposition.twoLevels = 3 := by decide +kernel
  have hnumeric : Decomposition.twoLevels.forest.Numeric := by
    have hall : ∀ t < 5, Scalar.IsNumber (Decomposition.twoLevels.forest.estimate t) := by
      decide +kernel
    have hsize : Decomposition.twoLevels.forest.size = 5 := by decide +kernel
    intro t ht
    exact hall t (hsize ▸ ht)
  obtain ⟨e, hstart⟩ : ∃ e : Executive Float ScriptedWords,
      start Decomposition.twoLevels ⟨.cheapest, default⟩ default false ⟨[]⟩
        (#[3, 2, 2, 1, 0].map Mechanism.lasting) = .ok e :=
    ⟨_, start_eq_ok_iff.mpr ⟨by decide +kernel, by decide +kernel, rfl⟩⟩
  have hidle : e.phase.isExecuting = false := by
    obtain ⟨-, -, rfl⟩ := start_eq_ok_iff.mp hstart
    rfl
  refine ⟨e, hstart, ?_, ⟨_, placement?_of_not_executing (isExecuting_abortCurrent _), ?_⟩, ?_⟩
  · rw [← hthree]
    exact (chooses_cheapest (R := ScriptedWords) (M := Mechanism) _ _ _).1 hnumeric
  · refine ((chooses_cheapest _ _ _).2 _ _ _ _ _ e hstart rfl _).1 ?_ _
      (placement?_of_not_executing (isExecuting_abortCurrent _)) ?_
    · simp [placements, placement?_of_not_executing hidle]
    · have hkeeps := keeps_of_start ((Decomposition.Coherent.single _ _).run _) hstart rfl rfl
      exact ((hkeeps.act .timestep).act .abortCurrent).numeric hnumeric
  · rw [← hthree]
    exact ((chooses_cheapest _ _ _).2 _ _ _ _ _ e hstart rfl _).2 rfl hnumeric

end Executive

end TaskAllocation
