import TaskAllocation.Proofs.Decomposition.Neighbourhood
import TaskAllocation.Proofs.Exact

/-!
# What a step of the walk looks at

The task after a given one depends on few others.  Where the focus goes is a matter of the
heads of its block and of the block above; what is chosen there is a matter of the members of
the block that is reached, and of the part that its head remembers.  Wherever the focus may
go, these are members of its block or of the block above, or parts of the task that has run.
All other tasks may have any estimates and any history.

## Main definitions

* `Decomposition.Weighs`, `Decomposition.Recalls` — the tasks whose estimates, and those whose
  last abortions, the step may look at.
* `Decomposition.AgreesAround` — two decompositions that differ in other tasks only.
* `Decomposition.withForest` — the same blocks with other tasks.

## Main results

* `Decomposition.Coherent.weighs_of_focusStep` — wherever the focus may go, nothing else is
  looked at.
* `Decomposition.neighbour_local` — **the choice of the next task is local.**
-/

namespace TaskAllocation

namespace Forest

variable {S : Type}

/-- The part that a task remembers as given up last, if there are task and part. -/
def lastAborted? (f : Forest S) (t : TaskId) : Option TaskId := (f.task? t).bind (·.lastAborted)

theorem lastAborted?_of_task? {f : Forest S} {t : TaskId} {task : Task S}
    (h : f.task? t = some task) : f.lastAborted? t = task.lastAborted := by
  simp [lastAborted?, h]

end Forest

namespace Decomposition

variable {S R : Type} {d e : Decomposition S} {k j : BlockId} {b c : Block S} {t u : TaskId}

/-! ### What is looked at -/

/-- The tasks whose estimates the step after task `t` may look at. -/
inductive Weighs (d : Decomposition S) (t : TaskId) : TaskId → Prop where
  /-- The members of the block with the focus. -/
  | member {b : Block S} {u : TaskId} :
    d.focused? = some b → b.contains u = true → d.Weighs t u
  /-- The members of the block above it. -/
  | above {k j : BlockId} {b : Block S} {u : TaskId} :
    d.focus = some k → d.above k = .ok (some j) → d.block? j = some b → b.contains u = true →
      d.Weighs t u
  /-- The parts of the task itself. -/
  | part {first second u : TaskId} :
    d.forest.parts? t = some (first, second) → u = first ∨ u = second → d.Weighs t u

/-- The tasks whose last abortion the step after task `t` may look at. -/
inductive Recalls (d : Decomposition S) (t : TaskId) : TaskId → Prop where
  /-- The head of the block with the focus. -/
  | head {b : Block S} : d.focused? = some b → d.Recalls t b.root
  /-- The task that it is a part of. -/
  | parent {b : Block S} : d.focused? = some b → d.Recalls t (d.forest.parent b.root)
  /-- The task itself. -/
  | self : d.Recalls t t

/-- The blocks of `d` and `e` are the same, the focus is at the same of them, and the tasks are
the same as far as the step after task `t` may look at them.  How tasks hang together is said
by the blocks already. -/
structure AgreesAround [Scalar S] (d e : Decomposition S) (t : TaskId) : Prop where
  /-- The blocks are the same. -/
  blocks_eq : e.blocks = d.blocks
  /-- The focus is at the same block. -/
  focus_eq : e.focus = d.focus
  /-- The curve that decides whether it stays is the same. -/
  stayCurve_eq : e.stayCurve = d.stayCurve
  /-- The probabilities of staying that were used last are the same. -/
  lastStay_eq : e.lastStay = d.lastStay
  /-- The tasks around have the same estimates. -/
  estimate_eq : ∀ u, d.Weighs t u → e.forest.estimate u = d.forest.estimate u
  /-- They remember the same parts. -/
  lastAborted_eq : ∀ u, d.Recalls t u → e.forest.lastAborted? u = d.forest.lastAborted? u

namespace Coherent

theorem weighs_of_contains (hfocus : d.focus = some k) (hb : d.block? k = some b)
    (hu : b.contains u = true) : d.Weighs t u :=
  .member (by rw [focused?, hfocus, Option.bind_some, hb]) hu

/-- **Wherever the focus may go, nothing else is looked at**: the head of the block above is the
parent of the head of the block, and the members of the block below are the task and its
parts. -/
theorem weighs_of_focusStep (h : d.Coherent) (hfocus : d.focus = some k)
    (hb : d.block? k = some b) (ht : b.contains t = true) (hstep : d.FocusStep t (some k) (some j))
    (hc : d.block? j = some c) :
    (∀ u, c.contains u = true → d.Weighs t u) ∧ d.Recalls t c.root := by
  have hfocused : d.focused? = some b := by rw [focused?, hfocus, Option.bind_some, hb]
  cases hstep with
  | stay =>
    obtain rfl := Option.some.inj (hb.symm.trans hc)
    exact ⟨fun u hu => .member hfocused hu, .head hfocused⟩
  | up _ _ habove =>
    refine ⟨fun u hu => .above hfocus habove hc hu, ?_⟩
    obtain ⟨_, habove', hiff⟩ := h.exists_above hb
    cases habove.symm.trans habove'
    obtain ⟨_, hc', hroot⟩ := h.blockOf?_eq_some_iff.mp ((hiff j).mp rfl).2
    cases hc.symm.trans hc'
    rw [hroot]
    exact .parent hfocused
  | down _ _ hbelow =>
    obtain ⟨_, hc', hroot⟩ := h.blockOf?_eq_some_iff.mp hbelow
    cases hc.symm.trans hc'
    refine ⟨fun u hu => ?_, hroot ▸ .self⟩
    rcases (c.contains_iff u).mp hu with rfl | hu
    · rw [hroot]
      exact .member hfocused ht
    · exact .part (hroot ▸ h.parts_root j c hc) hu

end Coherent

/-! ### The same blocks with other tasks -/

/-- The same blocks with the tasks of another forest. -/
def withForest (d : Decomposition S) (f : Forest S) : Decomposition S := { d with forest := f }

@[simp]
theorem forest_withForest (d : Decomposition S) (f : Forest S) : (d.withForest f).forest = f := rfl

/-- Decompositions that agree around a task differ in their tasks only. -/
theorem AgreesAround.eq_withForest [Scalar S] (h : d.AgreesAround e t) :
    e = d.withForest e.forest := by
  obtain ⟨hblocks, hfocus, hcurve, hstay, -, -⟩ := h
  cases e
  simp_all [withForest]

theorem resetFocus_withForest (d : Decomposition S) (f : Forest S) :
    (d.withForest f).resetFocus = d.resetFocus.withForest f := by
  have hroot : (d.withForest f).rootBlock? = d.rootBlock? := rfl
  unfold resetFocus
  rw [hroot]
  cases d.rootBlock? with
  | none => rfl
  | some k => rfl

namespace Coherent

variable {f : Forest S}

/-- Blocks decide how their tasks hang together. -/
theorem parts?_withForest (hd : d.Coherent) (he : (d.withForest f).Coherent) :
    f.parts? = d.forest.parts? := by
  funext t
  cases hparts : d.forest.parts? t with
  | some pair =>
    obtain ⟨k, b, hb, rfl⟩ := hd.exists_block t (by rw [hparts]; rfl)
    exact (he.parts_root k b hb).trans ((hd.parts_root k b hb).symm.trans hparts)
  | none =>
    by_contra hsome
    obtain ⟨k, b, hb, rfl⟩ := he.exists_block t (Option.isSome_iff_ne_none.mpr hsome)
    cases hparts.symm.trans (hd.parts_root k b hb)

variable [Scalar S] [UnitSource R S]

/-- A choice is the same if the members of the block have the same estimates, and its head
remembers the same part. -/
theorem choose_withForest (hd : d.Coherent) (he : (d.withForest f).Coherent) (p : Partitioning S)
    (hb : d.block? k = some b)
    (hestimate : ∀ u, b.contains u = true → f.estimate u = d.forest.estimate u)
    (haborted : f.lastAborted? b.root = d.forest.lastAborted? b.root) (source : R) :
    p.choose (d.withForest f) k source = ((p.choose d k source).1,
      (p.choose d k source).2.1.withForest f, (p.choose d k source).2.2) := by
  obtain ⟨root, hroot, hchoose⟩ := hd.choose_of_block p hb source
  obtain ⟨root', hroot', hchoose'⟩ := he.choose_of_block p hb source
  have hdraw : p.drawFrom (d.withForest f) b root' source = p.drawFrom d b root source := by
    have hwhole : root'.estimate.value = root.estimate.value := by
      rw [← Forest.estimate_of_task? hroot, ← Forest.estimate_of_task? hroot']
      exact hestimate b.root ((b.contains_iff _).mpr (.inl rfl))
    have hfirst : f.estimate b.first = d.forest.estimate b.first :=
      hestimate b.first ((b.contains_iff _).mpr (.inr (.inl rfl)))
    have hsecond : f.estimate b.second = d.forest.estimate b.second :=
      hestimate b.second ((b.contains_iff _).mpr (.inr (.inr rfl)))
    have hlast : root'.lastAborted = root.lastAborted := by
      rw [← Forest.lastAborted?_of_task? hroot, ← Forest.lastAborted?_of_task? hroot']
      exact haborted
    unfold Partitioning.drawFrom
    rw [hwhole, hlast, forest_withForest, hfirst, hsecond]
  rw [hchoose', hdraw, hchoose]
  rfl

/-- The focus moves the same way after a member of its block, if the heads of the blocks that it
may move between have the same estimates. -/
theorem moveFocus_withForest (hd : d.Coherent) (he : (d.withForest f).Coherent)
    (hfocus : d.focus = some k) (hb : d.block? k = some b) (ht : b.contains t = true)
    (hestimate : ∀ u, d.Weighs t u → f.estimate u = d.forest.estimate u) (source : R) :
    (d.withForest f).moveFocus t source = ((d.moveFocus t source).1,
      (d.moveFocus t source).2.1.withForest f, (d.moveFocus t source).2.2) := by
  have hsettled_iff : (d.withForest f).IsSettled b t ↔ d.IsSettled b t := by
    unfold IsSettled
    rw [forest_withForest, hd.parts?_withForest he]
  by_cases hsettled : d.IsSettled b t
  · rw [hd.moveFocus_of_settled hfocus hb ht hsettled source,
      he.moveFocus_of_settled hfocus hb ht (hsettled_iff.mpr hsettled) source]
  · obtain ⟨above, target, habove, -, hdest, hmove⟩ :=
      hd.moveFocus_of_open hfocus hb ht hsettled source
    obtain ⟨above', target', habove', -, hdest', hmove'⟩ :=
      he.moveFocus_of_open hfocus hb ht (hsettled_iff.not.mpr hsettled) source
    -- both decompositions have the same block above
    have hsame : above' = above := Except.ok.inj (habove'.symm.trans habove)
    have hhead : (d.withForest f).blockEstimate k = d.blockEstimate k := by
      have hweighs : d.Weighs t b.root :=
        weighs_of_contains hfocus hb ((b.contains_iff _).mpr (.inl rfl))
      have hblock : (d.withForest f).block? k = some b := hb
      simp only [blockEstimate, hblock, hb, forest_withForest, hestimate b.root hweighs]
    have hstay : (d.withForest f).stayProbs k above = d.stayProbs k above := by
      cases above with
      | none => simp only [stayProbs, hhead]; rfl
      | some j =>
        have hover : (d.withForest f).blockEstimate j = d.blockEstimate j := by
          obtain ⟨c, hc⟩ := exists_block? (hd.lt_size_of_above hb habove)
          have hweighs : d.Weighs t c.root :=
            .above hfocus habove hc ((c.contains_iff _).mpr (.inl rfl))
          have hblock : (d.withForest f).block? j = some c := hc
          simp only [blockEstimate, hblock, hc, forest_withForest, hestimate c.root hweighs]
        simp only [stayProbs, hhead, hover]
        rfl
    subst hsame
    rw [hstay] at hdest' hmove'
    have htarget : target' = target := Except.ok.inj (hdest'.symm.trans hdest)
    rw [hmove', hmove, htarget]
    rfl

/-- **The step after a member of the block with the focus is the same.** -/
theorem neighbourStep_withForest (hd : d.Coherent) (he : (d.withForest f).Coherent)
    (hfocus : d.focus = some k) (hb : d.block? k = some b) (ht : b.contains t = true)
    (hestimate : ∀ u, d.Weighs t u → f.estimate u = d.forest.estimate u)
    (haborted : ∀ u, d.Recalls t u → f.lastAborted? u = d.forest.lastAborted? u)
    (a : Allocation S) (source : R) :
    a.neighbourStep (d.withForest f) t source = ((a.neighbourStep d t source).1,
      (a.neighbourStep d t source).2.1.withForest f, (a.neighbourStep d t source).2.2) := by
  obtain ⟨moved, rest, j, c, hmove, hmoved, hblocks, hforest, hfocus', hc, -, hstep⟩ :=
    hd.moveFocus_of_contains hfocus hb ht source
  have hc' : d.block? j = some c := by rw [block?, ← hblocks]; exact hc
  have hmove' := hd.moveFocus_withForest he hfocus hb ht hestimate source
  have hmoved' := (he.moveFocus t source).1
  rw [hmove] at hmove'
  rw [hmove'] at hmoved'
  -- the members of the block that is reached, and its head, are looked at already
  obtain ⟨hmembers, hhead⟩ := hd.weighs_of_focusStep hfocus hb ht hstep hc'
  have hchoose : a.partitioning.choose (moved.withForest f) j rest =
      ((a.partitioning.choose moved j rest).1,
        (a.partitioning.choose moved j rest).2.1.withForest f,
        (a.partitioning.choose moved j rest).2.2) :=
    hmoved.choose_withForest hmoved' a.partitioning hc
      (fun u hu => by rw [hforest]; exact hestimate u (hmembers u hu))
      (by rw [hforest]; exact haborted c.root hhead) rest
  have hfocus'' : (moved.withForest f).focus = some j := hfocus'
  simp only [Allocation.neighbourStep, hmove, hmove', hfocus', hfocus'', hchoose]

/-- **The next task is the same**, for outside the block with the focus nothing is looked at. -/
theorem neighbour_withForest (hd : d.Coherent) (he : (d.withForest f).Coherent)
    (hestimate : ∀ u, d.Weighs t u → f.estimate u = d.forest.estimate u)
    (haborted : ∀ u, d.Recalls t u → f.lastAborted? u = d.forest.lastAborted? u)
    (a : Allocation S) (source : R) :
    a.neighbour (d.withForest f) t source = ((a.neighbour d t source).1,
      (a.neighbour d t source).2.1.withForest f, (a.neighbour d t source).2.2) := by
  cases hfocus : d.focus with
  | none =>
    have hfocus' : (d.withForest f).focus = none := hfocus
    simp only [Allocation.neighbour, hfocus, hfocus']
  | some k =>
    have hfocus' : (d.withForest f).focus = some k := hfocus
    obtain ⟨b, hb⟩ := exists_block? (hd.focus_lt k hfocus)
    cases ht : b.contains t with
    | false =>
      -- both start again at the top
      have hmove := moveFocus_of_notMem hfocus hb ht source
      have hmove' := moveFocus_of_notMem (d := d.withForest f) hfocus hb ht source
      simp only [Allocation.neighbour, Allocation.neighbourStep, hfocus, hfocus', hmove, hmove',
        resetFocus_withForest]
    | true =>
      have hstep := hd.neighbourStep_withForest he hfocus hb ht hestimate haborted a source
      simp only [Allocation.neighbour, hfocus, hfocus', hstep]
      generalize a.neighbourStep d t source = step
      obtain ⟨_ | _, _, _⟩ := step
      · simp only [resetFocus_withForest]
      · rfl

end Coherent

/-- **The choice of the next task is local.**  In two decompositions that were built by any calls
and agree around a task, the walk goes from there to the same task, with the same draws: what
remains to be drawn is the same, and so are the blocks, the focus and the probabilities of
staying that are left behind.  Whatever else there is, is left as it was. -/
theorem neighbour_local [Scalar S] {R₀ : Type} [UnitSource R₀ S] [IndexSource R₀] [UnitSource R S]
    (root root' : TaskSpec S) (curve curve' : Logistic S) (calls calls' : List (Call S R₀))
    {t : TaskId}
    (h : ((single root curve).run calls).AgreesAround ((single root' curve').run calls') t)
    (a : Allocation S) (source : R) :
    ∃ next d e rest,
      a.neighbour ((single root curve).run calls) t source = (next, d, rest) ∧
        a.neighbour ((single root' curve').run calls') t source = (next, e, rest) ∧
        e.focus = d.focus ∧ e.lastStay = d.lastStay ∧ e.blocks = d.blocks ∧
        d.forest = ((single root curve).run calls).forest ∧
        e.forest = ((single root' curve').run calls').forest := by
  have hd := Coherent.run (.single root curve) calls
  have he := Coherent.run (.single root' curve') calls'
  generalize (single root curve).run calls = d at h hd ⊢
  generalize (single root' curve').run calls' = e at h he ⊢
  have hsame := h.eq_withForest
  have hcoherent : (d.withForest e.forest).Coherent := hsame ▸ he
  have hnext := hd.neighbour_withForest hcoherent h.estimate_eq h.lastAborted_eq a source
  rw [← hsame] at hnext
  exact ⟨_, _, _, _, rfl, hnext, rfl, rfl, rfl, (rearranged_neighbour a d t source).forest, rfl⟩

section Example

attribute [local instance] Scalar.rational

/-- The block of the third level has the focus. -/
def nearCalls : List (Call ℚ ScriptedWords) := [.initFocus .deepest ⟨[]⟩]

/-- More has happened since, to the root and to the task that is no part of the other blocks. -/
def farCalls : List (Call ℚ ScriptedWords) :=
  nearCalls ++ [.record 0 9 true, .record 2 3 true, .noteAborted 2]

/-- Neither the root nor the second part of it is looked at. -/
theorem agreesAround_three_levels :
    (threeLevels nearCalls).AgreesAround (threeLevels farCalls) 3 := by
  have hfocused : (threeLevels nearCalls).focused? = some (Block.new 3 5 6) := by decide +kernel
  have hfocus : (threeLevels nearCalls).focus = some 2 := by decide +kernel
  have habove : (threeLevels nearCalls).above 2 = .ok (some 1) := by decide +kernel
  have hover : (threeLevels nearCalls).block? 1 = some (Block.new 1 3 4) := by decide +kernel
  have hhead : (threeLevels nearCalls).forest.parts? 3 = some (5, 6) := by decide +kernel
  constructor
  case blocks_eq => decide +kernel
  case focus_eq => decide +kernel
  case stayCurve_eq => decide +kernel
  case lastStay_eq => decide +kernel
  case estimate_eq =>
    have hsame : ∀ u ∈ [1, 3, 4, 5, 6],
        (threeLevels farCalls).forest.estimate u = (threeLevels nearCalls).forest.estimate u := by
      decide +kernel
    intro u hu
    apply hsame
    cases hu with
    | member hb hu =>
      cases hfocused.symm.trans hb
      rcases (Block.contains_iff _ u).mp hu with rfl | rfl | rfl
      · decide
      · decide
      · decide
    | above hk hj hb hu =>
      cases hfocus.symm.trans hk
      cases habove.symm.trans hj
      cases hover.symm.trans hb
      rcases (Block.contains_iff _ u).mp hu with rfl | rfl | rfl
      · decide
      · decide
      · decide
    | part hparts hu =>
      cases hhead.symm.trans hparts
      rcases hu with rfl | rfl
      · decide
      · decide
  case lastAborted_eq =>
    have hsame : ∀ u ∈ [1, 3], (threeLevels farCalls).forest.lastAborted? u =
        (threeLevels nearCalls).forest.lastAborted? u := by
      decide +kernel
    intro u hu
    apply hsame
    cases hu with
    | head hb =>
      cases hfocused.symm.trans hb
      decide
    | parent hb =>
      cases hfocused.symm.trans hb
      decide +kernel
    | self => decide

/-- The walk goes on from the head of the third block without a look at the root, whose
estimate is another one. -/
theorem neighbour_local_three_levels :
    (threeLevels farCalls).forest.estimate Forest.root ≠
        (threeLevels nearCalls).forest.estimate Forest.root ∧
      (threeLevels nearCalls).AgreesAround (threeLevels farCalls) 3 ∧
      ∃ next d e rest,
        Allocation.neighbour ⟨.neighbour, .standard⟩ (threeLevels nearCalls) 3
            (⟨[0, 0]⟩ : ScriptedWords) = (next, d, rest) ∧
          Allocation.neighbour ⟨.neighbour, .standard⟩ (threeLevels farCalls) 3
            (⟨[0, 0]⟩ : ScriptedWords) = (next, e, rest) ∧
          e.focus = d.focus ∧ e.lastStay = d.lastStay ∧ e.blocks = d.blocks ∧
          d.forest = (threeLevels nearCalls).forest ∧ e.forest = (threeLevels farCalls).forest := by
  have hnear := agreesAround_three_levels
  exact ⟨by decide +kernel, hnear, neighbour_local _ _ _ _ _ _ hnear _ _⟩

end Example

end Decomposition

end TaskAllocation
