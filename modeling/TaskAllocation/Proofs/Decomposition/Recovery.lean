import TaskAllocation.Proofs.Exact

/-!
# Starting again at the top

A step of the walk can fail, and then the walk starts again at the top: the root of the tree is
the next task, and its block gets the focus.  Here is when that happens, which is after a task
that is no member of the block with the focus and at no other time, and what it costs, which is
nothing but the place of the focus.

It also heals itself.  The task that is chosen, at the top or elsewhere, is a member of the block
that has the focus then, so that the step after it succeeds: a walk that goes on from the tasks
that it chooses starts again at the top once at most, and at once if ever.

## Main definitions

* `Allocation.StartsAgain` — the step of the walk after a task fails.
* `Decomposition.Attends` — a task is a member of the block with the focus.
* `Allocation.walk` — the walk from a task on.

## Main results

* `Decomposition.Coherent.startsAgain_iff`, `neighbour_of_startsAgain` — when the walk starts
  again, and what that changes.
* `Allocation.attends_walk` — every task that the walk chooses is attended.
* `Allocation.fallback_exact` — **the way out of a failure is narrow, and is taken once at most.**
-/

namespace TaskAllocation

variable {S R : Type}

namespace Decomposition

/-- Task `t` is a member of the block with the focus. -/
def Attends (d : Decomposition S) (t : TaskId) : Prop :=
  ∃ k b, d.focus = some k ∧ d.block? k = some b ∧ b.contains t = true

/-- A task that has just been chosen is attended. -/
theorem HasChosen.attends {d : Decomposition S} {t : TaskId} (h : d.HasChosen t) :
    d.Attends t := by
  obtain ⟨b, hfocused, hmem, -⟩ := h
  obtain ⟨k, hfocus, hb⟩ := Option.bind_eq_some_iff.mp hfocused
  exact ⟨k, b, hfocus, hb, hmem⟩

end Decomposition

section Definitions

variable [Scalar S] [UnitSource R S]

/-- Some block has the focus, and the step of the walk after task `t` fails. -/
def Allocation.StartsAgain (a : Allocation S) (d : Decomposition S) (t : TaskId) (source : R) :
    Prop :=
  d.focus.isSome ∧ (a.neighbourStep d t source).1.toBool = false

/-- The walk from task `t` on, where each task is chosen after the one before: the task after
`n` choices, with what is left then. -/
def Allocation.walk (a : Allocation S) (d : Decomposition S) (t : TaskId) (source : R) :
    Nat → TaskId × Decomposition S × R
  | 0 => (t, d, source)
  | n + 1 =>
    let (t, d, source) := a.walk d t source n
    a.neighbour d t source

end Definitions

namespace Decomposition.Coherent

variable {d : Decomposition S} {k top : BlockId} {b : Block S} {t : TaskId}

/-! ### The top -/

/-- In one tree that has a block the root heads a block. -/
theorem exists_rootBlock (h : d.Coherent) (hvalid : d.validate = .ok ())
    (hblocks : 0 < d.blocks.size) : ∃ top, d.blockOf? Forest.root = some top :=
  h.exists_blockOf? (h.isSome_parts?_root hvalid hblocks)

/-- With the focus at its block the root is attended. -/
theorem attends_root (h : d.Coherent) (htop : d.blockOf? Forest.root = some top) :
    ({ d with focus := some top } : Decomposition S).Attends Forest.root := by
  obtain ⟨b, hb, hroot⟩ := h.blockOf?_eq_some_iff.mp htop
  exact ⟨top, b, rfl, hb, (b.contains_iff _).mpr (.inl hroot.symm)⟩

theorem resetFocus_eq (htop : d.blockOf? Forest.root = some top) :
    d.resetFocus = { d with focus := some top } := by
  unfold Decomposition.resetFocus Decomposition.rootBlock?
  rw [htop]
  rfl

/-- Where there are blocks, one of them has the focus. -/
theorem exists_focused (h : d.Coherent) (hblocks : 0 < d.blocks.size) :
    ∃ k b, d.focus = some k ∧ d.block? k = some b := by
  have hfocused : d.focus ≠ none := fun hnone =>
    absurd (h.focus_eq_none_iff.mp hnone) (Nat.ne_of_gt hblocks)
  obtain ⟨k, hfocus⟩ := Option.ne_none_iff_exists'.mp hfocused
  obtain ⟨b, hb⟩ := exists_block? (h.focus_lt k hfocus)
  exact ⟨k, b, hfocus, hb⟩

variable [Scalar S] [UnitSource R S]

/-! ### One step -/

/-- After a task that is no member the step fails, and leaves everything as it was. -/
theorem neighbourStep_of_notMem (a : Allocation S) (hfocus : d.focus = some k)
    (hb : d.block? k = some b) (ht : b.contains t = false) (source : R) :
    a.neighbourStep d t source = (.error (d.strayError k t), d, source) := by
  simp only [Allocation.neighbourStep, moveFocus_of_notMem hfocus hb ht source]

/-- **The walk starts again after a task that is not attended**, and after no other. -/
theorem startsAgain_iff (h : d.Coherent) (a : Allocation S) (hfocus : d.focus = some k)
    (hb : d.block? k = some b) (source : R) :
    a.StartsAgain d t source ↔ b.contains t = false := by
  unfold Allocation.StartsAgain
  rw [hfocus]
  cases ht : b.contains t with
  | false =>
    rw [neighbourStep_of_notMem a hfocus hb ht source]
    exact iff_of_true ⟨rfl, rfl⟩ rfl
  | true =>
    obtain ⟨next, e, rest, hstep, -⟩ := h.neighbourStep_of_contains a hfocus hb ht source
    rw [hstep]
    exact iff_of_false (fun hagain => by cases hagain.2) (by simp)

theorem not_startsAgain_of_attends (h : d.Coherent) (a : Allocation S) (ht : d.Attends t)
    (source : R) : ¬ a.StartsAgain d t source := by
  obtain ⟨k, b, hfocus, hb, hmem⟩ := ht
  rw [h.startsAgain_iff a hfocus hb, hmem]
  simp

/-- Starting again changes the place of the focus, and nothing is drawn. -/
theorem neighbour_of_notMem (a : Allocation S) (hfocus : d.focus = some k)
    (hb : d.block? k = some b) (ht : b.contains t = false)
    (htop : d.blockOf? Forest.root = some top) (source : R) :
    a.neighbour d t source = (Forest.root, { d with focus := some top }, source) := by
  have hstep := neighbourStep_of_notMem a hfocus hb ht source
  simp only [Allocation.neighbour, hfocus, hstep, resetFocus_eq htop]

/-- After a task that is attended the next one is. -/
theorem attends_neighbour (h : d.Coherent) (a : Allocation S) (ht : d.Attends t) (source : R) :
    (a.neighbour d t source).2.1.Attends (a.neighbour d t source).1 := by
  obtain ⟨k, b, hfocus, hb, hmem⟩ := ht
  obtain ⟨next, e, rest, hstep, hchosen⟩ := h.neighbourStep_of_contains a hfocus hb hmem source
  simp only [Allocation.neighbour, hfocus, hstep]
  exact hchosen.attends

/-- **In one tree the next task is attended whatever the last one was.** -/
theorem attends_neighbour_of_validate (h : d.Coherent) (hvalid : d.validate = .ok ())
    (hblocks : 0 < d.blocks.size) (a : Allocation S) (t : TaskId) (source : R) :
    (a.neighbour d t source).2.1.Attends (a.neighbour d t source).1 := by
  obtain ⟨k, b, hfocus, hb⟩ := h.exists_focused hblocks
  cases ht : b.contains t with
  | true => exact h.attends_neighbour a ⟨k, b, hfocus, hb, ht⟩ source
  | false =>
    -- the walk starts again, and the root is a member of its own block
    obtain ⟨top, htop⟩ := h.exists_rootBlock hvalid hblocks
    rw [neighbour_of_notMem a hfocus hb ht htop source]
    exact h.attends_root htop

end Decomposition.Coherent

namespace Allocation

open Decomposition

variable [Scalar S] [UnitSource R S]

/-! ### The walk -/

/-- The walk keeps a decomposition coherent. -/
theorem coherent_walk {d : Decomposition S} (h : d.Coherent) (a : Allocation S) (t : TaskId)
    (source : R) (n : Nat) : (a.walk d t source n).2.1.Coherent := by
  induction n with
  | zero => exact h
  | succ n ih => exact ih.neighbour a _ _

/-- After the first choice every task is attended: the first choice sees to it, and the others
keep it so. -/
theorem attends_walk {d : Decomposition S} (h : d.Coherent) (hvalid : d.validate = .ok ())
    (hblocks : 0 < d.blocks.size) (a : Allocation S) (t : TaskId) (source : R) (n : Nat) :
    (a.walk d t source (n + 1)).2.1.Attends (a.walk d t source (n + 1)).1 := by
  induction n with
  | zero => exact h.attends_neighbour_of_validate hvalid hblocks a t source
  | succ n ih => exact (coherent_walk h a t source (n + 1)).attends_neighbour a ih _

/-- **The way out of a failure is narrow, and is taken once at most.**  In a tree with a block,
however it was built and whichever task the walk goes on from, the walk starts again exactly if
the task is no member of the block with the focus.  It does so at the root, whose block gets the
focus; nothing else changes and nothing is drawn.  From the next choice on it never starts
again. -/
theorem fallback_exact {R₀ : Type} [IndexSource R₀] [UnitSource R₀ S] (root : TaskSpec S)
    (curve : Logistic S) (calls : List (Call S R₀)) {d : Decomposition S}
    (hd : (single root curve).run calls = d) (hvalid : d.validate = .ok ())
    (hblocks : 0 < d.blocks.size) (a : Allocation S) (t : TaskId) (source : R) :
    ∃ k b top, d.focus = some k ∧ d.block? k = some b ∧ d.blockOf? Forest.root = some top ∧
      (a.StartsAgain d t source ↔ b.contains t = false) ∧
      (a.StartsAgain d t source →
        a.neighbour d t source = (Forest.root, { d with focus := some top }, source)) ∧
      ∀ n, ¬ a.StartsAgain (a.walk d t source (n + 1)).2.1 (a.walk d t source (n + 1)).1
        (a.walk d t source (n + 1)).2.2 := by
  have h : d.Coherent := hd ▸ Coherent.run (.single root curve) calls
  obtain ⟨k, b, hfocus, hb⟩ := h.exists_focused hblocks
  obtain ⟨top, htop⟩ := h.exists_rootBlock hvalid hblocks
  have hiff := h.startsAgain_iff (t := t) a hfocus hb source
  refine ⟨k, b, top, hfocus, hb, htop, hiff, fun hagain => ?_, fun n => ?_⟩
  · exact Coherent.neighbour_of_notMem a hfocus hb (hiff.mp hagain) htop source
  · -- the choice before has seen to it that its task is attended
    have hattends := attends_walk h hvalid hblocks a t source n
    exact (coherent_walk h a t source (n + 1)).not_startsAgain_of_attends a hattends _

section Example

attribute [local instance] Scalar.rational

/-- With the focus at the third level, a task of the first level is no member: the walk starts
again there, and not once more. -/
theorem fallback_exact_three_levels :
    StartsAgain ⟨.neighbour, .standard⟩ (threeLevels [.initFocus .deepest ⟨[]⟩]) 2
        (⟨[]⟩ : ScriptedWords) ∧
      (neighbour ⟨.neighbour, .standard⟩ (threeLevels [.initFocus .deepest ⟨[]⟩]) 2
        (⟨[]⟩ : ScriptedWords)).1 = Forest.root ∧
      ∀ n, ¬ StartsAgain ⟨.neighbour, .standard⟩
        (walk ⟨.neighbour, .standard⟩ (threeLevels [.initFocus .deepest ⟨[]⟩]) 2
          (⟨[]⟩ : ScriptedWords) (n + 1)).2.1
        (walk ⟨.neighbour, .standard⟩ (threeLevels [.initFocus .deepest ⟨[]⟩]) 2
          (⟨[]⟩ : ScriptedWords) (n + 1)).1
        (walk ⟨.neighbour, .standard⟩ (threeLevels [.initFocus .deepest ⟨[]⟩]) 2
          (⟨[]⟩ : ScriptedWords) (n + 1)).2.2 := by
  obtain ⟨k, b, top, hfocus, hb, -, hiff, hagain, hnever⟩ :=
    fallback_exact ⟨"root", 0.5, 4⟩ ⟨1.5, 1.0, 1.0⟩ (threeLevelCalls ++ [.initFocus .deepest ⟨[]⟩])
      (show _ = threeLevels [.initFocus .deepest ⟨[]⟩] from rfl) (by decide +kernel)
      (by decide +kernel) ⟨.neighbour, .standard⟩ 2 (⟨[]⟩ : ScriptedWords)
  have hthird : (threeLevels [.initFocus .deepest ⟨[]⟩]).focus = some 2 := by decide +kernel
  cases hthird.symm.trans hfocus
  have hblock : (threeLevels [.initFocus .deepest ⟨[]⟩]).block? 2 = some (.new 3 5 6) := by
    decide +kernel
  cases hblock.symm.trans hb
  have hstarts := hiff.mpr (by decide)
  exact ⟨hstarts, congrArg Prod.fst (hagain hstarts), hnever⟩

end Example

end Allocation

end TaskAllocation
