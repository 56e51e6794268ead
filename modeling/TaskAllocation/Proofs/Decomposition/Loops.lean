import TaskAllocation.Proofs.Decomposition.Hierarchy
import TaskAllocation.Proofs.Forest.Connection
import TaskAllocation.Proofs.Forest.Loops

/-!
# Loops over a decomposition

The level of a block is counted by a loop as well, which looks for the block above, and then for
the one above that.  This one and the three loops over a forest are all that follow links.  However
a forest or a decomposition has grown, and at whatever stage of its growth, each of the four is
left after fewer passes than there are tasks or blocks to follow, and with the value that is
otherwise computed with a bound.

## Main definitions

* `Decomposition.levelPass` — the body of the loop.

## Main results

* `Decomposition.Coherent.exists_leaves_level` — the loop is left with the level.
* `Decomposition.loops_end` — **every loop that follows links is left.**
-/

namespace TaskAllocation

namespace Decomposition

variable {S : Type} {d : Decomposition S} {k : BlockId} {b : Block S} {t : TaskId}

/-- One pass of the count of the blocks above: as long as there is one, it is counted, and the one
above it is looked for. -/
def levelPass (d : Decomposition S) :
    BlockId × Nat → Option (Pass (BlockId × Nat) (Except TopologyError Nat))
  | (k, count) =>
    match d.above k with
    | .error e => some (.leave (.error e))
    | .ok none => some (.leave (.ok count))
    | .ok (some j) => some (.again (j, count + 1))

namespace Coherent

/-- The count takes one pass for every step that leads up from the head of the block. -/
theorem exists_leaves_level_of_ascent (h : d.Coherent) {line : List TaskId}
    (hline : d.forest.Ascent t line) (hb : d.block? k = some b) (hroot : b.root = t)
    (count : Nat) :
    ∃ n, n + 1 = line.length ∧ Leaves d.levelPass (k, count) n (.ok (count + n)) := by
  induction hline generalizing k b count with
  | @top t htop =>
    subst hroot
    exact ⟨0, rfl, .now (by simp only [levelPass, h.above_of_top hb htop, Nat.add_zero])⟩
  | @step t line hup rest ih =>
    subst hroot
    obtain ⟨j, c, habove, hc, hparent⟩ := h.exists_above_of_parent_ne hb hup
    obtain ⟨n, hn, hrest⟩ := ih hc hparent (count + 1)
    rw [Nat.add_right_comm, Nat.add_assoc] at hrest
    refine ⟨n + 1, by rw [hn, List.length_cons], .later ?_ hrest⟩
    simp only [levelPass, habove]

/-- **The count of the blocks above is left**, with the level. -/
theorem exists_leaves_level (h : d.Coherent) (hk : k < d.blocks.size) :
    ∃ n, n < d.blocks.size ∧ 2 * n < d.forest.size ∧ d.level k = .ok n ∧
      Leaves d.levelPass (k, 0) n (.ok n) := by
  obtain ⟨b, hb⟩ := exists_block? hk
  have hline := h.forest.ascent_lineage b.root
  obtain ⟨n, hn, hleaves⟩ := h.exists_leaves_level_of_ascent hline hb rfl 0
  have hblocks := h.length_le_size hb hline
  have htasks := h.forest.two_mul_length_lineage_lt (h.lt_size_root hb)
  rw [Nat.zero_add] at hleaves
  refine ⟨n, by omega, by omega, ?_, hleaves⟩
  rw [h.level_eq_length hb hline, ← hn, Nat.add_sub_cancel]

end Coherent

variable {R : Type} [Scalar S] [IndexSource R] [UnitSource R S]

/-- **Every loop that follows links is left**, whatever calls a forest or a decomposition has grown
by, and at whatever stage of its growth.

The search upwards goes on fewer than half as many times as there are tasks, and its answer says
whether steps from parent to parent, or no step at all, lead from the one task to the other.
Splitting asks for it in the forest as it stands, once for each part: a part is refused because of
a ring exactly if nothing else is amiss with it, and it is the root or is met on the way up from
the task that it is to hang under.

The count of the tasks above goes on once for every step.  It comes to zero exactly for a task that
hangs nowhere, and for any other to one more than for its parent.  The walk from the root takes as
many tasks from its stack as it lists, and those are no more than there are.

The count of the blocks above goes on once for every level, fewer times than there are blocks, and
fewer than half as many as there are tasks. -/
theorem loops_end :
    (∀ f : Forest S, f.Grown →
      (∀ above t, t < f.size →
        (∃ n, 2 * n < f.size ∧ Leaves (f.searchPass above) t n (f.isAncestor above t)) ∧
        (f.isAncestor above t = true ↔ ∃ n, f.parent^[n] t = above)) ∧
      (∀ parent t, f.checkPart parent t = .error (.cycle parent t) ↔
        t ≠ parent ∧ (∃ task, f.task? t = some task ∧ task.hasParent = false) ∧
          (t = Forest.root ∨ ∃ n, f.parent^[n] parent = t)) ∧
      (∀ t task, f.task? t = some task →
        (∃ n, 2 * n < f.size ∧ f.depth t = .ok n ∧ Leaves f.depthPass (task, 0) n n) ∧
        (f.depth t = .ok 0 ↔ task.hasParent = false) ∧
        (task.hasParent = true →
          ∃ n, f.depth task.parent = .ok n ∧ f.depth t = .ok (n + 1))) ∧
      f.preorder.length ≤ f.size ∧
      Leaves f.walkPass (f.root?.toList, []) f.preorder.length f.preorder) ∧
    ∀ (root : TaskSpec S) (curve : Logistic S) (calls : List (Call S R)) (d : Decomposition S),
      (single root curve).run calls = d → ∀ k, k < d.blocks.size →
        ∃ n, n < d.blocks.size ∧ 2 * n < d.forest.size ∧ d.level k = .ok n ∧
          Leaves d.levelPass (k, 0) n (.ok n) := by
  refine ⟨?_, ?_⟩
  · intro f hf
    have h := hf.coherent
    refine ⟨?_, ?_, ?_, h.length_preorder_le, h.leaves_walk⟩
    · intro above t ht
      exact ⟨h.exists_leaves_search ht above, h.isAncestor_iff⟩
    · intro parent t
      exact h.checkPart_eq_cycle_iff
    · intro t task htask
      exact ⟨h.exists_leaves_depth htask, h.depth_eq_zero_iff htask,
        h.exists_depth_of_hasParent htask⟩
  · rintro root curve calls d rfl k hk
    exact (Coherent.run (.single root curve) calls).exists_leaves_level hk

section Example

attribute [local instance] Scalar.rational

/-- Where nothing hangs under the root yet, the search from a part of the lower task finds the
upper one, which is refused as a part of it; there are two tasks above that part, and one block
above that of the lower task. -/
theorem loops_end_loose :
    (∃ n, 2 * n < 6 ∧ Leaves (looseTree.forest.searchPass 1) 4 n true) ∧
      looseTree.forest.checkPart 4 1 = .error (.cycle 4 1) ∧
      (∃ task, looseTree.forest.task? 4 = some task ∧
        looseTree.forest.depth task.parent = .ok 1 ∧
        Leaves looseTree.forest.depthPass (task, 0) 2 2) ∧
      Leaves looseTree.forest.walkPass ([0], []) 1 [0] ∧
      Leaves looseTree.levelPass (0, 0) 1 (.ok 1) := by
  obtain ⟨hforest, hblocks⟩ := loops_end (S := ℚ) (R := ScriptedWords)
  have hgrown : looseTree.forest.Grown := .within ⟨"root", 0.5, 4⟩ ⟨1.5, 1.0, 1.0⟩ looseCalls
  obtain ⟨hsearch, hring, hdepth, -, hwalk⟩ := hforest looseTree.forest hgrown
  have hsize : looseTree.forest.size = 6 := by decide +kernel
  refine ⟨?_, ?_, ?_, ?_, ?_⟩
  · obtain ⟨⟨n, hn, hleaves⟩, habove⟩ := hsearch 1 4 (by decide +kernel)
    rw [habove.mpr ⟨2, by decide +kernel⟩] at hleaves
    exact ⟨n, hsize ▸ hn, hleaves⟩
  · exact (hring 4 1).mpr ⟨by decide, by decide +kernel, .inr ⟨2, by decide +kernel⟩⟩
  · obtain ⟨task, htask⟩ := Forest.exists_task? (f := looseTree.forest) (t := 4) (by decide +kernel)
    obtain ⟨⟨n, -, hn, hleaves⟩, -, hparent⟩ := hdepth 4 task htask
    have htwo : looseTree.forest.depth 4 = .ok 2 := by decide +kernel
    cases htwo.symm.trans hn
    have hup : (looseTree.forest.task? 4).any (·.hasParent) = true := by decide +kernel
    rw [htask, Option.any_some] at hup
    obtain ⟨m, hm, hone⟩ := hparent hup
    cases htwo.symm.trans hone
    exact ⟨task, htask, hm, hleaves⟩
  · have horder : looseTree.forest.preorder = [0] := by decide +kernel
    have hroot : looseTree.forest.root? = some 0 := by decide +kernel
    rwa [horder, hroot] at hwalk
  · obtain ⟨n, -, -, hn, hleaves⟩ := hblocks ⟨"root", 0.5, 4⟩ ⟨1.5, 1.0, 1.0⟩ looseCalls looseTree
      rfl 0 (by decide +kernel)
    have hone : looseTree.level 0 = .ok 1 := by decide +kernel
    cases hone.symm.trans hn
    exact hleaves

end Example

end Decomposition

end TaskAllocation
