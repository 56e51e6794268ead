import TaskAllocation.Proofs.Decomposition.Outline

/-!
# Levels

The level of a block is found by going from block to block upwards, and is the depth of the
task that heads it.  There is a block for every task on that way, so that the bound on the
number of steps is never met.

## Main results

* `Decomposition.Coherent.length_le_size` — no way up is longer than there are blocks.
* `Decomposition.Coherent.level_eq_depth` — the level of a block is the depth of its head.
* `Decomposition.Coherent.exists_level_of_above` — the block above is one level up.
* `Decomposition.level_eq_of_outline` — levels are laid down.
-/

namespace TaskAllocation

namespace Decomposition

variable {S : Type} {d e : Decomposition S} {k j : BlockId} {b c : Block S} {t : TaskId}

/-! ### The outline decides about levels -/

theorem levelUpTo_eq_of_outline (h : e.outline = d.outline) (bound : Nat) (k : BlockId) :
    e.levelUpTo bound k = d.levelUpTo bound k := by
  induction bound generalizing k with
  | zero => rfl
  | succ bound ih => simp only [levelUpTo, above_eq_of_outline h, ih]

theorem level_eq_of_outline (h : e.outline = d.outline) : e.level = d.level := by
  have hsize : e.blocks.size = d.blocks.size := by
    simpa using congrArg Array.size (members_of_outline h)
  funext k
  rw [level, level, hsize, levelUpTo_eq_of_outline h]

namespace Coherent

/-! ### The way up -/

/-- Every task on the way up from the head of a block heads a block. -/
theorem length_le_size (h : d.Coherent) (hb : d.block? k = some b) {line : List TaskId}
    (hline : d.forest.Ascent b.root line) : line.length ≤ d.blocks.size := by
  have hsub : line ⊆ d.blocks.toList.map Block.root := by
    intro u hu
    have hsplit : (d.forest.parts? u).isSome := by
      by_cases hne : u = b.root
      · rw [hne, h.parts_root k b hb]
        rfl
      · exact h.forest.isSome_parts?_of_mem hline hu hne
    obtain ⟨i, c, hc, hroot⟩ := h.exists_block u hsplit
    exact List.mem_map.mpr ⟨c, Array.mem_toList_iff.mpr (Array.mem_of_getElem? hc), hroot⟩
  simpa using hline.nodup.length_le_of_subset hsub

/-- As many steps as there are tasks above lead to the top. -/
theorem levelUpTo_eq (h : d.Coherent) {line : List TaskId} (hline : d.forest.Ascent t line)
    {bound : Nat} (hbound : line.length ≤ bound + 1) (hb : d.block? k = some b)
    (hroot : b.root = t) : d.levelUpTo bound k = .ok (line.length - 1) := by
  induction hline generalizing bound k b with
  | @top t htop =>
    subst hroot
    cases bound with
    | zero => rfl
    | succ bound =>
      simp only [levelUpTo, h.above_of_top hb htop]
      rfl
  | @step t line hne rest ih =>
    subst hroot
    have hpos : 0 < line.length := List.length_pos_of_mem rest.mem_self
    cases bound with
    | zero => exact absurd hbound (by rw [List.length_cons]; omega)
    | succ bound =>
      obtain ⟨j, c, habove, hc, hhead⟩ := h.exists_above_of_parent_ne hb hne
      have hrest := ih (Nat.le_of_succ_le_succ hbound) hc hhead
      simp only [levelUpTo, habove, hrest, Except.map, List.length_cons]
      exact congrArg Except.ok (by omega)

/-- The bound on the steps is no matter. -/
theorem level_eq_length (h : d.Coherent) (hb : d.block? k = some b) {line : List TaskId}
    (hline : d.forest.Ascent b.root line) : d.level k = .ok (line.length - 1) := by
  refine h.levelUpTo_eq hline ?_ hb rfl
  have hle := h.length_le_size hb hline
  omega

/-- **The level of a block is the depth of the task that heads it.** -/
theorem level_eq_depth (h : d.Coherent) (hb : d.block? k = some b) :
    d.level k = d.forest.depth b.root := by
  obtain ⟨task, htask⟩ := h.exists_root hb
  rw [h.level_eq_length hb (h.forest.ascent_lineage b.root), Forest.depth_of_task? htask]

theorem exists_level (h : d.Coherent) (hb : d.block? k = some b) : ∃ n, d.level k = .ok n :=
  ⟨_, h.level_eq_length hb (h.forest.ascent_lineage b.root)⟩

/-! ### From level to level -/

/-- The block above is one level up. -/
theorem exists_level_of_above (h : d.Coherent) (hb : d.block? k = some b)
    (habove : d.above k = .ok (some j)) :
    ∃ n, d.level j = .ok n ∧ d.level k = .ok (n + 1) := by
  obtain ⟨_, habove', hiff⟩ := h.exists_above hb
  cases habove.symm.trans habove'
  obtain ⟨hne, hof⟩ := (hiff j).mp rfl
  obtain ⟨c, hc, hroot⟩ := h.blockOf?_eq_some_iff.mp hof
  -- the way up from the head is one step longer than that from its parent
  have hrest := h.forest.ascent_lineage (d.forest.parent b.root)
  generalize d.forest.lineage (d.forest.parent b.root) = line at hrest
  have hpos : 0 < line.length := List.length_pos_of_mem hrest.mem_self
  refine ⟨line.length - 1, h.level_eq_length hc (by rw [hroot]; exact hrest), ?_⟩
  rw [h.level_eq_length hb (.step hne hrest), List.length_cons]
  exact congrArg Except.ok (by omega)

/-- A block is the one above the block that a part of it heads. -/
theorem above_of_blockOf? (h : d.Coherent) (hb : d.block? k = some b) (hpart : b.isPart t = true)
    (hof : d.blockOf? t = some j) : d.above j = .ok (some k) := by
  obtain ⟨c, hc, rfl⟩ := h.blockOf?_eq_some_iff.mp hof
  obtain ⟨hparent, hne⟩ := (h.isPart_iff_parent hb).mp hpart
  obtain ⟨above, habove, hiff⟩ := h.exists_above hc
  have hk : above = some k := (hiff k).mpr
    ⟨by rw [hparent]; exact hne.symm, h.blockOf?_eq_some_iff.mpr ⟨b, hb, hparent.symm⟩⟩
  rw [habove, hk]

end Coherent

end Decomposition

end TaskAllocation
