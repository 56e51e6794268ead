import TaskAllocation.Proofs.Decomposition.Level
import TaskAllocation.Proofs.Exact

/-!
# The hierarchy of blocks

Three searches tell how blocks lie to each other.  The block above is looked for among the parts
of all other blocks, the block below a part among the heads of all blocks, and the level of a
block is counted by looking for the block above again and again.  None of them follows a link
between tasks.  They come to what the links say all the same: the block above is the one that the
parent heads, up and down undo each other, and the level is the depth of the head.  That holds in
trees that do not hang under the root yet as well.

## Main definitions

* `Decomposition.Heads` — a task heads a block.

## Main results

* `Decomposition.Coherent.above_eq_some_iff`, `above_eq_none_iff` — what is above a block.
* `Decomposition.Coherent.below_eq_ok_iff` — what is below a part.
* `Decomposition.hierarchy_exact` — **blocks lie to each other as their heads do.**
-/

namespace TaskAllocation

namespace Decomposition

variable {S : Type} {d : Decomposition S} {k j : BlockId} {b c : Block S} {t : TaskId}

/-- Task `t` heads block `k`. -/
def Heads (d : Decomposition S) (t : TaskId) (k : BlockId) : Prop :=
  ∃ b, d.block? k = some b ∧ b.root = t

namespace Coherent

/-! ### Above -/

/-- The block above is the one that the parent of the head heads. -/
theorem above_eq_some_iff (h : d.Coherent) (hb : d.block? k = some b) {head : Task S}
    (hhead : d.forest.task? b.root = some head) :
    d.above k = .ok (some j) ↔ head.hasParent = true ∧ d.Heads head.parent j := by
  obtain ⟨above, habove, hiff⟩ := h.exists_above hb
  rw [habove, Except.ok.injEq, hiff j, h.forest.hasParent_iff hhead, h.blockOf?_eq_some_iff,
    Forest.parent_of_task? hhead]
  rfl

/-- There is none exactly if the head hangs nowhere: a parent is split, and so heads a block. -/
theorem above_eq_none_iff (h : d.Coherent) (hb : d.block? k = some b) {head : Task S}
    (hhead : d.forest.task? b.root = some head) :
    d.above k = .ok none ↔ head.hasParent = false := by
  rw [h.forest.hasParent_eq_false_iff hhead]
  constructor
  · intro hnone
    by_contra hne
    obtain ⟨j, -, hsome, -⟩ := h.exists_above_of_parent_ne hb hne
    cases hnone.symm.trans hsome
  · intro htop
    exact h.above_of_top hb htop

/-- In one tree the only block without one above is that of the root. -/
theorem above_eq_none_iff_root (h : d.Coherent) (hvalid : d.validate = .ok ())
    (hb : d.block? k = some b) : d.above k = .ok none ↔ b.root = Forest.root := by
  have hlt := h.lt_size_root hb
  obtain ⟨head, hhead⟩ := h.exists_root hb
  rw [h.above_eq_none_iff hb hhead, h.forest.hasParent_eq_false_iff hhead]
  constructor
  · intro htop
    by_contra hne
    have hpos := Nat.pos_of_ne_zero hne
    exact (h.forest.validate_eq_ok_iff.mp hvalid).2 b.root hpos hlt htop
  · intro hroot
    rw [hroot, h.forest.parent_root]

/-! ### Below -/

/-- The block below is found under a part that heads one. -/
theorem below_eq_ok_iff (h : d.Coherent) :
    d.below j t = .ok k ↔ (∃ c, d.block? j = some c ∧ c.isPart t = true) ∧ d.Heads t k := by
  have hof : d.blockOf? t = some k ↔ d.Heads t k := h.blockOf?_eq_some_iff
  rw [← hof]
  unfold below
  constructor
  · intro hbelow
    split at hbelow
    · cases hbelow
    next c hc =>
      rw [block_eq_ok_iff] at hc
      split at hbelow
      · next hpart =>
        split at hbelow
        · next i hi =>
          cases hbelow
          exact ⟨⟨c, hc, hpart⟩, hi⟩
        · cases hbelow
      · cases hbelow
  · rintro ⟨⟨c, hc, hpart⟩, hk⟩
    simp only [block_eq_ok_iff.mpr hc, hpart, if_true, hk]

/-- What is below a part has the block of the part above it. -/
theorem above_of_below (h : d.Coherent) (hbelow : d.below j t = .ok k) :
    d.above k = .ok (some j) := by
  obtain ⟨⟨c, hc, hpart⟩, hheads⟩ := h.below_eq_ok_iff.mp hbelow
  exact h.above_of_blockOf? hc hpart (h.blockOf?_eq_some_iff.mpr hheads)

/-- A block is below the one above it, under its head. -/
theorem below_of_above (h : d.Coherent) (hb : d.block? k = some b)
    (habove : d.above k = .ok (some j)) : d.below j b.root = .ok k := by
  obtain ⟨_, habove', hiff⟩ := h.exists_above hb
  cases habove.symm.trans habove'
  obtain ⟨hne, hof⟩ := (hiff j).mp rfl
  obtain ⟨c, hc, hroot⟩ := h.blockOf?_eq_some_iff.mp hof
  have hpart : c.isPart b.root = true := by
    rw [h.isPart_iff_parent hc, hroot]
    exact ⟨rfl, Ne.symm hne⟩
  exact h.below_eq_ok_iff.mpr ⟨⟨c, hc, hpart⟩, b, hb, rfl⟩

end Coherent

variable {R : Type} [Scalar S] [IndexSource R] [UnitSource R S]

/-- **Blocks lie to each other as their heads do**, however the decomposition was built.  A block
is below another under a part of that one which it is headed by; going down and then up, or up
and then down, leads back.  The block above is the one that the parent of the head heads, and is
missing exactly if the head hangs nowhere, which in one tree only the root does.  The level of a
block is the depth of its head, which is how many steps it takes from there to the top. -/
theorem hierarchy_exact (root : TaskSpec S) (curve : Logistic S) (calls : List (Call S R))
    (hd : (single root curve).run calls = d) :
    (∀ j t k, d.below j t = .ok k ↔
        (∃ c, d.block? j = some c ∧ (t = c.first ∨ t = c.second)) ∧ d.Heads t k) ∧
      (∀ j t k, d.below j t = .ok k → d.above k = .ok (some j)) ∧
      ∀ k b, d.block? k = some b → ∃ head n, d.forest.task? b.root = some head ∧
        (∀ j, d.above k = .ok (some j) ↔ head.hasParent = true ∧ d.Heads head.parent j) ∧
        (d.above k = .ok none ↔ head.hasParent = false) ∧
        (d.validate = .ok () → (d.above k = .ok none ↔ b.root = Forest.root)) ∧
        (∀ j, d.above k = .ok (some j) → d.below j b.root = .ok k) ∧
        d.level k = .ok n ∧ d.forest.depth b.root = .ok n ∧ d.forest.StepsUp b.root n := by
  have h : d.Coherent := hd ▸ Coherent.run (.single root curve) calls
  refine ⟨?_, ?_, ?_⟩
  · intro j t k
    simp only [h.below_eq_ok_iff, Block.isPart_iff]
  · intro j t k hbelow
    exact h.above_of_below hbelow
  · intro k b hb
    obtain ⟨head, hhead⟩ := h.exists_root hb
    obtain ⟨n, hdepth, hsteps⟩ := h.forest.exists_depth (h.lt_size_root hb)
    have hlevel : d.level k = .ok n := by rw [h.level_eq_depth hb, hdepth]
    refine ⟨head, n, hhead, ?_, h.above_eq_none_iff hb hhead, ?_, ?_, hlevel, hdepth, hsteps⟩
    · intro j
      exact h.above_eq_some_iff hb hhead
    · intro hvalid
      exact h.above_eq_none_iff_root hvalid hb
    · intro j habove
      exact h.below_of_above hb habove

section Example

attribute [local instance] Scalar.rational

/-- Calls that declare six tasks and split two of them, the lower one first; nothing hangs under
the root yet. -/
def looseCalls : List (Call ℚ ScriptedWords) := [
  .add ⟨"left", 0.5, 2⟩, .add ⟨"right", 0.5, 2⟩, .add ⟨"low", 0.5, 2⟩, .add ⟨"high", 0.5, 1⟩,
  .add ⟨"fetch", 0.5, 1⟩, .split 2 [4, 5], .split 1 [2, 3]]

/-- The tasks that have been split so. -/
def looseTree : Decomposition ℚ := (single ⟨"root", 0.5, 4⟩ ⟨1.5, 1.0, 1.0⟩).run looseCalls

/-- The block of the lower task lies below that of the upper one. -/
theorem hierarchy_exact_loose :
    looseTree.above 0 = .ok (some 1) ∧ looseTree.below 1 2 = .ok 0 ∧
      looseTree.level 0 = .ok 1 ∧ looseTree.forest.StepsUp 2 1 := by
  have hb : looseTree.block? 0 = some (.new 2 4 5) := by decide +kernel
  obtain ⟨-, -, hblocks⟩ :=
    hierarchy_exact ⟨"root", 0.5, 4⟩ ⟨1.5, 1.0, 1.0⟩ looseCalls (show _ = looseTree from rfl)
  obtain ⟨head, n, -, -, -, -, hdown, hlevel, hdepth, hsteps⟩ := hblocks 0 _ hb
  have habove : looseTree.above 0 = .ok (some 1) := by decide +kernel
  have hone : looseTree.forest.depth 2 = .ok 1 := by decide +kernel
  cases hone.symm.trans hdepth
  exact ⟨habove, hdown 1 habove, hlevel, hsteps⟩

end Example

end Decomposition

end TaskAllocation
