import TaskAllocation.Proofs.Decomposition.Neighbourhood
import TaskAllocation.Proofs.Exact

/-!
# One-sided choices

Where parts are always taken, or never, the first draw of a choice decides nothing: no draw
is below zero, and every draw is below one.  So the task that is chosen is known to be a part,
or to be the head of its block, and from there the focus can move in one direction only.

## Main definitions

* `Partitioning.Admits` — what may be chosen in a block.

## Main results

* `Partitioning.admits_draw` — what is drawn may be chosen.
* `Decomposition.Coherent.neighbourStep_admits` — **a step of the walk chooses what may be
  chosen** in the block that it reaches.
* `Decomposition.Coherent.focusStep_of_isPart`, `focusStep_of_root`, `focusStep_of_settled` —
  the ways that are open.
-/

namespace TaskAllocation

variable {S R : Type}

/-! ### What may be chosen -/

/-- Task `t` may be chosen in block `b`. -/
structure Partitioning.Admits (p : Partitioning S) (b : Block S) (t : TaskId) : Prop where
  /-- It is a member. -/
  mem : b.contains t = true
  /-- It is a part, if parts are always taken. -/
  isPart_of_always : p.always = true → b.isPart t = true
  /-- It is the head, if parts are never taken. -/
  eq_root_of_never : p.always = false → p.never = true → t = b.root

theorem Partitioning.Admits.of_members {p : Partitioning S} {b c : Block S} {t : TaskId}
    (h : p.Admits b t) (hmembers : c.members = b.members) : p.Admits c t := by
  have hroot : c.root = b.root := congrArg Prod.fst hmembers
  have hpart : c.isPart = b.isPart := Block.isPart_eq_of_members hmembers
  constructor
  case mem => simpa only [Block.contains, Block.isRoot, hroot, hpart] using h.mem
  case isPart_of_always => rw [hpart]; exact h.isPart_of_always
  case eq_root_of_never => rw [hroot]; exact h.eq_root_of_never

section Draw

variable [Scalar S] [UnitSource R S]

/-- A draw below the probability of the whole task takes it. -/
theorem Partitioning.task_draw_of_lt (b : Block S) {whole : S} (first : S) {source : R}
    (h : (UnitSource.uniform source : S × R).1 < whole) :
    (draw b whole first source).1.task = b.root := by
  simp only [draw, if_pos h]

/-- Any other draw takes a part. -/
theorem Partitioning.isPart_draw_of_not_lt (b : Block S) {whole : S} (first : S) {source : R}
    (h : ¬ (UnitSource.uniform source : S × R).1 < whole) :
    b.isPart (draw b whole first source).1.task = true := by
  simp only [draw, if_neg h, b.isPart_iff]
  split
  · exact .inl rfl
  · exact .inr rfl

/-- **What is drawn may be chosen**: no draw is below zero, and every draw is below one. -/
theorem Partitioning.admits_draw (hunit : UnitSource.InUnit R S) (p : Partitioning S)
    (b : Block S) (parts whole first : S) (source : R) :
    p.Admits b (draw b (p.wholeProb parts whole) first source).1.task := by
  obtain ⟨hpos, hlt⟩ := hunit source
  constructor
  case mem => exact Decomposition.Coherent.contains_draw b _ _ source
  case isPart_of_always =>
    intro halways
    have hprob : p.wholeProb parts whole = 0.0 := if_pos halways
    rw [hprob]
    exact isPart_draw_of_not_lt b first hpos
  case eq_root_of_never =>
    intro halways hnever
    have hprob : p.wholeProb parts whole = 1.0 := by simp [wholeProb, halways, hnever]
    rw [hprob]
    exact task_draw_of_lt b first hlt

end Draw

namespace Decomposition

namespace Coherent

variable {d : Decomposition S} {k j : BlockId} {b : Block S} {t : TaskId}

section Choose

variable [Scalar S] [UnitSource R S]

/-- Choosing in a block chooses what may be chosen there. -/
theorem choose_admits (h : d.Coherent) (hunit : UnitSource.InUnit R S) (p : Partitioning S)
    (hb : d.block? k = some b) (source : R) :
    ∃ next e rest, p.choose d k source = (.ok next, e, rest) ∧ e.focus = d.focus ∧
      p.Admits b next := by
  obtain ⟨root, -, hchoose⟩ := h.choose_of_block p hb source
  exact ⟨_, _, _, hchoose, rfl, p.admits_draw hunit b _ _ _ source⟩

/-- **A step of the walk chooses what may be chosen** in the block that it reaches. -/
theorem neighbourStep_admits (h : d.Coherent) (hunit : UnitSource.InUnit R S) (a : Allocation S)
    (hfocus : d.focus = some k) (hb : d.block? k = some b) (ht : b.contains t = true)
    (source : R) :
    ∃ next e rest j c, a.neighbourStep d t source = (.ok next, e, rest) ∧ e.focus = some j ∧
      d.block? j = some c ∧ a.partitioning.Admits c next ∧ d.FocusStep t (some k) (some j) := by
  obtain ⟨moved, rest, j, c, hmove, hmoved, hblocks, -, hfocus', hc, -, hstep⟩ :=
    h.moveFocus_of_contains hfocus hb ht source
  obtain ⟨next, e, rest', hchoose, hkept, hadmits⟩ :=
    hmoved.choose_admits hunit a.partitioning hc rest
  refine ⟨next, e, rest', j, c, ?_, hkept.trans hfocus', ?_, hadmits, hstep⟩
  · simp only [Allocation.neighbourStep, hmove, hfocus', hchoose]
  · rw [block?, ← hblocks]
    exact hc

end Choose

/-! ### The ways that are open -/

/-- Whether a way is open is a matter of the outline. -/
theorem isSettled_of_outline {e : Decomposition S} {c : Block S} (h : e.outline = d.outline)
    (hmembers : c.members = b.members) (hsettled : d.IsSettled b t) : e.IsSettled c t := by
  have hroot : c.root = b.root := congrArg Prod.fst hmembers
  have hpart : c.isPart = b.isPart := Block.isPart_eq_of_members hmembers
  have hparts : e.forest.parts? = d.forest.parts? :=
    Forest.parts?_eq_of_outline (forest_outline_of_outline h)
  rw [IsSettled, hroot, hpart, hparts]
  exact hsettled

/-- After a part, the focus stays or goes to the block that the part heads. -/
theorem focusStep_of_isPart (h : d.Coherent) (hb : d.block? k = some b)
    (hpart : b.isPart t = true) (hstep : d.FocusStep t (some k) (some j)) :
    j = k ∨ d.blockOf? t = some j := by
  cases hstep with
  | stay => exact .inl rfl
  | up hb' hroot _ =>
    cases hb.symm.trans hb'
    exact absurd hroot ((h.isPart_iff_parent hb).mp hpart).2
  | down _ _ hbelow => exact .inr hbelow

/-- After the head of a block, the focus stays or goes to the block above. -/
theorem focusStep_of_root (h : d.Coherent) (hb : d.block? k = some b)
    (hstep : d.FocusStep b.root (some k) (some j)) : j = k ∨ d.above k = .ok (some j) := by
  cases hstep with
  | stay => exact .inl rfl
  | up _ _ habove => exact .inr habove
  | down hb' hpart _ =>
    cases hb.symm.trans hb'
    exact absurd rfl ((h.isPart_iff_parent hb).mp hpart).2

/-- After the root of the tree, and after a part that is a leaf, the focus stays. -/
theorem focusStep_of_settled (h : d.Coherent) (hb : d.block? k = some b)
    (hsettled : d.IsSettled b t) (hstep : d.FocusStep t (some k) (some j)) : j = k := by
  rcases hsettled with ⟨rfl, htop⟩ | ⟨hpart, hleaf⟩
  · rcases h.focusStep_of_root hb hstep with hstay | habove
    · exact hstay
    · obtain ⟨above, habove', hiff⟩ := h.exists_above hb
      cases habove.symm.trans habove'
      exact absurd (by rw [htop, h.forest.parent_root]) ((hiff j).mp rfl).1
  · rcases h.focusStep_of_isPart hb hpart hstep with hstay | hbelow
    · exact hstay
    · obtain ⟨c, hc, rfl⟩ := h.blockOf?_eq_some_iff.mp hbelow
      cases hleaf.symm.trans (h.parts_root j c hc)

end Coherent

end Decomposition

end TaskAllocation
