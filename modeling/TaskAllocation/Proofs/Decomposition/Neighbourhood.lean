import TaskAllocation.Proofs.Decomposition.Outline

/-!
# Neighbourhoods

After a task the walk stays in its block or goes to a block that has the task as a member
too: the block above has the head of the block below it as a part, and the block below a
part is headed by it.  So the next task is a member of a block that the last one is a member
of, and two members of a block are near each other in the tree.

## Main definitions

* `Forest.Near` — a task, its parent, its parts and the other part of its parent.
* `Decomposition.FocusStep` — how the focus may move after a task.

## Main results

* `Decomposition.Coherent.near_of_contains` — members of one block are near each other.
* `Decomposition.Coherent.neighbourStep_near` — **a step of the walk leads to a neighbour.**
-/

namespace TaskAllocation

/-- The tasks near `t`. -/
inductive Forest.Near {S : Type} (f : Forest S) (t : TaskId) : TaskId → Prop where
  /-- The task itself. -/
  | self : f.Near t t
  /-- The task that it is a part of. -/
  | parent : f.parent t ≠ t → f.Near t (f.parent t)
  /-- A part of it. -/
  | part {first second u : TaskId} :
    f.parts? t = some (first, second) → u = first ∨ u = second → f.Near t u
  /-- A part of the task that it is a part of. -/
  | sibling {whole first second u : TaskId} :
    f.parts? whole = some (first, second) → t = first ∨ t = second → u = first ∨ u = second →
      f.Near t u

namespace Decomposition

variable {S R : Type} {d e : Decomposition S} {k j : BlockId} {b : Block S} {t u : TaskId}

/-- How the focus may move after task `t`. -/
inductive FocusStep (d : Decomposition S) (t : TaskId) :
    Option BlockId → Option BlockId → Prop where
  /-- It stays. -/
  | stay (k : Option BlockId) : d.FocusStep t k k
  /-- It goes to the block above, from the head of a block. -/
  | up {k j : BlockId} {b : Block S} :
    d.block? k = some b → t = b.root → d.above k = .ok (some j) → d.FocusStep t (some k) (some j)
  /-- It goes to the block that the task heads, from a part of a block. -/
  | down {k j : BlockId} {b : Block S} :
    d.block? k = some b → b.isPart t = true → d.blockOf? t = some j →
      d.FocusStep t (some k) (some j)

/-! ### The outline decides what is near -/

theorem near_of_outline (h : e.outline = d.outline) (hnear : e.forest.Near t u) :
    d.forest.Near t u := by
  have hparent := Forest.parent_eq_of_outline (forest_outline_of_outline h)
  have hparts := Forest.parts?_eq_of_outline (forest_outline_of_outline h)
  cases hnear with
  | self => exact .self
  | parent hne =>
    rw [hparent] at hne ⊢
    exact .parent hne
  | part ht hu => exact .part (by rw [← hparts, ht]) hu
  | sibling hwhole ht hu => exact .sibling (by rw [← hparts, hwhole]) ht hu

theorem focusStep_of_outline (h : e.outline = d.outline) {i j : Option BlockId}
    (hstep : e.FocusStep t i j) : d.FocusStep t i j := by
  cases hstep with
  | stay => exact .stay _
  | up hb hroot habove =>
    obtain ⟨c, hc, hmembers⟩ := exists_block?_of_outline h hb
    rw [above_eq_of_outline h] at habove
    exact .up hc (hroot.trans (congrArg Prod.fst hmembers).symm) habove
  | down hb hpart hbelow =>
    obtain ⟨c, hc, hmembers⟩ := exists_block?_of_outline h hb
    rw [blockOf?_eq_of_outline h] at hbelow
    exact .down hc (by rw [Block.isPart_eq_of_members hmembers, hpart]) hbelow

namespace Coherent

/-- **Members of one block are near each other.** -/
theorem near_of_contains (h : d.Coherent) (hb : d.block? k = some b) (ht : b.contains t = true)
    (hu : b.contains u = true) : d.forest.Near t u := by
  have hparts := h.parts_root k b hb
  rw [b.contains_iff] at ht hu
  rcases ht with rfl | ht
  · rcases hu with rfl | hu
    · exact .self
    · exact .part hparts hu
  · rcases hu with rfl | hu
    · obtain ⟨hne, -, -, hparent⟩ := h.forest.hangs _ _ _ hparts t ht
      have hnear : d.forest.Near t (d.forest.parent t) := .parent (by rw [hparent]; exact hne.symm)
      rwa [hparent] at hnear
    · exact .sibling hparts ht hu

/-- Wherever the focus goes after a member of its block, the task is a member there too. -/
theorem contains_of_focusStep (h : d.Coherent) (hb : d.block? k = some b)
    (ht : b.contains t = true) (hstep : d.FocusStep t (some k) (some j)) :
    ∃ c, d.block? j = some c ∧ c.contains t = true := by
  cases hstep with
  | stay => exact ⟨b, hb, ht⟩
  | up hb' hroot habove =>
    -- the head of the block is a part in the block above
    cases hb.symm.trans hb'
    obtain ⟨_, habove', hiff⟩ := h.exists_above hb
    cases habove.symm.trans habove'
    obtain ⟨hne, hof⟩ := (hiff j).mp rfl
    obtain ⟨c, hc, hroot'⟩ := h.blockOf?_eq_some_iff.mp hof
    have hpart : c.isPart t = true :=
      (h.isPart_iff_parent hc).mpr ⟨by rw [hroot, hroot'], by rw [hroot, hroot']; exact hne.symm⟩
    exact ⟨c, hc, by simp [Block.contains, hpart]⟩
  | down _ _ hbelow =>
    obtain ⟨c, hc, hroot⟩ := h.blockOf?_eq_some_iff.mp hbelow
    exact ⟨c, hc, (c.contains_iff t).mpr (.inl hroot.symm)⟩

variable [Scalar S]

/-- An open way leads as the focus may move. -/
theorem focusStep_of_destination (hb : d.block? k = some b) (ht : b.contains t = true)
    {above : Option BlockId} (habove : d.above k = .ok above) {stay : StayProbs S} {draw : S}
    (hdest : d.destination k t { upward := b.isRoot t, above := above, stay := stay } draw =
      .ok j) : d.FocusStep t (some k) (some j) := by
  unfold destination at hdest
  cases hroot : b.isRoot t with
  | true =>
    simp only [hroot, if_true] at hdest
    cases above with
    | none =>
      cases hdest
      exact .stay _
    | some i =>
      simp only [Except.ok.injEq] at hdest
      split at hdest
      · cases hdest
        exact .up hb ((b.isRoot_iff t).mp hroot) habove
      · cases hdest
        exact .stay _
  | false =>
    have hpart : b.isPart t = true := by simpa [Block.contains, hroot] using ht
    simp only [hroot, Bool.false_eq_true, if_false] at hdest
    split at hdest
    · simp only [below, block_eq_ok_iff.mpr hb, hpart, if_true] at hdest
      split at hdest
      · next i hi =>
        cases hdest
        exact .down hb hpart hi
      · cases hdest
    · cases hdest
      exact .stay _

variable [UnitSource R S]

/-- **After a member of its block the focus moves without failing**, and the task is a member of
the block that is reached. -/
theorem moveFocus_of_contains (h : d.Coherent) (hfocus : d.focus = some k)
    (hb : d.block? k = some b) (ht : b.contains t = true) (source : R) :
    ∃ moved rest j c, d.moveFocus t source = (.ok (), moved, rest) ∧ moved.Coherent ∧
      moved.blocks = d.blocks ∧ moved.forest = d.forest ∧ moved.focus = some j ∧
      moved.block? j = some c ∧ c.contains t = true ∧ d.FocusStep t (some k) (some j) := by
  obtain ⟨hcoherent, hblocks, hforest⟩ := h.moveFocus t source
  by_cases hsettled : d.IsSettled b t
  · rw [h.moveFocus_of_settled hfocus hb ht hsettled source] at hcoherent hblocks hforest ⊢
    exact ⟨d, source, k, b, rfl, hcoherent, hblocks, hforest, hfocus, hb, ht, .stay _⟩
  · obtain ⟨above, target, habove, -, hdest, hmove⟩ :=
      h.moveFocus_of_open hfocus hb ht hsettled source
    have hstep := focusStep_of_destination hb ht habove hdest
    obtain ⟨c, hc, htc⟩ := h.contains_of_focusStep hb ht hstep
    rw [hmove] at hcoherent hblocks hforest ⊢
    exact ⟨_, _, target, c, rfl, hcoherent, hblocks, hforest, rfl, hc, htc, hstep⟩

/-- Choosing in a block near which a task is chooses near that task. -/
theorem choose_near (h : d.Coherent) (p : Partitioning S) (hb : d.block? k = some b)
    (ht : b.contains t = true) (source : R) :
    ∃ next e rest, p.choose d k source = (.ok next, e, rest) ∧ e.focus = d.focus ∧
      d.forest.Near t next := by
  obtain ⟨root, -, hchoose⟩ := h.choose_of_block p hb source
  exact ⟨_, _, _, hchoose, rfl, h.near_of_contains hb ht (contains_draw b _ _ source)⟩

/-- **A step of the walk leads to a neighbour**: the focus moves to a block that has the task
as a member, at most one level away, and the next task is a member of that block. -/
theorem neighbourStep_near (h : d.Coherent) (a : Allocation S) (hfocus : d.focus = some k)
    (hb : d.block? k = some b) (ht : b.contains t = true) (source : R) :
    ∃ next e rest, a.neighbourStep d t source = (.ok next, e, rest) ∧
      d.FocusStep t d.focus e.focus ∧ d.forest.Near t next := by
  obtain ⟨moved, rest, j, c, hmove, hmoved, -, hforest, hfocus', hc, htc, hstep⟩ :=
    h.moveFocus_of_contains hfocus hb ht source
  obtain ⟨next, e, rest', hchoose, hkept, hnear⟩ :=
    hmoved.choose_near a.partitioning hc htc rest
  refine ⟨next, e, rest', ?_, ?_, hforest ▸ hnear⟩
  · simp only [Allocation.neighbourStep, hmove, hfocus', hchoose]
  · rw [hfocus, hkept, hfocus']
    exact hstep

end Coherent

end Decomposition

end TaskAllocation
