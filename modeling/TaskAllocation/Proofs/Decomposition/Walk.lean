import TaskAllocation.Allocation
import TaskAllocation.Proofs.Decomposition.Correspondence

/-!
# A step of the walk

A step of the walk moves the focus after a task has run, and chooses a member of the block
that has it then.  In a coherent decomposition the only thing that can go wrong is that
the task is not a member of the block with the focus: the block above is never in doubt, a
split part heads a block, and what is chosen is a member.

## Main definitions

* `Decomposition.IsSettled` — no way is open after a task.
* `Decomposition.strayError` — what goes wrong after a task that is no member.
* `Block.chosen` — a block after a member has been chosen.

## Main results

* `Decomposition.Coherent.moveFocus_of_settled`, `moveFocus_of_open`,
  `moveFocus_of_notMem` — how the focus moves, in all cases.
* `Decomposition.Coherent.choose_of_block` — choosing among the members of a block.
* `Decomposition.Coherent.neighbourStep_of_contains` — the step after a member succeeds.
-/

namespace TaskAllocation

/-- A block after a member has been chosen. -/
def Block.chosen {S : Type} (b : Block S) (c : Partitioning.Choice S) : Block S :=
  { b with
    active := some c.task
    last := b.active
    lastWholeProb := some c.wholeProb
    lastFirstProb := c.firstProb.or b.lastFirstProb }

/-- A member that is chosen takes the place of one that was. -/
theorem Block.Sound.chosen {S : Type} {b : Block S} (h : b.Sound) {c : Partitioning.Choice S}
    (hc : b.contains c.task = true) : (b.chosen c).Sound where
  active_mem t ht := by
    cases ht
    exact hc
  last_mem := h.active_mem
  active_of_last _ := rfl

/-- A block has its probabilities if its members are tasks, and they are read off these. -/
theorem Partitioning.probs_eq_ok_iff {S : Type} [Scalar S] {p : Partitioning S} {f : Forest S}
    {b : Block S} {wholeProb firstProb : S} :
    p.probs f b = .ok (wholeProb, firstProb) ↔
      ∃ root first second, f.task? b.root = some root ∧ f.task? b.first = some first ∧
        f.task? b.second = some second ∧
          wholeProb = p.wholeProb (first.estimate.value + second.estimate.value)
            root.estimate.value ∧
          firstProb = p.firstProb root.lastAborted b.first b.second := by
  simp only [probs, Except.bind_eq_ok_iff, Except.pure_eq_ok_iff, Forest.task_eq_ok_iff,
    Prod.mk.injEq]
  constructor
  · rintro ⟨root, hroot, first, hfirst, second, hsecond, hwhole, hpart⟩
    exact ⟨root, first, second, hroot, hfirst, hsecond, hwhole.symm, hpart.symm⟩
  · rintro ⟨root, first, second, hroot, hfirst, hsecond, rfl, rfl⟩
    exact ⟨root, hroot, first, hfirst, second, hsecond, rfl, rfl⟩

/-- A member drawn from a block headed by task `root`. -/
def Partitioning.drawFrom {S R : Type} [Scalar S] [UnitSource R S] (p : Partitioning S)
    (d : Decomposition S) (b : Block S) (root : Task S) (source : R) : Choice S × R :=
  draw b
    (p.wholeProb (d.forest.estimate b.first + d.forest.estimate b.second) root.estimate.value)
    (p.firstProb root.lastAborted b.first b.second) source

namespace Decomposition

variable {S : Type}

/-- Task `t` has been chosen in the block that has the focus, and is active there. -/
def HasChosen (d : Decomposition S) (t : TaskId) : Prop :=
  ∃ b, d.focused? = some b ∧ b.contains t = true ∧ b.active = some t ∧ b.lastWholeProb.isSome

/-- No way is open after task `t`, a member of the block: it is the root of the tree, or
a part that is a leaf. -/
def IsSettled (d : Decomposition S) (b : Block S) (t : TaskId) : Prop :=
  (t = b.root ∧ t = Forest.root) ∨ (b.isPart t = true ∧ d.forest.parts? t = none)

/-- What goes wrong after task `t`, which is no member of block `k`. -/
def strayError (d : Decomposition S) (k : BlockId) (t : TaskId) : TopologyError :=
  if t < d.forest.size then .notInBlock k t else .unknownTask t

namespace Coherent

variable {d : Decomposition S} {k : BlockId} {b : Block S} {t : TaskId}

/-! ### Moving the focus -/

theorem isSettled_iff {task : Task S} (htask : d.forest.task? t = some task) :
    ((b.isRoot t && t == Forest.root) || (b.isPart t && !task.isSplit)) = true ↔
      d.IsSettled b t := by
  rw [IsSettled, Forest.parts?_of_task? htask, Task.isSplit]
  simp only [Bool.or_eq_true, Bool.and_eq_true, b.isRoot_iff, beq_iff_eq, Bool.not_eq_true',
    Option.isSome_eq_false_iff, Option.isNone_iff_eq_none]

/-- A member that is a part and not settled is split. -/
theorem isSome_parts?_of_isPart (hpart : b.isPart t = true) (hopen : ¬ d.IsSettled b t) :
    (d.forest.parts? t).isSome := by
  rw [Option.isSome_iff_ne_none]
  exact fun hnone => hopen (.inr ⟨hpart, hnone⟩)

section Move

variable {R : Type} [Scalar S] [UnitSource R S]

theorem crossing?_of_settled (h : d.Coherent) (hb : d.block? k = some b)
    (ht : b.contains t = true) (hsettled : d.IsSettled b t) : d.crossing? k t = .ok none := by
  obtain ⟨task, htask⟩ := Forest.exists_task? (h.lt_size_of_contains hb ht)
  unfold crossing?
  rw [block_eq_ok_iff.mpr hb, Forest.task_eq_ok_iff.mpr htask]
  exact if_pos ((isSettled_iff htask).mpr hsettled)

theorem crossing?_of_open (h : d.Coherent) (hb : d.block? k = some b)
    (ht : b.contains t = true) (hopen : ¬ d.IsSettled b t) {above : Option BlockId}
    (habove : d.above k = .ok above) :
    d.crossing? k t = .ok (some
      { upward := b.isRoot t, above := above, stay := d.stayProbs k above }) := by
  obtain ⟨task, htask⟩ := Forest.exists_task? (h.lt_size_of_contains hb ht)
  unfold crossing?
  rw [block_eq_ok_iff.mpr hb, Forest.task_eq_ok_iff.mpr htask]
  refine (if_neg ((isSettled_iff htask).not.mpr hopen)).trans ?_
  rw [ht, habove]
  rfl

theorem crossing?_of_notMem (hb : d.block? k = some b) (ht : b.contains t = false) :
    d.crossing? k t = .error (d.strayError k t) := by
  have hnot : b.isRoot t = false ∧ b.isPart t = false := by
    simpa [Block.contains] using ht
  unfold crossing? strayError
  rw [block_eq_ok_iff.mpr hb]
  rcases Nat.lt_or_ge t d.forest.size with hlt | hge
  · obtain ⟨task, htask⟩ := Forest.exists_task? hlt
    rw [Forest.task_eq_ok_iff.mpr htask, if_pos hlt]
    refine (if_neg ?_).trans ?_
    · simp [hnot.1, hnot.2]
    · rw [ht]
      rfl
  · rw [Forest.task, Forest.task?_eq_none hge, if_neg (Nat.not_lt.mpr hge)]
    rfl

/-- An open way leads to a block. -/
theorem exists_destination (h : d.Coherent) (hb : d.block? k = some b)
    (ht : b.contains t = true) (hopen : ¬ d.IsSettled b t) {above : Option BlockId}
    (habove : d.above k = .ok above) (stay : StayProbs S) (draw : S) :
    ∃ target, target < d.blocks.size ∧ d.destination k t
      { upward := b.isRoot t, above := above, stay := stay } draw = .ok target := by
  have hk := lt_size_of_block? hb
  unfold destination
  cases hroot : b.isRoot t with
  | true =>
    -- upwards, to the block above if there is one
    cases above with
    | none => exact ⟨k, hk, rfl⟩
    | some j =>
      by_cases hdraw : stay.up ≤ draw
      · exact ⟨j, h.lt_size_of_above hb habove, by simp [hdraw]⟩
      · exact ⟨k, hk, by simp [hdraw]⟩
  | false =>
    -- downwards, to the block that the part heads
    have hpart : b.isPart t = true := by simpa [Block.contains, hroot] using ht
    by_cases hdraw : stay.down ≤ draw
    · obtain ⟨j, hj, hof⟩ := h.exists_below hb hpart (isSome_parts?_of_isPart hpart hopen)
      exact ⟨j, h.lt_size_of_blockOf? hof, by simp [hdraw, hj]⟩
    · exact ⟨k, hk, by simp [hdraw]⟩

theorem moveFocus_of_settled (h : d.Coherent) (hfocus : d.focus = some k)
    (hb : d.block? k = some b) (ht : b.contains t = true) (hsettled : d.IsSettled b t)
    (source : R) : d.moveFocus t source = (.ok (), d, source) := by
  simp only [moveFocus, hfocus, h.crossing?_of_settled hb ht hsettled]

theorem moveFocus_of_open (h : d.Coherent) (hfocus : d.focus = some k)
    (hb : d.block? k = some b) (ht : b.contains t = true) (hopen : ¬ d.IsSettled b t)
    (source : R) :
    ∃ above target, d.above k = .ok above ∧ target < d.blocks.size ∧
      d.destination k t
        { upward := b.isRoot t, above := above, stay := d.stayProbs k above }
        (UnitSource.uniform source : S × R).1 = .ok target ∧
      d.moveFocus t source = (.ok (),
        { d with focus := some target, lastStay := some (d.stayProbs k above) },
        (UnitSource.uniform source : S × R).2) := by
  obtain ⟨above, habove, -⟩ := h.exists_above hb
  obtain ⟨target, htarget, hdest⟩ := h.exists_destination hb ht hopen habove
    (d.stayProbs k above) (UnitSource.uniform source : S × R).1
  refine ⟨above, target, habove, htarget, hdest, ?_⟩
  -- where a way leads depends on the blocks alone
  have hdest' : ({ d with focus := some k, lastStay := some (d.stayProbs k above) } :
      Decomposition S).destination k t
        { upward := b.isRoot t, above := above, stay := d.stayProbs k above }
        (UnitSource.uniform source : S × R).1 = .ok target := hdest
  simp only [moveFocus, hfocus, h.crossing?_of_open hb ht hopen habove, hdest']

theorem moveFocus_of_notMem (hfocus : d.focus = some k) (hb : d.block? k = some b)
    (ht : b.contains t = false) (source : R) :
    d.moveFocus t source = (.error (d.strayError k t), d, source) := by
  simp only [moveFocus, hfocus, crossing?_of_notMem hb ht]

/-- Moving the focus moves it to a block, at most. -/
theorem moveFocus (h : d.Coherent) (t : TaskId) (source : R) :
    (d.moveFocus t source).2.1.Coherent ∧
      (d.moveFocus t source).2.1.blocks = d.blocks ∧
      (d.moveFocus t source).2.1.forest = d.forest := by
  cases hfocus : d.focus with
  | none =>
    simp only [Decomposition.moveFocus, hfocus]
    exact ⟨h, trivial, trivial⟩
  | some k =>
    obtain ⟨b, hb⟩ := exists_block? (h.focus_lt k hfocus)
    cases ht : b.contains t with
    | false =>
      rw [moveFocus_of_notMem hfocus hb ht source]
      exact ⟨h, rfl, rfl⟩
    | true =>
      by_cases hsettled : d.IsSettled b t
      · rw [h.moveFocus_of_settled hfocus hb ht hsettled source]
        exact ⟨h, rfl, rfl⟩
      · obtain ⟨_, target, -, htarget, -, hmove⟩ :=
          h.moveFocus_of_open hfocus hb ht hsettled source
        rw [hmove]
        exact ⟨h.of_focus rfl rfl rfl htarget, rfl, rfl⟩

end Move

/-! ### Choosing a member -/

section Choose

variable {R : Type} [Scalar S] [UnitSource R S]

theorem contains_draw (b : Block S) (whole first : S) (source : R) :
    b.contains (Partitioning.draw b whole first source).1.task = true := by
  rw [b.contains_iff]
  unfold Partitioning.draw
  simp only
  split
  · exact .inl rfl
  · dsimp only
    split
    · exact .inr (.inl rfl)
    · exact .inr (.inr rfl)

/-- Choosing among the members of a block: what is drawn becomes active. -/
theorem choose_of_block (h : d.Coherent) (p : Partitioning S) (hb : d.block? k = some b)
    (source : R) :
    ∃ root, d.forest.task? b.root = some root ∧
      p.choose d k source = (.ok (p.drawFrom d b root source).1.task,
        { d with blocks := d.blocks.setIfInBounds k (b.chosen (p.drawFrom d b root source).1) },
        (p.drawFrom d b root source).2) := by
  obtain ⟨root, first, second, hroot, hfirst, hsecond⟩ := h.exists_members hb
  refine ⟨root, hroot, ?_⟩
  have hprobs : p.probs d.forest b = .ok
      (p.wholeProb (d.forest.estimate b.first + d.forest.estimate b.second) root.estimate.value,
        p.firstProb root.lastAborted b.first b.second) := by
    rw [Forest.estimate_of_task? hfirst, Forest.estimate_of_task? hsecond]
    exact Partitioning.probs_eq_ok_iff.mpr ⟨root, first, second, hroot, hfirst, hsecond, rfl, rfl⟩
  have happly : (p.drawFrom d b root source).1.apply b =
      .ok (b.chosen (p.drawFrom d b root source).1) :=
    Block.activate_eq_ok_iff.mpr ⟨contains_draw b _ _ source, rfl⟩
  unfold Partitioning.drawFrom at happly ⊢
  simp only [Partitioning.choose, block_eq_ok_iff.mpr hb, hprobs, happly]

theorem choose_of_size_le (p : Partitioning S) (hk : d.blocks.size ≤ k) (source : R) :
    p.choose d k source = (.error (.unknownBlock k), d, source) := by
  simp only [Partitioning.choose, block_eq_error hk]

/-- Choosing changes what one block remembers, at most. -/
theorem choose (h : d.Coherent) (p : Partitioning S) (k : BlockId) (source : R) :
    (p.choose d k source).2.1.Coherent := by
  rcases Nat.lt_or_ge k d.blocks.size with hlt | hge
  · obtain ⟨b, hb⟩ := exists_block? hlt
    obtain ⟨root, -, hchoose⟩ := h.choose_of_block p hb source
    rw [hchoose]
    exact h.of_block hb rfl rfl rfl ((h.sound k b hb).chosen (contains_draw b _ _ source))
  · rw [choose_of_size_le p hge]
    exact h

/-- Choosing in the block that has the focus succeeds. -/
theorem choose_of_focus (h : d.Coherent) (p : Partitioning S) (hfocus : d.focus = some k)
    (source : R) :
    ∃ t e rest, p.choose d k source = (.ok t, e, rest) ∧ e.HasChosen t := by
  obtain ⟨b, hb⟩ := exists_block? (h.focus_lt k hfocus)
  obtain ⟨root, -, hchoose⟩ := h.choose_of_block p hb source
  refine ⟨_, _, _, hchoose, b.chosen (p.drawFrom d b root source).1, ?_, ?_, rfl, rfl⟩
  · simp only [focused?, hfocus, Option.bind_some]
    exact (block?_setIfInBounds hb _ k).trans (if_pos rfl)
  · exact contains_draw b _ _ source

end Choose

/-! ### The step -/

section Step

variable {R : Type} [Scalar S] [UnitSource R S]

/-- **The step after a member of the block with the focus succeeds.** -/
theorem neighbourStep_of_contains (h : d.Coherent) (a : Allocation S) (hfocus : d.focus = some k)
    (hb : d.block? k = some b) (ht : b.contains t = true) (source : R) :
    ∃ next e rest, a.neighbourStep d t source = (.ok next, e, rest) ∧ e.HasChosen next := by
  by_cases hsettled : d.IsSettled b t
  · obtain ⟨next, e, rest, hchoose, hchosen⟩ := h.choose_of_focus a.partitioning hfocus source
    refine ⟨next, e, rest, ?_, hchosen⟩
    simp only [Allocation.neighbourStep, h.moveFocus_of_settled hfocus hb ht hsettled source,
      hfocus, hchoose]
  · obtain ⟨above, target, -, htarget, -, hmove⟩ :=
      h.moveFocus_of_open hfocus hb ht hsettled source
    have hmoved : ({ d with
        focus := some target
        lastStay := some (d.stayProbs k above) } : Decomposition S).Coherent :=
      h.of_focus rfl rfl rfl htarget
    obtain ⟨next, e, rest, hchoose, hchosen⟩ :=
      hmoved.choose_of_focus a.partitioning rfl (UnitSource.uniform source : S × R).2
    refine ⟨next, e, rest, ?_, hchosen⟩
    simp only [Allocation.neighbourStep, hmove, hchoose]

theorem neighbourStep (h : d.Coherent) (a : Allocation S) (t : TaskId) (source : R) :
    (a.neighbourStep d t source).2.1.Coherent := by
  have hmove := (h.moveFocus t source).1
  unfold Allocation.neighbourStep
  generalize d.moveFocus t source = moved at hmove
  obtain ⟨result, e, rest⟩ := moved
  cases result with
  | error _ => exact hmove
  | ok _ =>
    simp only
    split
    · exact hmove
    · exact hmove.choose a.partitioning _ rest

end Step

/-! ### The other moves of the focus -/

theorem withFocus (h : d.Coherent) {j : Option BlockId} (hj : ∀ k, j = some k → k < d.blocks.size) :
    (d.withFocus j).Coherent := by
  cases j with
  | none => exact h
  | some k => exact h.of_focus rfl rfl rfl (hj k rfl)

theorem resetFocus (h : d.Coherent) : d.resetFocus.Coherent :=
  h.withFocus fun _ hk => h.lt_size_of_blockOf? hk

/-- The better of two blocks is one of them. -/
theorem lt_size_of_deeper (h : d.Coherent) {best : Option (BlockId × Nat)}
    (hbest : ∀ p, best = some p → p.1 < d.blocks.size) :
    ∀ p, d.deeper best t = some p → p.1 < d.blocks.size := by
  intro p hp
  unfold deeper at hp
  split at hp
  · next k hk =>
    dsimp only at hp
    split at hp
    · split at hp
      · cases hp
        exact h.lt_size_of_blockOf? hk
      · exact hbest p hp
    · cases hp
      exact h.lt_size_of_blockOf? hk
  · exact hbest p hp

/-- The deepest block is a block. -/
theorem lt_size_of_deepestBlock? (h : d.Coherent) (hk : d.deepestBlock? = some k) :
    k < d.blocks.size := by
  -- the best so far is a block, whichever tasks are still to come
  have hfold : ∀ (order : List TaskId) (best : Option (BlockId × Nat)),
      (∀ p, best = some p → p.1 < d.blocks.size) →
        ∀ p, order.foldl d.deeper best = some p → p.1 < d.blocks.size := by
    intro order
    induction order with
    | nil => exact fun _ hbest => hbest
    | cons t order ih => exact fun best hbest => ih _ (h.lt_size_of_deeper hbest)
  obtain ⟨p, hp, rfl⟩ := Option.map_eq_some_iff.mp hk
  exact hfold _ none (fun _ hnone => nomatch hnone) p hp

theorem initFocus (h : d.Coherent) {R : Type} [IndexSource R] (policy : FocusPolicy) (source : R) :
    (d.initFocus policy source).1.Coherent := by
  unfold Decomposition.initFocus
  split
  · exact h
  · next hblocks =>
    cases policy with
    | root => exact h.withFocus fun _ hk => h.lt_size_of_blockOf? hk
    | deepest => exact h.withFocus fun _ hk => h.lt_size_of_deepestBlock? hk
    | random =>
      show (d.withFocus (some (IndexSource.below d.blocks.size source).1)).Coherent
      refine h.withFocus fun k hk => ?_
      cases hk
      exact IndexSource.below_lt source (Array.size_pos_iff.mpr (by simpa using hblocks))

end Coherent

end Decomposition

end TaskAllocation
