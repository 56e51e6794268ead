import TaskAllocation.Proofs.Decomposition.Growth

/-!
# The outline of a decomposition

Which tasks there are, how they hang together and which blocks they form is laid down while
a decomposition is built.  Choosing tasks afterwards moves the focus and changes what blocks
remember, and ending tasks changes what tasks remember; neither touches the outline, so
that what is above or below a block at the start of a run is so until its end.

## Main definitions

* `Block.members`, `Decomposition.outline` — a block, and a decomposition, apart from what it
  remembers.
* `Decomposition.Rearranged` — what choosing a task leaves as it is.

## Main results

* `Decomposition.rearranged_next`, `Decomposition.rearranged_first` — choosing leaves tasks
  and members alone.
* `Decomposition.above_eq_of_outline`, `Decomposition.blockOf?_eq_of_outline` — the outline
  decides how blocks lie to each other.
-/

namespace TaskAllocation

/-- The split task of a block and its two parts. -/
def Block.members {S : Type} (b : Block S) : TaskId × TaskId × TaskId := (b.root, b.first, b.second)

theorem Block.isPart_eq_of_members {S : Type} {b c : Block S} (h : b.members = c.members) :
    b.isPart = c.isPart := by
  obtain ⟨-, hfirst, hsecond⟩ : b.root = c.root ∧ b.first = c.first ∧ b.second = c.second := by
    simpa [members] using h
  funext t
  rw [isPart, isPart, hfirst, hsecond]

namespace Decomposition

variable {S R : Type} {d e : Decomposition S}

/-- A decomposition apart from the history of its tasks and blocks, and from the focus. -/
def outline (d : Decomposition S) : Forest.Outline × Array (TaskId × TaskId × TaskId) :=
  (d.forest.outline, d.blocks.map Block.members)

/-- The head of a block, if one is named. -/
def headOf? (d : Decomposition S) (k : Option BlockId) : Option TaskId :=
  (k.bind d.block?).map (·.root)

/-! ### What the outline decides -/

section Outline

variable (h : e.outline = d.outline)

include h

theorem forest_outline_of_outline : e.forest.outline = d.forest.outline := (Prod.mk.inj h).1

theorem members_of_outline : e.blocks.map Block.members = d.blocks.map Block.members :=
  (Prod.mk.inj h).2

theorem members_block?_of_outline (k : BlockId) :
    (e.block? k).map Block.members = (d.block? k).map Block.members := by
  have hk := congrArg (·[k]?) (members_of_outline h)
  simpa [block?] using hk

theorem exists_block?_of_outline {k : BlockId} {b : Block S} (hb : e.block? k = some b) :
    ∃ c, d.block? k = some c ∧ c.members = b.members := by
  have hk := members_block?_of_outline h k
  rw [hb, Option.map_some] at hk
  exact Option.map_eq_some_iff.mp hk.symm

theorem blockOf?_eq_of_outline : e.blockOf? = d.blockOf? := by
  funext t
  have hfind := congrArg (Array.findIdx? (·.1 == t)) (members_of_outline h)
  simpa [blockOf?, Array.findIdx?_map, Function.comp_def, Block.members] using hfind

theorem withPart_eq_of_outline (k : BlockId) (t : TaskId) : e.withPart k t = d.withPart k t := by
  have hsize : e.blocks.size = d.blocks.size := by
    simpa using congrArg Array.size (members_of_outline h)
  unfold withPart
  rw [hsize]
  refine List.filter_congr fun j _ => ?_
  have hj := members_block?_of_outline h j
  cases hd : d.block? j with
  | none => simp_all
  | some c =>
    rw [hd, Option.map_some] at hj
    obtain ⟨b, hb, hmembers⟩ := Option.map_eq_some_iff.mp hj
    rw [hb, Option.any_some, Option.any_some, Block.isPart_eq_of_members hmembers]

theorem above_eq_of_outline : e.above = d.above := by
  funext k
  have hk := members_block?_of_outline h k
  unfold above block
  cases hd : d.block? k with
  | none => simp_all
  | some c =>
    rw [hd, Option.map_some] at hk
    obtain ⟨b, hb, hmembers⟩ := Option.map_eq_some_iff.mp hk
    have hroot : b.root = c.root := congrArg Prod.fst hmembers
    simp only [hb, hroot, withPart_eq_of_outline h]

/-- The head of a block is laid down, and so is that of the block with the focus. -/
theorem headOf?_eq_of_outline : e.headOf? = d.headOf? := by
  funext k
  cases k with
  | none => rfl
  | some k =>
    have hk := congrArg (Option.map Prod.fst) (members_block?_of_outline h k)
    simpa [headOf?, Function.comp_def, Block.members] using hk

end Outline

/-! ### Choosing keeps the outline -/

/-- The tasks are the same, and so are the members of all blocks. -/
structure Rearranged (d e : Decomposition S) : Prop where
  /-- The tasks are the same, with all that they remember. -/
  forest : e.forest = d.forest
  /-- The members of the blocks are the same. -/
  members : e.blocks.map Block.members = d.blocks.map Block.members

namespace Rearranged

theorem refl (d : Decomposition S) : d.Rearranged d := ⟨rfl, rfl⟩

theorem trans {f : Decomposition S} (h : d.Rearranged e) (h' : e.Rearranged f) : d.Rearranged f :=
  ⟨h'.forest.trans h.forest, h'.members.trans h.members⟩

theorem outline_eq (h : d.Rearranged e) : e.outline = d.outline := by
  rw [outline, outline, h.forest, h.members]

end Rearranged

theorem rearranged_withFocus (d : Decomposition S) (k : Option BlockId) :
    d.Rearranged (d.withFocus k) := by
  cases k with
  | none => exact .refl d
  | some k => exact ⟨rfl, rfl⟩

section Choose

variable [Scalar S] [UnitSource R S]

/-- Choosing a member changes one block, and there only what it remembers. -/
theorem rearranged_choose (p : Partitioning S) (d : Decomposition S) (k : BlockId) (source : R) :
    d.Rearranged (p.choose d k source).2.1 ∧ (p.choose d k source).2.1.focus = d.focus := by
  unfold Partitioning.choose
  split
  · exact ⟨.refl d, rfl⟩
  next b hb =>
    split
    · exact ⟨.refl d, rfl⟩
    next whole first _ =>
      dsimp only
      split
      · exact ⟨.refl d, rfl⟩
      next c hc =>
        obtain ⟨-, rfl⟩ := Block.activate_eq_ok_iff.mp hc
        refine ⟨⟨rfl, ?_⟩, rfl⟩
        have hblock := block?_setIfInBounds (block_eq_ok_iff.mp hb)
        apply Array.ext_getElem?
        intro j
        rw [Array.getElem?_map, Array.getElem?_map]
        refine (congrArg (Option.map Block.members) (hblock _ j)).trans ?_
        split
        · next hj =>
          subst hj
          rw [show d.blocks[j]? = some b from block_eq_ok_iff.mp hb]
          rfl
        · rfl

theorem rearranged_moveFocus (d : Decomposition S) (t : TaskId) (source : R) :
    d.Rearranged (d.moveFocus t source).2.1 := by
  unfold Decomposition.moveFocus
  split
  · exact .refl d
  · split
    · exact .refl d
    · exact .refl d
    · dsimp only
      split
      · exact ⟨rfl, rfl⟩
      · exact ⟨rfl, rfl⟩

theorem rearranged_neighbourStep (a : Allocation S) (d : Decomposition S) (t : TaskId)
    (source : R) : d.Rearranged (a.neighbourStep d t source).2.1 := by
  have hmove := d.rearranged_moveFocus t source
  unfold Allocation.neighbourStep
  generalize d.moveFocus t source = moved at hmove
  obtain ⟨_ | _, e, rest⟩ := moved
  · exact hmove
  · dsimp only
    split
    · exact hmove
    · exact hmove.trans (rearranged_choose a.partitioning e _ rest).1

theorem rearranged_neighbour (a : Allocation S) (d : Decomposition S) (t : TaskId) (source : R) :
    d.Rearranged (a.neighbour d t source).2.1 := by
  have hstep := rearranged_neighbourStep a d t source
  unfold Allocation.neighbour
  split
  · exact .refl d
  · generalize a.neighbourStep d t source = step at hstep
    obtain ⟨_ | _, e, rest⟩ := step
    · exact hstep.trans (e.rearranged_withFocus _)
    · exact hstep

theorem rearranged_first (a : Allocation S) (d : Decomposition S) (source : R) :
    d.Rearranged (a.first d source).2.1 := by
  unfold Allocation.first
  split
  · exact .refl d
  next k _ =>
    have hchoose := (rearranged_choose a.partitioning d k source).1
    generalize a.partitioning.choose d k source = chosen at hchoose
    obtain ⟨_ | _, e, rest⟩ := chosen
    · exact hchoose
    · exact hchoose

theorem rearranged_next [IndexSource R] (a : Allocation S) (d : Decomposition S) (t : TaskId)
    (source : R) : d.Rearranged (a.next d t source).2.1 := by
  unfold Allocation.next
  cases a.policy with
  | neighbour => exact rearranged_neighbour a d t source
  | cheapest => exact .refl d
  | random => exact .refl d

end Choose

end Decomposition

end TaskAllocation
