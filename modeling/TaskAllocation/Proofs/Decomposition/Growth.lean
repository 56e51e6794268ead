import TaskAllocation.Proofs.Decomposition.Walk

/-!
# Decompositions stay coherent

A decomposition starts with the root alone, and is then built, used and kept up to date by
calls in any order.  Tasks and blocks say the same about how tasks split, whatever the
calls, their arguments and their draws are, and however many of them fail.

## Main definitions

* `Decomposition.opened` — a decomposition after a task has been split.
* `Decomposition.Call`, `Decomposition.apply`, `Decomposition.run` — the calls.

## Main results

* `Decomposition.Coherent.apply` — a call keeps a decomposition coherent.
* `Decomposition.correspondence_run` — **the two accounts of the hierarchy agree** after
  every sequence of calls.
-/

namespace TaskAllocation

/-- A new block remembers nothing. -/
theorem Block.sound_new {S : Type} (root first second : TaskId) :
    (Block.new root first second : Block S).Sound where
  active_mem _ ht := nomatch ht
  last_mem _ ht := nomatch ht
  active_of_last hlast := nomatch hlast

namespace Decomposition

variable {S R : Type}

/-! ### Splitting and giving up -/

/-- A decomposition after a task has been split: the parts hang under it, and the last block
is headed by it. -/
def opened (d : Decomposition S) (parent first second : TaskId) : Decomposition S :=
  { d with
    forest := d.forest.link parent first second
    blocks := d.blocks.push (Block.new parent first second)
    focus := if d.focus.isNone ∨ parent = Forest.root then some d.blocks.size else d.focus }

theorem split_eq_ok_iff {d e : Decomposition S} {parent : TaskId} {parts : List TaskId}
    {k : BlockId} :
    d.split parent parts = .ok (k, e) ↔ ∃ first second, parts = [first, second] ∧
      d.forest.CanSplit parent first second ∧ k = d.blocks.size ∧
        e = d.opened parent first second := by
  unfold split
  rw [Except.map_eq_ok_iff]
  constructor
  · rintro ⟨⟨⟨first, second⟩, f⟩, hf, heq⟩
    cases heq
    obtain ⟨hparts, hcan, rfl⟩ := Forest.split_eq_ok_iff.mp hf
    exact ⟨first, second, hparts, hcan, rfl, rfl⟩
  · rintro ⟨first, second, hparts, hcan, rfl, rfl⟩
    exact ⟨((first, second), _), Forest.split_eq_ok_iff.mpr ⟨hparts, hcan, rfl⟩, rfl⟩

/-- A block is an old one, or the new one at the end. -/
theorem block?_opened (d : Decomposition S) (parent first second : TaskId) (k : BlockId) :
    (d.opened parent first second).block? k =
      if k = d.blocks.size then some (Block.new parent first second) else d.block? k :=
  Array.getElem?_push

namespace Coherent

variable {d e : Decomposition S}

/-- **Splitting opens the one block that is missing.**  No block is headed by the split
task yet, for it was whole, and the new links are of no concern to any other task. -/
protected theorem opened (h : d.Coherent) {parent first second : TaskId}
    (hcan : d.forest.CanSplit parent first second) : (d.opened parent first second).Coherent := by
  have hforest := h.forest.link hcan
  have hparts := Forest.parts?_link hcan.lt_size first second
  have hblock : ∀ {j b}, (d.opened parent first second).block? j = some b →
      (j = d.blocks.size ∧ b = Block.new parent first second) ∨ d.block? j = some b := by
    intro j b hb
    rw [block?_opened] at hb
    split at hb
    · next hj => exact .inl ⟨hj, (Option.some.inj hb).symm⟩
    · exact .inr hb
  have hkept : ∀ {j b}, d.block? j = some b →
      (d.opened parent first second).block? j = some b ∧ b.root ≠ parent := by
    intro j b hb
    constructor
    · rw [block?_opened, if_neg (Nat.ne_of_lt (lt_size_of_block? hb)), hb]
    · rintro rfl
      cases (h.parts_root j b hb).symm.trans hcan.whole
  have hsize : (d.opened parent first second).blocks.size = d.blocks.size + 1 :=
    Array.size_push _
  have hfocus : (d.opened parent first second).focus =
      if d.focus.isNone ∨ parent = Forest.root then some d.blocks.size else d.focus := rfl
  constructor
  case forest => exact hforest
  case size_pos =>
    show 0 < (d.forest.link parent first second).size
    rw [Forest.size_link]
    exact h.size_pos
  case parts_root =>
    intro j b hb
    refine (hparts b.root).trans ?_
    rcases hblock hb with ⟨-, rfl⟩ | hb
    · exact if_pos rfl
    · rw [if_neg (hkept hb).2, h.parts_root j b hb]
  case root_inj =>
    intro i j b c hb hc hroot
    rcases hblock hb with ⟨rfl, rfl⟩ | hb' <;> rcases hblock hc with ⟨rfl, rfl⟩ | hc'
    · rfl
    · exact absurd hroot.symm (hkept hc').2
    · exact absurd hroot (hkept hb').2
    · exact h.root_inj i j b c hb' hc' hroot
  case exists_block =>
    intro t ht
    change ((d.forest.link parent first second).parts? t).isSome at ht
    rw [hparts] at ht
    split at ht
    · next hparent =>
      refine ⟨d.blocks.size, Block.new parent first second, ?_, hparent.symm⟩
      rw [block?_opened, if_pos rfl]
    · obtain ⟨j, b, hb, hroot⟩ := h.exists_block t ht
      exact ⟨j, b, (hkept hb).1, hroot⟩
  case focus_eq_none_iff =>
    refine iff_of_false (fun hnone => ?_) (by rw [hsize]; exact Nat.succ_ne_zero _)
    rw [hfocus] at hnone
    split at hnone
    · cases hnone
    · next hgiven => exact hgiven (.inl (by rw [hnone]; rfl))
  case focus_lt =>
    intro j hj
    rw [hfocus] at hj
    rw [hsize]
    split at hj
    · cases hj
      exact Nat.lt_succ_self _
    · exact Nat.lt_succ_of_lt (h.focus_lt j hj)
  case sound =>
    intro j b hb
    rcases hblock hb with ⟨-, rfl⟩ | hb
    · exact Block.sound_new parent first second
    · exact h.sound j b hb
  case lastAborted_mem =>
    intro t task ht u hu
    change (d.forest.link parent first second).task? t = some task at ht
    rw [Forest.task?_link] at ht
    obtain ⟨old, hold, rfl⟩ := Option.map_eq_some_iff.mp ht
    obtain ⟨a, b, hab, hmem⟩ := h.lastAborted_mem t old hold u hu
    -- a task that remembers a part is split, and so is not the one that is being split
    have hne : t ≠ parent := by
      rintro rfl
      rw [← Forest.parts?_of_task? hold] at hab
      cases hab.symm.trans hcan.whole
    refine ⟨a, b, ?_, hmem⟩
    show (if t = parent then some (first, second) else old.parts) = some (a, b)
    rw [if_neg hne, hab]

protected theorem split (h : d.Coherent) {parent : TaskId} {parts : List TaskId} {k : BlockId}
    (hsplit : d.split parent parts = .ok (k, e)) : e.Coherent := by
  obtain ⟨first, second, -, hcan, -, rfl⟩ := split_eq_ok_iff.mp hsplit
  exact h.opened hcan

/-- A task that hangs under another is one of its parts, and so may be remembered there. -/
theorem noteAborted (h : d.Coherent) (t : TaskId) : (d.noteAborted t).Coherent := by
  unfold Decomposition.noteAborted
  split
  · next task ht =>
    split
    · next hhangs =>
      refine h.of_forest (Forest.outline_noteAborted _ _ _) fun u other hu v hv => ?_
      rw [Forest.task?, Forest.noteAborted, Array.getElem?_modify] at hu
      split at hu
      · next hparent =>
        obtain ⟨old, hold, rfl⟩ := Option.map_eq_some_iff.mp hu
        cases hv
        -- the task that remembers is the parent, and so has the task as a part
        have hne := (h.forest.hasParent_iff ht).mp hhangs
        obtain ⟨first, second, hparts, hmem⟩ := h.forest.part_of_parent t hne
        rw [Forest.parent_of_task? ht, hparent, Forest.parts?_of_task? hold] at hparts
        exact ⟨first, second, hparts, hmem⟩
      · exact h.lastAborted_mem u other hu v hv
    · exact h
  · exact h

variable [Scalar S]

/-! ### Declaring -/

/-- A fresh task remembers nothing. -/
theorem lastAborted_mem_push {f : Forest S} (spec : TaskSpec S)
    (hf : ∀ t task, f.task? t = some task → ∀ u, task.lastAborted = some u →
      ∃ first second, task.parts = some (first, second) ∧ (u = first ∨ u = second)) :
    ∀ t task, (f.push spec).task? t = some task → ∀ u, task.lastAborted = some u →
      ∃ first second, task.parts = some (first, second) ∧ (u = first ∨ u = second) := by
  intro t task ht u hu
  rw [Forest.task?_push] at ht
  split at ht
  · cases ht
    cases hu
  · exact hf t task ht u hu

protected theorem single (root : TaskSpec S) (curve : Logistic S) :
    (single root curve).Coherent := by
  have hparts : (single root curve).forest.parts? = (Forest.empty : Forest S).parts? :=
    funext (Forest.parts?_push Forest.empty root)
  have hblock : ∀ k b, (single root curve).block? k ≠ some b := fun _ _ hb =>
    absurd (lt_size_of_block? hb) (Nat.not_lt_zero _)
  constructor
  case forest => exact Forest.Coherent.empty.push rfl
  case size_pos => exact Nat.one_pos
  case parts_root => exact fun k b hb => absurd hb (hblock k b)
  case root_inj => exact fun j _ b _ hb => absurd hb (hblock j b)
  case exists_block =>
    intro t ht
    rw [hparts] at ht
    cases ht
  case focus_eq_none_iff => exact iff_of_true rfl rfl
  case focus_lt =>
    intro k hk
    cases hk
  case sound => exact fun k b hb => absurd hb (hblock k b)
  case lastAborted_mem =>
    refine lastAborted_mem_push (f := Forest.empty) root fun t task ht => ?_
    cases ht

protected theorem add (h : d.Coherent) {spec : TaskSpec S} {id : TaskId}
    (hadd : d.add spec = .ok (id, e)) : e.Coherent := by
  obtain ⟨⟨_, f⟩, hf, heq⟩ := Except.map_eq_ok_iff.mp hadd
  cases heq
  have hforest := h.forest.add hf
  obtain ⟨-, -, rfl⟩ := Forest.add_eq_ok_iff.mp hf
  have hparts := funext (Forest.parts?_push d.forest spec)
  refine ⟨hforest, ?_, ?_, h.root_inj, ?_, h.focus_eq_none_iff, h.focus_lt, h.sound,
    lastAborted_mem_push spec h.lastAborted_mem⟩
  · rw [Forest.size_push]
    exact Nat.succ_pos _
  · rw [hparts]
    exact h.parts_root
  · rw [hparts]
    exact h.exists_block

/-! ### Recording -/

protected theorem record (h : d.Coherent) {t : TaskId} {measured : S} {learn : Bool}
    (hrecord : d.record t measured learn = .ok e) : e.Coherent := by
  obtain ⟨f, hf, rfl⟩ := Except.map_eq_ok_iff.mp hrecord
  refine h.of_forest (Forest.outline_of_record hf) fun u task hu v hv => ?_
  obtain ⟨-, rfl⟩ := Forest.record_eq_ok_iff.mp hf
  rw [Forest.task?, Array.getElem?_modify] at hu
  split at hu
  · obtain ⟨old, hold, rfl⟩ := Option.map_eq_some_iff.mp hu
    exact h.lastAborted_mem u old hold v hv
  · exact h.lastAborted_mem u task hu v hv

/-! ### Choosing the next task -/

theorem neighbour [UnitSource R S] (h : d.Coherent) (a : Allocation S) (t : TaskId) (source : R) :
    (a.neighbour d t source).2.1.Coherent := by
  have hstep := h.neighbourStep a t source
  unfold Allocation.neighbour
  split
  · exact h
  · generalize a.neighbourStep d t source = step at hstep
    obtain ⟨_ | _, e, rest⟩ := step
    · exact resetFocus hstep
    · exact hstep

theorem next [IndexSource R] [UnitSource R S] (h : d.Coherent) (a : Allocation S) (t : TaskId)
    (source : R) : (a.next d t source).2.1.Coherent := by
  unfold Allocation.next
  cases a.policy with
  | neighbour => exact h.neighbour a t source
  | cheapest => exact h
  | random => exact h

end Coherent

/-! ### Calls -/

/-- A call that may change a decomposition, with the source of its draws if it makes any. -/
inductive Call (S R : Type) where
  /-- Declare a task. -/
  | add (spec : TaskSpec S)
  /-- Split a task into the listed parts. -/
  | split (parent : TaskId) (parts : List TaskId)
  /-- Take note that a task has run. -/
  | record (t : TaskId) (measured : S) (learn : Bool)
  /-- Give the focus to the block that a policy names. -/
  | initFocus (policy : FocusPolicy) (source : R)
  /-- Move the focus after a task has run. -/
  | moveFocus (t : TaskId) (source : R)
  /-- Give the focus back to the block of the root. -/
  | resetFocus
  /-- Take note that a task was given up. -/
  | noteAborted (t : TaskId)
  /-- Choose a member of a block. -/
  | choose (p : Partitioning S) (k : BlockId) (source : R)
  /-- Choose the task after another. -/
  | next (a : Allocation S) (t : TaskId) (source : R)

variable [Scalar S] [IndexSource R] [UnitSource R S]

/-- The decomposition after a call.  One that fails may still have changed it. -/
def apply (d : Decomposition S) : Call S R → Decomposition S
  | .add spec =>
    match d.add spec with
    | .ok (_, e) => e
    | .error _ => d
  | .split parent parts =>
    match d.split parent parts with
    | .ok (_, e) => e
    | .error _ => d
  | .record t measured learn =>
    match d.record t measured learn with
    | .ok e => e
    | .error _ => d
  | .initFocus policy source => (d.initFocus policy source).1
  | .moveFocus t source => (d.moveFocus t source).2.1
  | .resetFocus => d.resetFocus
  | .noteAborted t => d.noteAborted t
  | .choose p k source => (p.choose d k source).2.1
  | .next a t source => (a.next d t source).2.1

/-- The decomposition after a sequence of calls. -/
def run (d : Decomposition S) (calls : List (Call S R)) : Decomposition S := calls.foldl apply d

/-- A call keeps a decomposition coherent. -/
theorem Coherent.apply {d : Decomposition S} (h : d.Coherent) (call : Call S R) :
    (d.apply call).Coherent := by
  cases call with
  -- calls that build or record may fail, and change nothing then
  | add spec =>
    simp only [Decomposition.apply]
    split
    · next hadd => exact h.add hadd
    · exact h
  | split parent parts =>
    simp only [Decomposition.apply]
    split
    · next hsplit => exact h.split hsplit
    · exact h
  | record t measured learn =>
    simp only [Decomposition.apply]
    split
    · next hrecord => exact h.record hrecord
    · exact h
  | initFocus policy source => exact h.initFocus policy source
  | moveFocus t source => exact (h.moveFocus t source).1
  | resetFocus => exact h.resetFocus
  | noteAborted t => exact h.noteAborted t
  | choose p k source => exact h.choose p k source
  | next a t source => exact h.next a t source

theorem Coherent.run {d : Decomposition S} (h : d.Coherent) (calls : List (Call S R)) :
    (d.run calls).Coherent := by
  induction calls generalizing d with
  | nil => exact h
  | cons call calls ih => exact ih (h.apply call)

/-- **The two accounts of the hierarchy agree**, in a decomposition that was built from its
root by any calls: block by block and task by task, in what is remembered, and in what is
above a block. -/
theorem correspondence_run (root : TaskSpec S) (curve : Logistic S) (calls : List (Call S R)) :
    ((single root curve).run calls).Coherent ∧
      (∀ k b, ((single root curve).run calls).block? k = some b →
        b.root ≠ b.first ∧ b.root ≠ b.second ∧ b.first ≠ b.second) ∧
      ∀ k, k < ((single root curve).run calls).blocks.size →
        ∃ above, ((single root curve).run calls).above k = .ok above := by
  have h : ((single root curve).run calls).Coherent := (Coherent.single root curve).run calls
  refine ⟨h, fun k b hb => h.members_ne hb, fun k hk => ?_⟩
  obtain ⟨b, hb⟩ := exists_block? hk
  obtain ⟨above, habove, -⟩ := h.exists_above hb
  exact ⟨above, habove⟩

end Decomposition

end TaskAllocation
