import TaskAllocation.Decomposition
import TaskAllocation.Proofs.Forest.Coherence

/-!
# Blocks and split tasks

A decomposition says twice how its tasks split: once by the links of its forest, once by
its blocks.  In a coherent decomposition the two agree, and moving between blocks is then
moving between tasks: the block above is the one headed by the parent, and the block below
a part is the one that the part heads.

## Main definitions

* `Block.Sound` — a block remembers members of its own.
* `Decomposition.Coherent` — forest and blocks agree, and so does what blocks and tasks
  remember.

## Main results

* `Decomposition.Coherent.blockOf?_eq_some_iff` — the block of a task is the one that it heads.
* `Decomposition.Coherent.exists_above` — there is never more than one block above.
* `Decomposition.Coherent.above_of_top`, `Decomposition.Coherent.exists_above_of_parent_ne` — when
  there is none, and when there is one.
* `Decomposition.Coherent.exists_below` — a split part heads a block.
-/

namespace TaskAllocation

/-- A block that remembers members of its own. -/
structure Block.Sound {S : Type} (b : Block S) : Prop where
  /-- What is active is a member. -/
  active_mem : ∀ t, b.active = some t → b.contains t = true
  /-- So is what was active before. -/
  last_mem : ∀ t, b.last = some t → b.contains t = true
  /-- Where something was active before, something is. -/
  active_of_last : b.last.isSome → b.active.isSome

namespace Decomposition

variable {S : Type}

/-- A decomposition whose blocks are its split tasks, and whose blocks and tasks remember
members of theirs. -/
structure Coherent (d : Decomposition S) : Prop where
  /-- The links of the tasks agree with each other. -/
  forest : d.forest.Coherent
  /-- There is a root. -/
  size_pos : 0 < d.forest.size
  /-- A block is headed by a split task, and has its parts in their order. -/
  parts_root : ∀ k b, d.block? k = some b → d.forest.parts? b.root = some (b.first, b.second)
  /-- No two blocks are headed by one task. -/
  root_inj : ∀ j k b c, d.block? j = some b → d.block? k = some c → b.root = c.root → j = k
  /-- Every split task heads a block. -/
  exists_block : ∀ t, (d.forest.parts? t).isSome → ∃ k b, d.block? k = some b ∧ b.root = t
  /-- Only without blocks there is no focus. -/
  focus_eq_none_iff : d.focus = none ↔ d.blocks.size = 0
  /-- The focus is at a block. -/
  focus_lt : ∀ k, d.focus = some k → k < d.blocks.size
  /-- What blocks remember are members of theirs. -/
  sound : ∀ k b, d.block? k = some b → b.Sound
  /-- The part that was given up most recently is a part. -/
  lastAborted_mem : ∀ t task, d.forest.task? t = some task → ∀ u, task.lastAborted = some u →
    ∃ first second, task.parts = some (first, second) ∧ (u = first ∨ u = second)

/-! ### Lookups -/

theorem lt_size_of_block? {d : Decomposition S} {k : BlockId} {b : Block S}
    (h : d.block? k = some b) : k < d.blocks.size :=
  (Array.getElem?_eq_some_iff.mp h).1

theorem exists_block? {d : Decomposition S} {k : BlockId} (h : k < d.blocks.size) :
    ∃ b, d.block? k = some b :=
  ⟨_, Array.getElem?_eq_getElem h⟩

theorem block?_setIfInBounds {d : Decomposition S} {k : BlockId} {b : Block S}
    (h : d.block? k = some b) (c : Block S) (j : BlockId) :
    ({ d with blocks := d.blocks.setIfInBounds k c } : Decomposition S).block? j =
      if j = k then some c else d.block? j := by
  rw [block?, block?, Array.getElem?_setIfInBounds]
  by_cases hjk : k = j
  · rw [if_pos hjk, if_pos hjk.symm, if_pos (lt_size_of_block? h)]
  · rw [if_neg hjk, if_neg (Ne.symm hjk)]

theorem block_eq_ok_iff {d : Decomposition S} {k : BlockId} {b : Block S} :
    d.block k = .ok b ↔ d.block? k = some b := by
  unfold block
  cases d.block? k <;> simp

theorem block_eq_error {d : Decomposition S} {k : BlockId} (h : d.blocks.size ≤ k) :
    d.block k = .error (.unknownBlock k) := by
  have hnone : d.block? k = none := Array.getElem?_eq_none h
  rw [block, hnone]

namespace Coherent

variable {d : Decomposition S} {k : BlockId} {b : Block S} {t : TaskId}

/-! ### Members -/

theorem isPart_iff_parent (h : d.Coherent) (hb : d.block? k = some b) :
    b.isPart t = true ↔ d.forest.parent t = b.root ∧ t ≠ b.root := by
  have hparts := h.parts_root k b hb
  rw [Block.isPart_iff]
  constructor
  · intro ht
    obtain ⟨hne, -, -, hparent⟩ := h.forest.hangs _ _ _ hparts t ht
    exact ⟨hparent, hne⟩
  · rintro ⟨hparent, hne⟩
    obtain ⟨first, second, hparts', ht⟩ := h.forest.part_of_parent t (by rwa [hparent, ne_comm])
    rw [hparent, hparts] at hparts'
    cases hparts'
    exact ht

/-- The members of a block are three. -/
theorem members_ne (h : d.Coherent) (hb : d.block? k = some b) :
    b.root ≠ b.first ∧ b.root ≠ b.second ∧ b.first ≠ b.second := by
  have hparts := h.parts_root k b hb
  have hhangs := h.forest.hangs _ _ _ hparts
  exact ⟨(hhangs b.first (.inl rfl)).1.symm, (hhangs b.second (.inr rfl)).1.symm,
    h.forest.parts_ne _ _ _ hparts⟩

/-- The head of a block is a task. -/
theorem lt_size_root (h : d.Coherent) (hb : d.block? k = some b) : b.root < d.forest.size :=
  Forest.lt_size_of_parts? (h.parts_root k b hb)

theorem exists_root (h : d.Coherent) (hb : d.block? k = some b) :
    ∃ task, d.forest.task? b.root = some task :=
  Forest.exists_task? (h.lt_size_root hb)

theorem lt_size_of_contains (h : d.Coherent) (hb : d.block? k = some b)
    (ht : b.contains t = true) : t < d.forest.size := by
  rcases (b.contains_iff t).mp ht with rfl | ht
  · exact h.lt_size_root hb
  · exact h.forest.lt_size_of_part (h.parts_root k b hb) ht

/-- The members of a block are tasks. -/
theorem exists_members (h : d.Coherent) (hb : d.block? k = some b) :
    ∃ whole first second, d.forest.task? b.root = some whole ∧
      d.forest.task? b.first = some first ∧ d.forest.task? b.second = some second := by
  have hmember : ∀ t, b.contains t = true → ∃ task, d.forest.task? t = some task := by
    intro t ht
    exact Forest.exists_task? (h.lt_size_of_contains hb ht)
  obtain ⟨whole, hwhole⟩ := h.exists_root hb
  obtain ⟨first, hfirst⟩ := hmember b.first (by simp [Block.contains_iff])
  obtain ⟨second, hsecond⟩ := hmember b.second (by simp [Block.contains_iff])
  exact ⟨whole, first, second, hwhole, hfirst, hsecond⟩

/-! ### The block of a task -/

theorem blockOf?_eq_some_iff (h : d.Coherent) :
    d.blockOf? t = some k ↔ ∃ b, d.block? k = some b ∧ b.root = t := by
  simp only [blockOf?, Array.findIdx?_eq_some_iff_getElem, beq_iff_eq]
  constructor
  · rintro ⟨hk, hroot, -⟩
    exact ⟨_, Array.getElem?_eq_getElem hk, hroot⟩
  · rintro ⟨b, hb, rfl⟩
    obtain ⟨hk, hget⟩ := Array.getElem?_eq_some_iff.mp hb
    -- a block further to the front with the same root would be the same block
    refine ⟨hk, by rw [hget], fun j hj hroot => ?_⟩
    have hj' : j < d.blocks.size := Nat.lt_trans hj hk
    exact absurd (h.root_inj j k _ b (Array.getElem?_eq_getElem hj') hb hroot) (Nat.ne_of_lt hj)

theorem exists_blockOf? (h : d.Coherent) (ht : (d.forest.parts? t).isSome) :
    ∃ k, d.blockOf? t = some k := by
  obtain ⟨k, b, hb, rfl⟩ := h.exists_block t ht
  exact ⟨k, h.blockOf?_eq_some_iff.mpr ⟨b, hb, rfl⟩⟩

theorem lt_size_of_blockOf? (h : d.Coherent) (ht : d.blockOf? t = some k) :
    k < d.blocks.size := by
  obtain ⟨b, hb, -⟩ := h.blockOf?_eq_some_iff.mp ht
  exact lt_size_of_block? hb

/-- If any task of one tree is split, the root is: it is above the part of a block. -/
theorem isSome_parts?_root (h : d.Coherent) (hvalid : d.validate = .ok ())
    (hblocks : 0 < d.blocks.size) : (d.forest.parts? Forest.root).isSome := by
  obtain ⟨b, hb⟩ := exists_block? hblocks
  obtain ⟨-, hne, hlt, -⟩ := h.forest.hangs _ _ _ (h.parts_root _ b hb) b.first (.inl rfl)
  have hline := h.forest.ascent_lineage b.first
  exact h.forest.isSome_parts?_of_mem hline (h.forest.root_mem_of_ascent hvalid hline hlt) hne.symm

/-! ### Above and below -/

theorem mem_withPart_iff (h : d.Coherent) (hb : d.block? k = some b) {j : BlockId} :
    j ∈ d.withPart k b.root ↔
      d.forest.parent b.root ≠ b.root ∧ d.blockOf? (d.forest.parent b.root) = some j := by
  simp only [withPart, List.mem_filter, List.mem_range, Bool.and_eq_true, bne_iff_ne, ne_eq,
    Option.any_eq_true]
  rw [h.blockOf?_eq_some_iff]
  constructor
  · rintro ⟨-, hne, c, hc, hpart⟩
    obtain ⟨hparent, hroot⟩ := (h.isPart_iff_parent hc).mp hpart
    exact ⟨by rwa [hparent, eq_comm], c, hc, hparent.symm⟩
  · rintro ⟨hne, c, hc, hroot⟩
    refine ⟨lt_size_of_block? hc, ?_, c, hc, ?_⟩
    · rintro rfl
      cases hb.symm.trans hc
      exact hne hroot.symm
    · exact (h.isPart_iff_parent hc).mpr ⟨hroot.symm, by rw [hroot]; exact fun heq => hne heq.symm⟩

/-- **There is never more than one block above**, and it is the one that the parent heads. -/
theorem exists_above (h : d.Coherent) (hb : d.block? k = some b) :
    ∃ above, d.above k = .ok above ∧ ∀ j, above = some j ↔
      d.forest.parent b.root ≠ b.root ∧ d.blockOf? (d.forest.parent b.root) = some j := by
  have hmem := fun j => h.mem_withPart_iff (j := j) hb
  have hnodup : (d.withPart k b.root).Nodup := List.nodup_range.filter _
  unfold above
  rw [block_eq_ok_iff.mpr hb]
  -- the numbers that are listed are all equal, and none is listed twice
  match hlist : d.withPart k b.root with
  | [] =>
    refine ⟨none, by simp only [hlist], fun j => iff_of_false (by simp) ?_⟩
    rw [← hmem j, hlist]
    exact List.not_mem_nil
  | [i] =>
    refine ⟨some i, by simp only [hlist], fun j => ?_⟩
    rw [← hmem j, hlist, List.mem_singleton, Option.some.injEq, eq_comm]
  | i :: j :: rest =>
    rw [hlist] at hmem hnodup
    have hi := ((hmem i).mp List.mem_cons_self).2
    have hj := ((hmem j).mp (List.mem_cons_of_mem _ List.mem_cons_self)).2
    obtain rfl : i = j := Option.some.inj (hi.symm.trans hj)
    exact absurd List.mem_cons_self (List.nodup_cons.mp hnodup).1

/-- There is no block above that of a task that hangs nowhere. -/
theorem above_of_top (h : d.Coherent) (hb : d.block? k = some b)
    (htop : d.forest.parent b.root = b.root) : d.above k = .ok none := by
  obtain ⟨above, habove, hiff⟩ := h.exists_above hb
  have hnone : above = none := by
    rw [Option.eq_none_iff_forall_ne_some]
    exact fun j hj => ((hiff j).mp hj).1 htop
  rw [habove, hnone]

/-- Above the block of a task that hangs under another is that of the other: a parent is split, so
it heads a block. -/
theorem exists_above_of_parent_ne (h : d.Coherent) (hb : d.block? k = some b)
    (hup : d.forest.parent b.root ≠ b.root) :
    ∃ j c, d.above k = .ok (some j) ∧ d.block? j = some c ∧
      c.root = d.forest.parent b.root := by
  obtain ⟨first, second, hparts, -⟩ := h.forest.part_of_parent b.root hup
  obtain ⟨j, hj⟩ := h.exists_blockOf? (t := d.forest.parent b.root) (by rw [hparts]; rfl)
  obtain ⟨c, hc, hhead⟩ := h.blockOf?_eq_some_iff.mp hj
  obtain ⟨above, habove, hiff⟩ := h.exists_above hb
  obtain rfl : above = some j := (hiff j).mpr ⟨hup, hj⟩
  exact ⟨j, c, habove, hc, hhead⟩

theorem lt_size_of_above (h : d.Coherent) (hb : d.block? k = some b) {j : BlockId}
    (hj : d.above k = .ok (some j)) : j < d.blocks.size := by
  obtain ⟨above, habove, hiff⟩ := h.exists_above hb
  cases habove.symm.trans hj
  exact h.lt_size_of_blockOf? ((hiff j).mp rfl).2

/-- The block below a split part is the one that the part heads. -/
theorem exists_below (h : d.Coherent) (hb : d.block? k = some b) (hpart : b.isPart t = true)
    (hsplit : (d.forest.parts? t).isSome) :
    ∃ j, d.below k t = .ok j ∧ d.blockOf? t = some j := by
  obtain ⟨j, hj⟩ := h.exists_blockOf? hsplit
  refine ⟨j, ?_, hj⟩
  simp only [below, block_eq_ok_iff.mpr hb, hpart, if_true, hj]

/-! ### Changes that keep coherence -/

/-- The focus may go to any block. -/
theorem of_focus (h : d.Coherent) {e : Decomposition S} (hforest : e.forest = d.forest)
    (hblocks : e.blocks = d.blocks) (hfocus : e.focus = some k) (hk : k < d.blocks.size) :
    e.Coherent := by
  obtain ⟨forest, blocks, focus, curve, stay⟩ := e
  subst hforest hblocks hfocus
  refine ⟨h.forest, h.size_pos, h.parts_root, h.root_inj, h.exists_block, ?_, ?_, h.sound,
    h.lastAborted_mem⟩
  · exact iff_of_false (by simp) (Nat.ne_of_gt (Nat.zero_lt_of_lt hk))
  · rintro j hj
    cases hj
    exact hk

/-- The tasks may change in their history. -/
theorem of_forest (h : d.Coherent) {f : Forest S} (hout : f.outline = d.forest.outline)
    (haborted : ∀ t task, f.task? t = some task → ∀ u, task.lastAborted = some u →
      ∃ first second, task.parts = some (first, second) ∧ (u = first ∨ u = second)) :
    { d with forest := f }.Coherent where
  forest := h.forest.of_outline hout
  size_pos := by
    rw [Forest.size_eq_of_outline hout]
    exact h.size_pos
  parts_root := by
    rw [Forest.parts?_eq_of_outline hout]
    exact h.parts_root
  root_inj := h.root_inj
  exists_block := by
    rw [Forest.parts?_eq_of_outline hout]
    exact h.exists_block
  focus_eq_none_iff := h.focus_eq_none_iff
  focus_lt := h.focus_lt
  sound := h.sound
  lastAborted_mem := haborted

/-- A block may change in what it remembers. -/
theorem of_block (h : d.Coherent) (hb : d.block? k = some b) {c : Block S}
    (hroot : c.root = b.root) (hfirst : c.first = b.first) (hsecond : c.second = b.second)
    (hsound : c.Sound) :
    { d with blocks := d.blocks.setIfInBounds k c }.Coherent := by
  have hblock := block?_setIfInBounds hb c
  -- the members of every block are those of a block from before
  have hmembers : ∀ j b', ({ d with blocks := d.blocks.setIfInBounds k c } :
      Decomposition S).block? j = some b' → ∃ old, d.block? j = some old ∧
        b'.root = old.root ∧ b'.first = old.first ∧ b'.second = old.second := by
    intro j b' hj
    rw [hblock] at hj
    split at hj
    · next hjk =>
      cases hj
      exact ⟨b, hjk ▸ hb, hroot, hfirst, hsecond⟩
    · exact ⟨b', hj, rfl, rfl, rfl⟩
  constructor
  case forest => exact h.forest
  case size_pos => exact h.size_pos
  case parts_root =>
    intro j b' hj
    obtain ⟨old, hold, hr, hf, hs⟩ := hmembers j b' hj
    rw [hr, hf, hs]
    exact h.parts_root j old hold
  case root_inj =>
    intro i j b₁ b₂ hi hj hr
    obtain ⟨old₁, hold₁, hr₁, -⟩ := hmembers i b₁ hi
    obtain ⟨old₂, hold₂, hr₂, -⟩ := hmembers j b₂ hj
    exact h.root_inj i j old₁ old₂ hold₁ hold₂ (hr₁.symm.trans (hr.trans hr₂))
  case exists_block =>
    intro t ht
    obtain ⟨j, old, hold, hr⟩ := h.exists_block t ht
    by_cases hjk : j = k
    · subst hjk
      cases hb.symm.trans hold
      exact ⟨j, c, by rw [hblock, if_pos rfl], hroot.trans hr⟩
    · exact ⟨j, old, by rw [hblock, if_neg hjk, hold], hr⟩
  case focus_eq_none_iff =>
    rw [Array.size_setIfInBounds]
    exact h.focus_eq_none_iff
  case focus_lt =>
    rw [Array.size_setIfInBounds]
    exact h.focus_lt
  case sound =>
    intro j b' hj
    rw [hblock] at hj
    split at hj
    · cases hj
      exact hsound
    · exact h.sound j b' hj
  case lastAborted_mem => exact h.lastAborted_mem

end Coherent

end Decomposition

end TaskAllocation
