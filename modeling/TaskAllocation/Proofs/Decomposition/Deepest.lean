import Mathlib.Data.List.Induction
import TaskAllocation.Proofs.Decomposition.Level
import TaskAllocation.Proofs.Exact
import TaskAllocation.Proofs.Forest.Descent

/-!
# Where the focus starts

The policies name the block of the root, any block, or the block deepest down.  The last is
looked for along the walk from the root: of the tasks that are met, those that head no block are
passed over, and of the others the first wins that lies deeper than all before it.  In one tree
the walk meets every task, so that no block is missed, and the depth of a head is the level of
its block.

No block lies below the deepest one, and so both of its parts are leaves.

## Main definitions

* `Forest.Precedes` — a task is met before another on the walk from the root.
* `Decomposition.Leads` — what is the deepest block after some tasks have been looked at.
* `Decomposition.IsFirstDeepest` — a block lies as deep as any, and deeper than those before it.

## Main results

* `Decomposition.leads_foldl` — looking through tasks in order finds the first deepest block.
* `Decomposition.Coherent.exists_isFirstDeepest`, `isFirstDeepest_unique` — in one tree there is
  one such block.
* `Decomposition.initFocus_exact` — **where the focus starts.**
-/

namespace TaskAllocation

namespace Forest

variable {S : Type} {f : Forest S} {t u : TaskId}

/-- Task `t` is met before task `u` on the walk from the root. -/
def Precedes (f : Forest S) (t u : TaskId) : Prop :=
  ∃ front back, f.preorder = front ++ u :: back ∧ t ∈ front

/-- Of two tasks that are met one is met first. -/
theorem precedes_or_precedes (ht : t ∈ f.preorder) (hu : u ∈ f.preorder) (hne : t ≠ u) :
    f.Precedes t u ∨ f.Precedes u t := by
  obtain ⟨front, back, hsplit⟩ := List.append_of_mem hu
  rw [hsplit, List.mem_append, List.mem_cons] at ht
  rcases ht with hfront | rfl | hback
  · exact .inl ⟨front, back, hsplit, hfront⟩
  · exact absurd rfl hne
  · obtain ⟨middle, rest, rfl⟩ := List.append_of_mem hback
    exact .inr ⟨front ++ u :: middle, rest, by rw [hsplit]; simp, by simp⟩

/-- No task is met twice, so that only one part of the walk comes before a task. -/
theorem Precedes.mem_front (h : f.Precedes t u) (hnodup : f.preorder.Nodup)
    {front back : List TaskId} (hsplit : f.preorder = front ++ u :: back) : t ∈ front := by
  obtain ⟨front', back', hsplit', ht⟩ := h
  rw [hsplit] at hsplit' hnodup
  have hclear : u ∉ front ∧ u ∉ back := by
    rw [List.nodup_middle, List.nodup_cons, List.mem_append, not_or] at hnodup
    exact hnodup.1
  obtain ⟨rfl, -, -⟩ := (List.append_cons_inj_of_notMem hclear.1 hclear.2).mp hsplit'
  exact ht

end Forest

namespace Decomposition

variable {S : Type} {d : Decomposition S} {j k : BlockId} {b c : Block S} {t : TaskId}
  {m n : Nat}

/-! ### Looking through tasks in order -/

/-- Task `t` heads a block, and is taken to lie at depth `n`. -/
def HeadsAt (d : Decomposition S) (t : TaskId) (n : Nat) : Prop :=
  (d.blockOf? t).isSome ∧ (d.forest.depth t).toOption.getD 0 = n

/-- After the tasks of `order` have been looked at, `best` is the deepest block and its level:
none if none of them heads one, and else the first of the deepest. -/
inductive Leads (d : Decomposition S) (order : List TaskId) : Option (BlockId × Nat) → Prop
  /-- There has been no block. -/
  | none (hnone : ∀ u ∈ order, ∀ m, ¬ d.HeadsAt u m) : Leads d order none
  /-- Those before lie less deep, and those after no deeper. -/
  | some {k : BlockId} {n : Nat} {front back : List TaskId} {t : TaskId}
      (horder : order = front ++ t :: back) (hblock : d.blockOf? t = some k)
      (hdepth : (d.forest.depth t).toOption.getD 0 = n)
      (hfront : ∀ u ∈ front, ∀ m, d.HeadsAt u m → m < n)
      (hback : ∀ u ∈ back, ∀ m, d.HeadsAt u m → m ≤ n) : Leads d order (some (k, n))

theorem deeper_of_not_headsAt (hnone : ∀ m, ¬ d.HeadsAt t m) (best : Option (BlockId × Nat)) :
    d.deeper best t = best := by
  unfold deeper
  split
  · next k hk => exact absurd ⟨by rw [hk]; rfl, rfl⟩ (hnone _)
  · rfl

theorem deeper_none (hblock : d.blockOf? t = some k)
    (hdepth : (d.forest.depth t).toOption.getD 0 = n) : d.deeper none t = some (k, n) := by
  simp only [deeper, hblock, hdepth]

theorem deeper_some (hblock : d.blockOf? t = some k)
    (hdepth : (d.forest.depth t).toOption.getD 0 = n) (j : BlockId) (m : Nat) :
    d.deeper (some (j, m)) t = if m < n then some (k, n) else some (j, m) := by
  simp only [deeper, hblock, hdepth]

theorem HeadsAt.unique (h : d.HeadsAt t m) (h' : d.HeadsAt t n) : m = n :=
  h.2.symm.trans h'.2

/-- No task that has been looked at heads a block that lies deeper than the deepest. -/
theorem Leads.le {order : List TaskId} (h : d.Leads order (.some (k, n))) {u : TaskId}
    (hu : u ∈ order) (hm : d.HeadsAt u m) : m ≤ n := by
  cases h with
  | some horder hblock hdepth hfront hback =>
    rw [horder, List.mem_append, List.mem_cons] at hu
    rcases hu with hu | rfl | hu
    · exact Nat.le_of_lt (hfront u hu m hm)
    · rw [hm.unique ⟨hm.1, hdepth⟩]
    · exact hback u hu m hm

/-- A task that heads no deeper block changes nothing. -/
theorem Leads.later {order : List TaskId} (h : d.Leads order (.some (k, n)))
    (ht : ∀ m, d.HeadsAt t m → m ≤ n) : d.Leads (order ++ [t]) (.some (k, n)) := by
  cases h with
  | @some _ _ front back u horder hblock hdepth hfront hback =>
    have hlonger : order ++ [t] = front ++ u :: (back ++ [t]) := by
      rw [horder, List.append_assoc, List.cons_append]
    refine .some hlonger hblock hdepth hfront ?_
    intro v hv
    rcases List.mem_append.mp hv with hv | hv
    · exact hback v hv
    · rw [List.mem_singleton.mp hv]
      exact ht

/-- Looking at one more task. -/
theorem Leads.step {order : List TaskId} {best : Option (BlockId × Nat)}
    (h : d.Leads order best) (t : TaskId) : d.Leads (order ++ [t]) (d.deeper best t) := by
  by_cases hheads : ∃ n, d.HeadsAt t n
  · obtain ⟨n, hheads⟩ := hheads
    obtain ⟨k, hk⟩ := Option.isSome_iff_exists.mp hheads.1
    rcases best with _ | ⟨j, m⟩
    · cases h with
      | none hnone =>
        rw [deeper_none hk hheads.2]
        refine .some rfl hk hheads.2 ?_ (by simp)
        intro u hu m hm
        exact absurd hm (hnone u hu m)
    · rw [deeper_some hk hheads.2]
      split
      · next hlt =>
        -- the task lies deeper than the best so far, and so than all before it
        refine .some rfl hk hheads.2 ?_ (by simp)
        intro u hu i hi
        exact Nat.lt_of_le_of_lt (h.le hu hi) hlt
      · next hle =>
        refine h.later ?_
        intro i hi
        rw [hi.unique hheads]
        exact Nat.not_lt.mp hle
  · rw [not_exists] at hheads
    rw [deeper_of_not_headsAt hheads]
    rcases best with _ | ⟨j, m⟩
    · cases h with
      | none hnone =>
        refine .none ?_
        intro u hu
        rcases List.mem_append.mp hu with hu | hu
        · exact hnone u hu
        · rw [List.mem_singleton.mp hu]
          exact hheads
    · refine h.later ?_
      intro m hm
      exact absurd hm (hheads m)

/-- **Looking through tasks in order finds the first deepest block.** -/
theorem leads_foldl (d : Decomposition S) (order : List TaskId) :
    d.Leads order (order.foldl d.deeper none) := by
  induction order using List.reverseRecOn with
  | nil => exact .none (by simp)
  | append_singleton order t ih =>
    rw [List.foldl_append]
    exact ih.step t

/-! ### The first deepest block -/

/-- Block `k` lies at level `n`, which is as deep as any block, and deeper than the blocks whose
heads are met before its own. -/
structure IsFirstDeepest (d : Decomposition S) (k : BlockId) (b : Block S) (n : Nat) : Prop where
  /-- It is a block. -/
  block : d.block? k = some b
  /-- It lies at this level. -/
  level : d.level k = .ok n
  /-- No block lies deeper. -/
  le : ∀ j, j < d.blocks.size → ∃ m, d.level j = .ok m ∧ m ≤ n
  /-- Those that are met before it lie less deep. -/
  lt : ∀ j c, d.block? j = some c → d.forest.Precedes c.root b.root →
    ∃ m, d.level j = .ok m ∧ m < n

theorem IsFirstDeepest.le_of_level (h : d.IsFirstDeepest k b n) (hc : d.block? j = some c)
    (hlevel : d.level j = .ok m) : m ≤ n := by
  obtain ⟨i, hi, hle⟩ := h.le j (lt_size_of_block? hc)
  cases hlevel.symm.trans hi
  exact hle

theorem IsFirstDeepest.not_precedes (h : d.IsFirstDeepest k b n) (hc : d.IsFirstDeepest j c m) :
    ¬ d.forest.Precedes c.root b.root := by
  intro hbefore
  obtain ⟨i, hi, hlt⟩ := h.lt j c hc.block hbefore
  cases hc.level.symm.trans hi
  have hle := hc.le_of_level h.block h.level
  omega

namespace Coherent

/-- In one tree the walk from the root meets the heads of all blocks. -/
theorem root_mem_preorder (h : d.Coherent) (hvalid : d.validate = .ok ())
    (hb : d.block? k = some b) : b.root ∈ d.forest.preorder := by
  have hlt := h.lt_size_root hb
  refine h.forest.mem_preorder_iff.mpr ⟨hlt, ?_⟩
  exact h.forest.root_mem_of_ascent hvalid (h.forest.ascent_lineage b.root) hlt

/-- In one tree no more than one block is the first deepest. -/
theorem isFirstDeepest_unique (h : d.Coherent) (hvalid : d.validate = .ok ())
    (hb : d.IsFirstDeepest k b n) (hc : d.IsFirstDeepest j c m) : j = k := by
  by_contra hne
  have hroot : c.root ≠ b.root := by
    intro heq
    exact hne (h.root_inj j k c b hc.block hb.block heq)
  rcases Forest.precedes_or_precedes (h.root_mem_preorder hvalid hc.block)
    (h.root_mem_preorder hvalid hb.block) hroot with hbefore | hbefore
  · exact hb.not_precedes hc hbefore
  · exact hc.not_precedes hb hbefore

/-- The head of a block heads a block, at the level of that block. -/
theorem headsAt_root (h : d.Coherent) (hb : d.block? k = some b) :
    ∃ n, d.level k = .ok n ∧ d.HeadsAt b.root n := by
  obtain ⟨n, hn⟩ := h.exists_level hb
  have hof : d.blockOf? b.root = some k := h.blockOf?_eq_some_iff.mpr ⟨b, hb, rfl⟩
  refine ⟨n, hn, by rw [hof]; rfl, ?_⟩
  rw [← h.level_eq_depth hb, hn]
  rfl

/-- **What is found along the walk is the first deepest block** of one tree that has blocks. -/
theorem exists_isFirstDeepest (h : d.Coherent) (hvalid : d.validate = .ok ())
    (hblocks : 0 < d.blocks.size) :
    ∃ k b n, d.deepestBlock? = some k ∧ d.IsFirstDeepest k b n := by
  have hleads := d.leads_foldl d.forest.preorder
  generalize hbest : d.forest.preorder.foldl d.deeper none = best at hleads
  rcases best with _ | ⟨k, n⟩
  · cases hleads with
    | none hnone =>
      -- the first block has a head, and that head is met
      obtain ⟨b, hb⟩ := exists_block? hblocks
      obtain ⟨n, -, hheads⟩ := h.headsAt_root hb
      exact absurd hheads (hnone b.root (h.root_mem_preorder hvalid hb) n)
  · have hle : ∀ u ∈ d.forest.preorder, ∀ m, d.HeadsAt u m → m ≤ n := by
      intro u hu m hm
      exact hleads.le hu hm
    cases hleads with
    | @some _ _ front back t horder hblock hdepth hfront hback =>
      obtain ⟨b, hb, rfl⟩ := h.blockOf?_eq_some_iff.mp hblock
      refine ⟨k, b, n, by rw [deepestBlock?, hbest]; rfl, hb, ?_, ?_, ?_⟩
      · obtain ⟨m, hm, hheads⟩ := h.headsAt_root hb
        rwa [← hheads.unique ⟨hheads.1, hdepth⟩]
      · intro j hj
        obtain ⟨c, hc⟩ := exists_block? hj
        obtain ⟨m, hm, hheads⟩ := h.headsAt_root hc
        exact ⟨m, hm, hle c.root (h.root_mem_preorder hvalid hc) m hheads⟩
      · intro j c hc hbefore
        obtain ⟨m, hm, hheads⟩ := h.headsAt_root hc
        have hmet := hbefore.mem_front h.forest.nodup_preorder horder
        exact ⟨m, hm, hfront c.root hmet m hheads⟩

/-- The parts of a deepest block are leaves: a part that is split heads a block one level
deeper. -/
theorem isLeaf_of_isFirstDeepest (h : d.Coherent) (hb : d.IsFirstDeepest k b n)
    (hpart : b.isPart t = true) : ∃ task, d.forest.task? t = some task ∧ task.isLeaf = true := by
  have hlt := h.forest.lt_size_of_part (h.parts_root k b hb.block) ((b.isPart_iff t).mp hpart)
  obtain ⟨task, htask⟩ := Forest.exists_task? hlt
  refine ⟨task, htask, ?_⟩
  by_contra hsplit
  have hparts : (d.forest.parts? t).isSome := by
    rw [Forest.parts?_of_task? htask]
    simpa [Task.isLeaf, Option.isSome_iff_ne_none] using hsplit
  obtain ⟨j, hj⟩ := h.exists_blockOf? hparts
  obtain ⟨c, hc, -⟩ := h.blockOf?_eq_some_iff.mp hj
  obtain ⟨m, hm, hdeeper⟩ := h.exists_level_of_above hc (h.above_of_blockOf? hb.block hpart hj)
  cases hb.level.symm.trans hm
  have hle := hb.le_of_level hc hdeeper
  omega

end Coherent

/-! ### The policies -/

section Start

variable {R : Type} [IndexSource R] (hblocks : 0 < d.blocks.size)

include hblocks

/-- With a block there is something to do. -/
theorem isEmpty_ne_true : ¬ d.blocks.isEmpty = true := by
  simpa using Array.size_pos_iff.mp hblocks

theorem initFocus_root (hk : d.rootBlock? = some k) (prior : Option BlockId) (source : R) :
    ({ d with focus := prior } : Decomposition S).initFocus .root source =
      ({ d with focus := some k }, source) := by
  refine (if_neg (isEmpty_ne_true hblocks)).trans ?_
  show (({ d with focus := prior } : Decomposition S).withFocus d.rootBlock?, source) = _
  rw [hk]
  rfl

theorem initFocus_deepest (hk : d.deepestBlock? = some k) (prior : Option BlockId) (source : R) :
    ({ d with focus := prior } : Decomposition S).initFocus .deepest source =
      ({ d with focus := some k }, source) := by
  refine (if_neg (isEmpty_ne_true hblocks)).trans ?_
  show (({ d with focus := prior } : Decomposition S).withFocus d.deepestBlock?, source) = _
  rw [hk]
  rfl

theorem initFocus_random (prior : Option BlockId) (source : R) :
    ({ d with focus := prior } : Decomposition S).initFocus .random source =
      ({ d with focus := some (IndexSource.below d.blocks.size source).1 },
        (IndexSource.below d.blocks.size source).2) :=
  if_neg (isEmpty_ne_true hblocks)

end Start

variable {R R₀ : Type} [Scalar S] [IndexSource R] [IndexSource R₀] [UnitSource R₀ S]

/-- **Where the focus starts**, in one tree with a block, however it was built and wherever the
focus has been before.  It is given to the block of the root, to the one block that is the first
deepest, or to the block of the number that is drawn below the number of blocks; nothing else is
written, and nothing else is drawn.  The parts of the deepest block are leaves. -/
theorem initFocus_exact (root : TaskSpec S) (curve : Logistic S) (calls : List (Call S R₀))
    (hd : (single root curve).run calls = d) (hvalid : d.validate = .ok ())
    (hblocks : 0 < d.blocks.size) (prior : Option BlockId) (source : R) :
    (∃ k b, d.block? k = some b ∧ b.root = Forest.root ∧
        ({ d with focus := prior } : Decomposition S).initFocus .root source =
          ({ d with focus := some k }, source)) ∧
      (∃ k b n, d.IsFirstDeepest k b n ∧ (∀ j c m, d.IsFirstDeepest j c m → j = k) ∧
        (∀ t, b.isPart t = true → ∃ task, d.forest.task? t = some task ∧ task.isLeaf = true) ∧
        ({ d with focus := prior } : Decomposition S).initFocus .deepest source =
          ({ d with focus := some k }, source)) ∧
      ∃ k rest, IndexSource.below d.blocks.size source = (k, rest) ∧ k < d.blocks.size ∧
        ({ d with focus := prior } : Decomposition S).initFocus .random source =
          ({ d with focus := some k }, rest) := by
  have h : d.Coherent := hd ▸ Coherent.run (.single root curve) calls
  refine ⟨?_, ?_, ?_⟩
  · obtain ⟨k, hk⟩ := h.exists_blockOf? (h.isSome_parts?_root hvalid hblocks)
    obtain ⟨b, hb, hroot⟩ := h.blockOf?_eq_some_iff.mp hk
    exact ⟨k, b, hb, hroot, initFocus_root hblocks hk prior source⟩
  · obtain ⟨k, b, n, hk, hfirst⟩ := h.exists_isFirstDeepest hvalid hblocks
    exact ⟨k, b, n, hfirst, fun j c m hc => h.isFirstDeepest_unique hvalid hfirst hc,
      fun t => h.isLeaf_of_isFirstDeepest hfirst, initFocus_deepest hblocks hk prior source⟩
  · exact ⟨_, _, rfl, IndexSource.below_lt source hblocks, initFocus_random hblocks prior source⟩

section Example

attribute [local instance] Scalar.rational

/-- Calls that declare seven tasks and split three of them, the second part of the root before the
first. -/
def wideCalls : List (Call ℚ ScriptedWords) := [
  .add ⟨"left", 0.5, 2⟩, .add ⟨"right", 0.5, 2⟩, .add ⟨"low", 0.5, 2⟩, .add ⟨"high", 0.5, 1⟩,
  .add ⟨"fetch", 0.5, 1⟩, .add ⟨"carry", 0.5, 1⟩,
  .split 0 [1, 2], .split 2 [5, 6], .split 1 [3, 4]]

/-- The tasks that have been split so. -/
def wideTree : Decomposition ℚ := (single ⟨"root", 0.5, 4⟩ ⟨1.5, 1.0, 1.0⟩).run wideCalls

/-- Of two blocks at one level the focus goes to the one that is met first, not to the one that was
opened first. -/
theorem initFocus_exact_wide :
    ∃ b n, wideTree.IsFirstDeepest 2 b n ∧
      wideTree.initFocus .deepest (⟨[]⟩ : ScriptedWords) =
        ({ wideTree with focus := some 2 }, ⟨[]⟩) := by
  obtain ⟨-, ⟨k, b, n, hfirst, -, -, hinit⟩, -⟩ :=
    initFocus_exact ⟨"root", 0.5, 4⟩ ⟨1.5, 1.0, 1.0⟩ wideCalls (show _ = wideTree from rfl)
      (by decide +kernel) (by decide +kernel) wideTree.focus (⟨[]⟩ : ScriptedWords)
  have hfocus : (wideTree.initFocus .deepest (⟨[]⟩ : ScriptedWords)).1.focus = some 2 := by
    decide +kernel
  have hsame := congrArg (fun r => r.1.focus) hinit
  cases hfocus.symm.trans hsame
  exact ⟨b, n, hfirst, hinit⟩

end Example

end Decomposition

end TaskAllocation
