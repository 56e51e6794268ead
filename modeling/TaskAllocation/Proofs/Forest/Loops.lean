import TaskAllocation.Proofs.Forest.Descent

/-!
# Loops over a forest

Whether a task lies above another, how many lie above it, and what hangs under the root: each
is found out by a loop that follows links from task to task and keeps no count of its passes.
Under a ring of parents, or of parts, it would go on for ever.  The loops are written here as
they are, without a bound, and `Leaves` tells when one of them is left.

In a coherent forest they all are.  Every step upwards comes from one of two parts, so that
there are two tasks for every step, and no task gets on the stack of the walk twice.  What the
loops are left with is what lineages, depths and the bounded walk say.

A split searches for a ring before it makes its links, in a forest that may be in many pieces.
That forest is coherent because the splits before it have searched in the same way.

## Main definitions

* `Pass`, `Leaves` — a pass through the body of a loop, and the loops that are left.
* `Forest.searchPass`, `Forest.depthPass`, `Forest.walkPass` — the bodies of the three loops.

## Main results

* `Forest.Coherent.two_mul_length_lineage_lt` — a way up takes fewer than half as many steps as
  there are tasks.
* `Forest.Coherent.exists_leaves_search`, `Forest.Coherent.exists_leaves_depth`,
  `Forest.Coherent.leaves_walk` — **the loops are left, and soon.**
* `Forest.Coherent.checkPart_eq_cycle_iff` — when a part is refused because of a ring.
-/

namespace TaskAllocation

/-! ### Loops -/

/-- What a pass through the body of a loop comes to. -/
inductive Pass (σ ρ : Type) where
  /-- The loop is left with a result. -/
  | leave (result : ρ)
  /-- The loop goes on in another state. -/
  | again (state : σ)

/-- `Leaves body s n r` says that the loop that is entered in state `s` goes on `n` times and is
then left with `r`.  Nothing bounds a loop: one that goes on for ever is never left, and neither is
one whose body comes to nothing because it looks up what is not there. -/
inductive Leaves {σ ρ : Type} (body : σ → Option (Pass σ ρ)) : σ → Nat → ρ → Prop
  /-- The loop is left at once. -/
  | now {s : σ} {r : ρ} (h : body s = some (.leave r)) : Leaves body s 0 r
  /-- The loop goes on, and is left later. -/
  | later {s s' : σ} {n : Nat} {r : ρ} (h : body s = some (.again s'))
      (rest : Leaves body s' n r) : Leaves body s (n + 1) r

/-- A loop is left in one way only. -/
theorem Leaves.unique {σ ρ : Type} {body : σ → Option (Pass σ ρ)} {s : σ} {n m : Nat} {r q : ρ}
    (h : Leaves body s n r) (h' : Leaves body s m q) : n = m ∧ r = q := by
  induction h generalizing m with
  | now hleave =>
    cases h' with
    | now hleave' =>
      cases hleave.symm.trans hleave'
      exact ⟨rfl, rfl⟩
    | later hagain _ => cases hleave.symm.trans hagain
  | later hagain _ ih =>
    cases h' with
    | now hleave => cases hagain.symm.trans hleave
    | later hagain' rest =>
      cases hagain.symm.trans hagain'
      obtain ⟨rfl, rfl⟩ := ih rest
      exact ⟨rfl, rfl⟩

namespace Forest

variable {S : Type} {f : Forest S} {t u above : TaskId} {task : Task S} {line order : List TaskId}

/-! ### The bodies -/

/-- One pass of the search for `above`: the task that has been reached may be it, and may be the
last; if not, the search goes on from its parent. -/
def searchPass (f : Forest S) (above t : TaskId) : Option (Pass TaskId Bool) :=
  if t = above then some (.leave true)
  else (f.task? t).map fun task =>
    if task.parent = t then .leave false else .again task.parent

/-- One pass of the count of the tasks above: as long as the task that has been reached hangs
under another, that one is looked up and counted. -/
def depthPass (f : Forest S) : Task S × Nat → Option (Pass (Task S × Nat) Nat)
  | (task, count) =>
    if task.hasParent then (f.task? task.parent).map fun next => .again (next, count + 1)
    else some (.leave count)

/-- One pass of the walk: the task on top of the stack is taken off and noted, and its parts are
put there, the first on top. -/
def walkPass (f : Forest S) :
    List TaskId × List TaskId → Option (Pass (List TaskId × List TaskId) (List TaskId))
  | ([], met) => some (.leave met)
  | (t :: stack, met) => (f.task? t).map fun task =>
    match task.parts with
    | some (first, second) => .again (first :: second :: stack, met ++ [task.id])
    | none => .again (stack, met ++ [task.id])

theorem searchPass_self (f : Forest S) (t : TaskId) : f.searchPass t t = some (.leave true) :=
  if_pos rfl

theorem searchPass_of_top (htask : f.task? t = some task) (hne : t ≠ above)
    (htop : f.parent t = t) : f.searchPass above t = some (.leave false) := by
  rw [parent_of_task? htask] at htop
  simp [searchPass, hne, htask, htop]

theorem searchPass_of_parent_ne (htask : f.task? t = some task) (hne : t ≠ above)
    (hup : f.parent t ≠ t) : f.searchPass above t = some (.again (f.parent t)) := by
  rw [parent_of_task? htask] at hup ⊢
  simp [searchPass, hne, htask, hup]

/-! ### The length of a way up -/

/-- **For every step upwards within a descent there are two tasks in it**: the one that the step
comes from, and the other part next to it. -/
theorem Descent.two_mul_length_lineage_lt (h : f.Coherent) (hd : f.Descent t order)
    (hu : u ∈ order) :
    2 * (f.lineage u).length < order.length + 2 * (f.lineage t).length := by
  induction hd with
  | whole _ =>
    rw [List.mem_singleton.mp hu, List.length_singleton]
    omega
  | @split t first second left right hparts hleft hright ihleft ihright =>
    -- neither part is missing from what hangs under it
    have hfirst := (hleft.mem_iff h first).mpr (h.ascent_lineage first).mem_self
    have hsecond := (hright.mem_iff h second).mpr (h.ascent_lineage second).mem_self
    have hposleft := List.length_pos_of_mem hfirst
    have hposright := List.length_pos_of_mem hsecond
    rw [h.lineage_of_part hparts (.inl rfl), List.length_cons] at ihleft
    rw [h.lineage_of_part hparts (.inr rfl), List.length_cons] at ihright
    rw [List.length_cons, List.length_append]
    rcases List.mem_cons.mp hu with rfl | hu
    · omega
    rcases List.mem_append.mp hu with hu | hu
    · have := ihleft hu
      omega
    · have := ihright hu
      omega

namespace Coherent

/-- **A way up takes fewer than half as many steps as there are tasks.** -/
theorem two_mul_length_lineage_lt (h : f.Coherent) (ht : t < f.size) :
    2 * (f.lineage t).length < f.size + 2 := by
  have hline := h.ascent_lineage t
  -- the way up is a way within the descent of its last task
  obtain ⟨k, -, htop⟩ := hline.exists_iterate
  have hmem : f.parent^[k] t ∈ f.lineage t := h.mem_lineage_iff.mpr ⟨k, rfl⟩
  have hlt := hline.lt_size_of_mem h.parent_lt ht hmem
  obtain ⟨order, hd⟩ := h.exists_descent hlt
  have hle := hd.length_le_size h hlt
  have hway := hd.two_mul_length_lineage_lt h ((hd.mem_iff h t).mpr hmem)
  rw [h.lineage_of_top htop, List.length_singleton] at hway
  omega

end Coherent

/-! ### Searching upwards -/

/-- The search follows the way up, and finds what is on it. -/
theorem Ascent.exists_leaves_search (hrange : ∀ t, t < f.size → f.parent t < f.size)
    (hline : f.Ascent t line) (ht : t < f.size) (above : TaskId) :
    ∃ n, n < line.length ∧ Leaves (f.searchPass above) t n (line.contains above) := by
  induction hline with
  | @top t htop =>
    obtain ⟨task, htask⟩ := exists_task? ht
    refine ⟨0, Nat.one_pos, .now ?_⟩
    by_cases hfound : t = above
    · subst hfound
      rw [searchPass_self, List.contains_iff_mem.mpr (List.mem_singleton_self t)]
    · rw [searchPass_of_top htask hfound htop]
      simp [Ne.symm hfound]
  | @step t line hup rest ih =>
    obtain ⟨task, htask⟩ := exists_task? ht
    by_cases hfound : t = above
    · subst hfound
      refine ⟨0, Nat.succ_pos _, .now ?_⟩
      rw [searchPass_self, List.contains_iff_mem.mpr List.mem_cons_self]
    · obtain ⟨n, hn, hrest⟩ := ih (hrange t ht)
      have hsame : (t :: line).contains above = line.contains above := by
        simp [Ne.symm hfound]
      refine ⟨n + 1, Nat.succ_lt_succ hn, ?_⟩
      rw [hsame]
      exact .later (searchPass_of_parent_ne htask hfound hup) hrest

namespace Coherent

/-- **The search upwards is left**, with the answer whether the task lies above. -/
theorem exists_leaves_search (h : f.Coherent) (ht : t < f.size) (above : TaskId) :
    ∃ n, 2 * n < f.size ∧ Leaves (f.searchPass above) t n (f.isAncestor above t) := by
  obtain ⟨n, hn, hleaves⟩ := (h.ascent_lineage t).exists_leaves_search h.parent_lt ht above
  have hlength := h.two_mul_length_lineage_lt ht
  exact ⟨n, by omega, hleaves⟩

/-- A task lies above another if steps from parent to parent lead to it, or if it is the same. -/
theorem isAncestor_iff (h : f.Coherent) :
    f.isAncestor above t = true ↔ ∃ n, f.parent^[n] t = above := by
  rw [isAncestor, List.contains_iff_mem, h.mem_lineage_iff]

/-- **When a part is refused because of a ring**: when nothing else is amiss with it, but it is
the root or is met on the way up from the task that it is to hang under. -/
theorem checkPart_eq_cycle_iff (h : f.Coherent) {parent : TaskId} :
    f.checkPart parent t = .error (.cycle parent t) ↔
      t ≠ parent ∧ (∃ task, f.task? t = some task ∧ task.hasParent = false) ∧
        (t = root ∨ ∃ n, f.parent^[n] parent = t) := by
  rw [← h.isAncestor_iff]
  unfold checkPart
  split
  · next hself => exact iff_of_false (by simp) fun hring => hring.1 hself
  next hself =>
    cases htask : f.task? t with
    | none =>
      rw [Forest.task, htask]
      exact iff_of_false (by simp) fun ⟨_, ⟨_, hsome, _⟩, _⟩ => nomatch hsome
    | some task =>
      rw [task_eq_ok_iff.mpr htask]
      dsimp only
      split
      · next hhangs =>
        refine iff_of_false (by simp) ?_
        rintro ⟨-, ⟨_, hsome, hfree⟩, -⟩
        cases hsome
        rw [hhangs] at hfree
        cases hfree
      next hhangs =>
        have hfree : task.hasParent = false := by simpa using hhangs
        split
        · next hring => exact iff_of_true rfl ⟨hself, ⟨task, rfl, hfree⟩, hring⟩
        · next hring => exact iff_of_false (by simp) fun hcycle => hring hcycle.2.2

end Coherent

/-! ### Counting upwards -/

/-- The count takes one pass for every step of the way up. -/
theorem Ascent.exists_leaves_depth (h : f.Coherent) (hline : f.Ascent t line)
    (htask : f.task? t = some task) (count : Nat) :
    ∃ n, n + 1 = line.length ∧ Leaves f.depthPass (task, count) n (count + n) := by
  induction hline generalizing task count with
  | @top t htop =>
    refine ⟨0, rfl, .now ?_⟩
    rw [depthPass, (h.hasParent_eq_false_iff htask).mpr htop]
    rfl
  | @step t line hup rest ih =>
    obtain ⟨next, hnext⟩ := exists_task? (h.parent_lt t (lt_size_of_task? htask))
    obtain ⟨n, hn, hrest⟩ := ih hnext (count + 1)
    rw [Nat.add_right_comm, Nat.add_assoc] at hrest
    rw [parent_of_task? htask] at hnext
    refine ⟨n + 1, by rw [hn, List.length_cons], .later ?_ hrest⟩
    rw [depthPass, (h.hasParent_iff htask).mpr hup, hnext]
    rfl

namespace Coherent

/-- **The count of the tasks above is left**, with the depth. -/
theorem exists_leaves_depth (h : f.Coherent) (htask : f.task? t = some task) :
    ∃ n, 2 * n < f.size ∧ f.depth t = .ok n ∧ Leaves f.depthPass (task, 0) n n := by
  obtain ⟨n, hn, hleaves⟩ := (h.ascent_lineage t).exists_leaves_depth h htask 0
  have hlength := h.two_mul_length_lineage_lt (lt_size_of_task? htask)
  rw [Nat.zero_add] at hleaves
  refine ⟨n, by omega, ?_, hleaves⟩
  rw [depth_of_task? htask, ← hn, Nat.add_sub_cancel]

/-- The depth of a task that hangs under another is one more than that of the other. -/
theorem exists_depth_of_hasParent (h : f.Coherent) (htask : f.task? t = some task)
    (hup : task.hasParent = true) :
    ∃ n, f.depth task.parent = .ok n ∧ f.depth t = .ok (n + 1) := by
  have hne := (h.hasParent_iff htask).mp hup
  obtain ⟨next, hnext⟩ := exists_task? (h.parent_lt t (lt_size_of_task? htask))
  have hpos := List.length_pos_of_mem (h.ascent_lineage (f.parent t)).mem_self
  refine ⟨(f.lineage (f.parent t)).length - 1, ?_, ?_⟩
  · rw [← parent_of_task? htask, depth_of_task? hnext]
  · rw [depth_of_task? htask, h.lineage_of_parent_ne hne, List.length_cons, Nat.add_sub_cancel,
      Nat.sub_add_cancel hpos]

/-- The depth is zero exactly where nothing is above. -/
theorem depth_eq_zero_iff (h : f.Coherent) (htask : f.task? t = some task) :
    f.depth t = .ok 0 ↔ task.hasParent = false := by
  constructor
  · intro hzero
    by_contra hup
    obtain ⟨n, -, hdepth⟩ := h.exists_depth_of_hasParent htask (by simpa using hup)
    cases hzero.symm.trans hdepth
  · intro htop
    rw [h.hasParent_eq_false_iff htask] at htop
    rw [depth_of_task? htask, h.lineage_of_top htop, List.length_singleton]

end Coherent

/-! ### Walking downwards -/

/-- The walk takes one pass for every task of a descent before it gets to what lies below on the
stack. -/
theorem Descent.leaves_walk (h : f.Coherent) (hd : f.Descent t order) (ht : t < f.size)
    {stack met all : List TaskId} {n : Nat}
    (hrest : Leaves f.walkPass (stack, met ++ order) n all) :
    Leaves f.walkPass (t :: stack, met) (order.length + n) all := by
  induction hd generalizing stack met n with
  | @whole t hwhole =>
    obtain ⟨task, htask⟩ := exists_task? ht
    have hnone : task.parts = none := (parts?_of_task? htask).symm.trans hwhole
    rw [List.length_singleton, Nat.add_comm]
    refine .later ?_ hrest
    simp only [walkPass, htask, Option.map_some, hnone, h.id_eq t task htask]
  | @split t first second left right hparts hleft hright ihleft ihright =>
    obtain ⟨task, htask⟩ := exists_task? ht
    have hboth : task.parts = some (first, second) := (parts?_of_task? htask).symm.trans hparts
    -- the second part lies below the first on the stack, and is noted after all under that
    have hnoted : met ++ [t] ++ left ++ right = met ++ t :: (left ++ right) := by simp
    rw [← hnoted] at hrest
    have hbelow := ihright (h.lt_size_of_part hparts (.inr rfl)) hrest
    have hwalk := ihleft (h.lt_size_of_part hparts (.inl rfl)) hbelow
    have hlength : (t :: (left ++ right)).length + n = left.length + (right.length + n) + 1 := by
      rw [List.length_cons, List.length_append]
      omega
    rw [hlength]
    refine .later ?_ hwalk
    simp only [walkPass, htask, Option.map_some, hboth, h.id_eq t task htask]

namespace Coherent

/-- **The walk from the root is left**, having taken each task that it lists from its stack once
and nothing else. -/
theorem leaves_walk (h : f.Coherent) :
    Leaves f.walkPass (f.root?.toList, []) f.preorder.length f.preorder := by
  rcases Nat.eq_zero_or_pos f.size with hzero | hpos
  · have hempty : f.root? = none := by
      rw [root?, if_pos]
      simpa using Array.size_eq_zero_iff.mp hzero
    rw [hempty, preorder_of_size_eq_zero hzero]
    exact .now rfl
  · have hroot : f.root? = some root := by
      rw [root?, if_neg]
      simpa using Array.size_pos_iff.mp hpos
    have hend : Leaves f.walkPass ([], [] ++ f.preorder) 0 f.preorder := .now rfl
    rw [hroot]
    exact (h.descent_preorder hpos).leaves_walk h hpos hend

theorem length_preorder_le (h : f.Coherent) : f.preorder.length ≤ f.size := by
  rcases Nat.eq_zero_or_pos f.size with hzero | hpos
  · rw [preorder_of_size_eq_zero hzero]
    exact Nat.zero_le _
  · exact (h.descent_preorder hpos).length_le_size h hpos

end Coherent

end Forest

end TaskAllocation
