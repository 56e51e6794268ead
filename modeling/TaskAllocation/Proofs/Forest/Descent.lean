import Mathlib.Data.List.Nodup
import TaskAllocation.Proofs.Forest.Coherence

/-!
# Descents

What hangs under a task is told by recursion: the task, then all under its first part, then all
under its second.  `Descent` says that this recursion comes to an end, and names the tasks in
that order.  It does come to an end in a coherent forest, because each step downwards makes the
way up one step longer, and no way up is longer than there are tasks.

The walk from the root keeps a stack instead of recursing.  It lists the same tasks in the same
order, and with one step for every task it has got to the end of them.  Those are the tasks with
the root above them; looking whether every task but the root hangs under another is therefore
enough to know that the walk meets all of them.

## Main definitions

* `Forest.Descent` — a task and all that hangs under it, each task before its parts.

## Main results

* `Forest.Descent.visit_eq` — the stack lists one descent after another.
* `Forest.Coherent.exists_descent` — every descent comes to an end.
* `Forest.Descent.mem_iff`, `Forest.Descent.nodup` — what a descent lists, and how often.
* `Forest.Coherent.descent_preorder` — **the walk from the root is its descent.**
* `Forest.Coherent.validate_eq_ok_iff_perm` — a forest is one tree if the walk meets every task.
-/

namespace TaskAllocation

namespace Forest

variable {S : Type} {f : Forest S} {t u first second : TaskId} {order : List TaskId}

/-- `f.Descent t order` says that `order` lists `t` and all that hangs under it, each task before
its parts and the first part with all under it before the second. -/
inductive Descent (f : Forest S) : TaskId → List TaskId → Prop
  /-- Nothing hangs under a whole task. -/
  | whole {t : TaskId} (hwhole : f.parts? t = none) : Descent f t [t]
  /-- Under a split task hang its parts, and what hangs under them. -/
  | split {t first second : TaskId} {left right : List TaskId}
      (hparts : f.parts? t = some (first, second)) (hleft : Descent f first left)
      (hright : Descent f second right) : Descent f t (t :: (left ++ right))

namespace Descent

theorem unique (h : f.Descent t order) {other : List TaskId} (h' : f.Descent t other) :
    order = other := by
  induction h generalizing other with
  | whole hwhole =>
    cases h' with
    | whole _ => rfl
    | split hparts _ _ => cases hwhole.symm.trans hparts
  | split hparts _ _ ihleft ihright =>
    cases h' with
    | whole hwhole => cases hwhole.symm.trans hparts
    | split hparts' hleft hright =>
      cases hparts.symm.trans hparts'
      rw [ihleft hleft, ihright hright]

end Descent

/-! ### The stack -/

theorem visit_nil (f : Forest S) (bound : Nat) : f.visit bound [] = [] := by
  cases bound <;> rfl

/-- The stack lists the descent of the task on top before it gets to the tasks below, and takes
one step for every task in it. -/
theorem Descent.visit_eq (h : f.Descent t order) (bound : Nat) (stack : List TaskId) :
    f.visit (order.length + bound) (t :: stack) = order ++ f.visit bound stack := by
  induction h generalizing bound stack with
  | @whole t hwhole =>
    rw [List.length_singleton, Nat.add_comm, visit, hwhole]
    rfl
  | @split t first second left right hparts _ _ ihleft ihright =>
    have hlength : (t :: (left ++ right)).length + bound =
        left.length + (right.length + bound) + 1 := by
      rw [List.length_cons, List.length_append]
      omega
    rw [hlength, visit, hparts]
    simp only [ihleft, ihright, List.cons_append, List.append_assoc]

theorem preorder_of_size_pos (hpos : 0 < f.size) : f.preorder = f.visit f.size [root] := by
  have hnonempty : f.tasks.isEmpty = false := by
    simpa using Array.size_pos_iff.mp hpos
  rw [preorder, root?, hnonempty]
  rfl

theorem preorder_of_size_eq_zero (hzero : f.size = 0) : f.preorder = [] := by
  have hempty : f.tasks.isEmpty = true := by
    simpa using Array.size_eq_zero_iff.mp hzero
  rw [preorder, root?, hempty]
  rfl

/-- Task `i` is the first but the root that hangs nowhere. -/
structure IsFirstStray (f : Forest S) (i : TaskId) : Prop where
  /-- It is not the root. -/
  pos : 0 < i
  /-- It is a task. -/
  lt_size : i < f.size
  /-- It is its own parent. -/
  top : f.parent i = i
  /-- The tasks before it, the root apart, hang under others. -/
  first : ∀ j, 0 < j → j < i → f.parent j ≠ j

theorem IsFirstStray.unique {i j : TaskId} (hi : f.IsFirstStray i) (hj : f.IsFirstStray j) :
    i = j := by
  rcases Nat.lt_trichotomy i j with hlt | heq | hlt
  · exact absurd hi.top (hj.first i hi.pos hlt)
  · exact heq
  · exact absurd hj.top (hi.first j hj.pos hlt)

/-! ### What is listed -/

/-- A task that has a split task above it is that task, or has one of its parts above it. -/
theorem Ascent.part_mem (h : f.Coherent) (hparts : f.parts? t = some (first, second))
    {line : List TaskId} (hline : f.Ascent u line) (ht : t ∈ line) :
    u = t ∨ first ∈ line ∨ second ∈ line := by
  induction hline with
  | top _ => exact .inl (List.mem_singleton.mp ht).symm
  | @step u line hne rest ih =>
    rcases List.mem_cons.mp ht with rfl | ht
    · exact .inl rfl
    rcases ih ht with hparent | hfirst | hsecond
    · -- the last step before the split task is made from one of its parts
      obtain ⟨a, b, hab, hu⟩ := h.part_of_parent u hne
      rw [hparent, hparts] at hab
      cases hab
      rcases hu with rfl | rfl
      · exact .inr (.inl List.mem_cons_self)
      · exact .inr (.inr List.mem_cons_self)
    · exact .inr (.inl (List.mem_cons_of_mem _ hfirst))
    · exact .inr (.inr (List.mem_cons_of_mem _ hsecond))

namespace Coherent

/-- The way up from a part leads to the split task, and on from there. -/
theorem lineage_of_part (h : f.Coherent) (hparts : f.parts? t = some (first, second))
    (hu : u = first ∨ u = second) : f.lineage u = u :: f.lineage t := by
  obtain ⟨hne, -, -, hparent⟩ := h.hangs t first second hparts u hu
  have hup : f.parent u ≠ u := by
    rw [hparent]
    exact hne.symm
  rw [h.lineage_of_parent_ne hup, hparent]

/-- From every task on the way up the way goes on as it does from there. -/
theorem lineage_suffix (h : f.Coherent) (hu : u ∈ f.lineage t) :
    f.lineage u <:+ f.lineage t := by
  obtain ⟨rest, hrest, hsuffix⟩ := (h.ascent_lineage t).exists_suffix hu
  rwa [hrest.unique (h.ascent_lineage u)] at hsuffix

/-- No part lies above the task that it is a part of. -/
theorem part_not_mem_lineage (h : f.Coherent) (hparts : f.parts? t = some (first, second))
    (hu : u = first ∨ u = second) : u ∉ f.lineage t := by
  intro hmem
  have hle := (h.lineage_suffix hmem).length_le
  rw [h.lineage_of_part hparts hu, List.length_cons] at hle
  omega

/-- No task has both parts of another above it: the ways up from there are equally long. -/
theorem not_mem_lineage_of_mem (h : f.Coherent) (hparts : f.parts? t = some (first, second))
    (hfirst : first ∈ f.lineage u) : second ∉ f.lineage u := by
  intro hsecond
  have hleft := h.lineage_suffix hfirst
  have hright := h.lineage_suffix hsecond
  rw [h.lineage_of_part hparts (.inl rfl)] at hleft
  rw [h.lineage_of_part hparts (.inr rfl)] at hright
  have hsame := List.suffix_of_suffix_length_le hleft hright (by simp)
  have heq := hsame.eq_of_length (by simp)
  exact h.parts_ne t first second hparts (List.cons.inj heq).1

/-- **Every descent comes to an end**: the way up gets longer with every step downwards. -/
theorem exists_descent (h : f.Coherent) (ht : t < f.size) : ∃ order, f.Descent t order := by
  induction hroom : f.size - (f.lineage t).length using Nat.strongRecOn generalizing t with
  | ind room ih =>
    cases hparts : f.parts? t with
    | none => exact ⟨[t], .whole hparts⟩
    | some parts =>
      obtain ⟨first, second⟩ := parts
      have hpart : ∀ u, u = first ∨ u = second → ∃ order, f.Descent u order := by
        intro u hu
        have hlt := h.lt_size_of_part hparts hu
        have hlonger := h.lineage_of_part hparts hu
        have hle := (h.ascent_lineage u).length_le_size h.parent_lt hlt
        rw [hlonger, List.length_cons] at hle
        refine ih _ ?_ hlt rfl
        rw [hlonger, List.length_cons]
        omega
      obtain ⟨left, hleft⟩ := hpart first (.inl rfl)
      obtain ⟨right, hright⟩ := hpart second (.inr rfl)
      exact ⟨_, .split hparts hleft hright⟩

end Coherent

namespace Descent

/-- A descent lists the tasks that have its first task above them. -/
theorem mem_iff (h : f.Coherent) (hd : f.Descent t order) (u : TaskId) :
    u ∈ order ↔ t ∈ f.lineage u := by
  induction hd with
  | @whole t hwhole =>
    have hline := h.ascent_lineage u
    rw [List.mem_singleton]
    constructor
    · rintro rfl
      exact hline.mem_self
    · intro ht
      by_contra hne
      -- what lies above another task is split
      have hsplit := h.isSome_parts?_of_mem hline ht (Ne.symm hne)
      rw [hwhole] at hsplit
      cases hsplit
  | @split t first second left right hparts _ _ ihleft ihright =>
    have hline := h.ascent_lineage u
    have habove : ∀ v, v = first ∨ v = second → v ∈ f.lineage u → t ∈ f.lineage u := by
      intro v hv hmem
      have hsuffix := h.lineage_suffix hmem
      rw [h.lineage_of_part hparts hv] at hsuffix
      exact hsuffix.subset (List.mem_cons_of_mem _ (h.ascent_lineage t).mem_self)
    rw [List.mem_cons, List.mem_append, ihleft, ihright]
    constructor
    · rintro (rfl | hfirst | hsecond)
      · exact hline.mem_self
      · exact habove first (.inl rfl) hfirst
      · exact habove second (.inr rfl) hsecond
    · intro ht
      exact hline.part_mem h hparts ht

/-- A descent lists no task twice. -/
theorem nodup (h : f.Coherent) (hd : f.Descent t order) : order.Nodup := by
  induction hd with
  | whole _ => exact List.nodup_singleton _
  | @split t first second left right hparts hleft hright ihleft ihright =>
    refine List.nodup_cons.mpr ⟨?_, List.nodup_append.mpr ⟨ihleft, ihright, ?_⟩⟩
    · rw [List.mem_append, hleft.mem_iff h, hright.mem_iff h, not_or]
      exact ⟨h.part_not_mem_lineage hparts (.inl rfl), h.part_not_mem_lineage hparts (.inr rfl)⟩
    · rintro u hu v hv rfl
      rw [hleft.mem_iff h] at hu
      rw [hright.mem_iff h] at hv
      exact h.not_mem_lineage_of_mem hparts hu hv

/-- What hangs under a task is a task. -/
theorem lt_size (h : f.Coherent) (hd : f.Descent t order) (ht : t < f.size) (hu : u ∈ order) :
    u < f.size := by
  induction hd with
  | whole _ =>
    rwa [List.mem_singleton.mp hu]
  | split hparts _ _ ihleft ihright =>
    rcases List.mem_cons.mp hu with rfl | hu
    · exact ht
    rcases List.mem_append.mp hu with hu | hu
    · exact ihleft (h.lt_size_of_part hparts (.inl rfl)) hu
    · exact ihright (h.lt_size_of_part hparts (.inr rfl)) hu

/-- A descent is no longer than there are tasks. -/
theorem length_le_size (h : f.Coherent) (hd : f.Descent t order) (ht : t < f.size) :
    order.length ≤ f.size := by
  have hsub : order ⊆ List.range f.size := by
    intro u hu
    exact List.mem_range.mpr (hd.lt_size h ht hu)
  simpa using (hd.nodup h).length_le_of_subset hsub

end Descent

/-! ### The walk from the root -/

namespace Coherent

/-- **The walk from the root is its descent.** -/
theorem descent_preorder (h : f.Coherent) (hpos : 0 < f.size) : f.Descent root f.preorder := by
  obtain ⟨order, hd⟩ := h.exists_descent (t := root) hpos
  obtain ⟨spare, hspare⟩ := Nat.exists_eq_add_of_le (hd.length_le_size h hpos)
  have heq : f.preorder = order := by
    rw [preorder_of_size_pos hpos, hspare, hd.visit_eq, visit_nil, List.append_nil]
  rwa [heq]

/-- With a step for every task the stack is empty, and more steps list nothing more. -/
theorem visit_eq_preorder (h : f.Coherent) (hpos : 0 < f.size) {bound : Nat}
    (hbound : f.size ≤ bound) : f.visit bound [root] = f.preorder := by
  have hd := h.descent_preorder hpos
  have hlength := Nat.le_trans (hd.length_le_size h hpos) hbound
  obtain ⟨spare, rfl⟩ := Nat.exists_eq_add_of_le hlength
  rw [hd.visit_eq, visit_nil, List.append_nil]

theorem nodup_preorder (h : f.Coherent) : f.preorder.Nodup := by
  rcases Nat.eq_zero_or_pos f.size with hzero | hpos
  · rw [preorder_of_size_eq_zero hzero]
    exact List.nodup_nil
  · exact (h.descent_preorder hpos).nodup h

/-- The walk meets the tasks that have the root above them. -/
theorem mem_preorder_iff (h : f.Coherent) :
    t ∈ f.preorder ↔ t < f.size ∧ root ∈ f.lineage t := by
  rcases Nat.eq_zero_or_pos f.size with hzero | hpos
  · rw [preorder_of_size_eq_zero hzero, hzero]
    simp
  · have hd := h.descent_preorder hpos
    rw [← hd.mem_iff h, iff_and_self]
    exact hd.lt_size h hpos

/-- A task but the root that hangs nowhere is not met. -/
theorem not_mem_preorder (h : f.Coherent) (hpos : 0 < t) (htop : f.parent t = t) :
    t ∉ f.preorder := by
  intro hmem
  have hroot := (h.mem_preorder_iff.mp hmem).2
  rw [h.lineage_of_top htop, List.mem_singleton] at hroot
  exact absurd hroot (Nat.ne_of_lt hpos)

/-- **A forest is one tree if the walk meets every task**, although only the tasks next to each
other are looked at to tell. -/
theorem validate_eq_ok_iff_perm (h : f.Coherent) :
    f.validate = .ok () ↔ 0 < f.size ∧ f.preorder.Perm (List.range f.size) := by
  rw [List.perm_ext_iff_of_nodup h.nodup_preorder List.nodup_range]
  constructor
  · intro hvalid
    refine ⟨(h.validate_eq_ok_iff.mp hvalid).1, fun t => ?_⟩
    rw [h.mem_preorder_iff, List.mem_range, and_iff_left_iff_imp]
    intro ht
    exact h.root_mem_of_ascent hvalid (h.ascent_lineage t) ht
  · rintro ⟨hsize, hmem⟩
    refine h.validate_eq_ok_iff.mpr ⟨hsize, fun t hpos ht htop => ?_⟩
    exact h.not_mem_preorder hpos htop ((hmem t).mpr (List.mem_range.mpr ht))

/-- Where the tasks are looked through in order, the first that hangs nowhere is found. -/
theorem isFirstStray_of_find? (h : f.Coherent) {stray : Task S}
    (hfind : (f.tasks.toList.drop 1).find? (!·.hasParent) = some stray) :
    f.IsFirstStray stray.id := by
  obtain ⟨hfree, n, hn, hstray, hbefore⟩ := List.find?_eq_some_iff_getElem.mp hfind
  have hget : ∀ m (hm : m < (f.tasks.toList.drop 1).length),
      f.task? (1 + m) = some (f.tasks.toList.drop 1)[m] := by
    intro m hm
    rw [task?, ← Array.getElem?_toList, ← List.getElem?_drop, List.getElem?_eq_getElem hm]
  have htask : f.task? (1 + n) = some stray := by rw [hget n hn, hstray]
  rw [h.id_eq (1 + n) stray htask]
  constructor
  case pos => exact Nat.add_pos_left Nat.one_pos n
  case lt_size => exact lt_size_of_task? htask
  case top => exact (h.hasParent_eq_false_iff htask).mp (by simpa using hfree)
  case first =>
    intro j hpos hj htop
    -- a task before it was looked at, and hangs under another
    obtain ⟨m, rfl⟩ := Nat.exists_eq_add_of_le hpos
    have hm : m < n := Nat.lt_of_add_lt_add_left hj
    have hhangs := hbefore m hm
    rw [(h.hasParent_eq_false_iff (hget m (Nat.lt_trans hm hn))).mpr htop] at hhangs
    cases hhangs

/-- The task that is said to be disconnected is the first but the root that hangs nowhere. -/
theorem validate_eq_disconnected_iff (h : f.Coherent) {i : TaskId} :
    f.validate = .error (.disconnected i) ↔ f.IsFirstStray i := by
  constructor
  · intro herror
    unfold validate at herror
    split at herror
    · cases herror
    split at herror
    · next stray hfind =>
      cases herror
      exact h.isFirstStray_of_find? hfind
    · cases herror
  · intro hi
    have hinvalid : f.validate ≠ .ok () := by
      intro hvalid
      exact (h.validate_eq_ok_iff.mp hvalid).2 i hi.pos hi.lt_size hi.top
    unfold validate at hinvalid ⊢
    split
    · next hempty =>
      have hsize := hi.lt_size
      rw [size, Array.isEmpty_iff.mp hempty] at hsize
      exact absurd hsize (Nat.not_lt_zero _)
    next hnonempty =>
      rw [if_neg hnonempty] at hinvalid
      split
      · next stray hfind => rw [(h.isFirstStray_of_find? hfind).unique hi]
      · next hnone =>
        rw [hnone] at hinvalid
        exact absurd rfl hinvalid

end Coherent

end Forest

end TaskAllocation
