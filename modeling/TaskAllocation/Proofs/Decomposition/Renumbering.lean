import Mathlib.Data.List.Perm.Basic
import TaskAllocation.Proofs.Decomposition.Correspondence

/-!
# Decompositions up to renumbering

Tasks are numbered in the order in which they are declared, and blocks in the order in
which tasks are split.  Declared and split in another order, the same tasks get other
numbers; what is left to compare is what can be said by their names.

## Main definitions

* `Forest.Renumbering` — a correspondence between the tasks of two forests that keeps their
  names, their estimates and their parts.
* `Forest.parentOf?`, `Forest.partsOf?`, `Forest.estimateOf?`, `Forest.preorderNames`,
  `Decomposition.blockNames`, `Decomposition.focusName?` — what can be said by names.
* `Decomposition.SameByName` — two decompositions of which the same can be said by names.

## Main results

* `Forest.Renumbering.parent` — **parts decide about parents**, so that a correspondence keeps
  these too.
* `Forest.Renumbering.visit` — corresponding tasks are visited at the same time.
* `Decomposition.Coherent.sameByName` — what corresponds is the same by names.
-/

namespace TaskAllocation

namespace Forest

variable {S : Type}

/-! ### What can be said by names -/

/-- The name of a task. -/
def name? (f : Forest S) (t : TaskId) : Option String := (f.task? t).map (·.name)

/-- The name of the parent of the task that bears a name. -/
def parentOf? (f : Forest S) (name : String) : Option (Option String) :=
  (f.idOf? name).map fun t => f.name? (f.parent t)

/-- The names of the two parts of the task that bears a name, if it is split. -/
def partsOf? (f : Forest S) (name : String) : Option (Option String × Option String) :=
  ((f.idOf? name).bind f.parts?).map fun (first, second) => (f.name? first, f.name? second)

/-- The estimate, with its weight, of the task that bears a name. -/
def estimateOf? (f : Forest S) (name : String) : Option (Estimate S) :=
  ((f.idOf? name).bind f.task?).map (·.estimate)

/-- The names of the tasks under the root, each before those of its parts. -/
def preorderNames (f : Forest S) : List (Option String) := f.preorder.map f.name?

/-! ### Correspondences -/

/-- Under `r` the tasks of `f` correspond to those of `g`: in name and estimate, and part by
part. -/
structure Renumbering (f g : Forest S) (r : TaskId → TaskId → Prop) : Prop where
  /-- There are as many tasks. -/
  size_eq : f.size = g.size
  /-- Every task of `f` corresponds to one of `g`. -/
  exists_right : ∀ t, t < f.size → ∃ u, r t u
  /-- Every task of `g` corresponds to one of `f`. -/
  exists_left : ∀ u, u < g.size → ∃ t, r t u
  /-- Tasks that correspond have the same name and estimate. -/
  task : ∀ t u, r t u → ∃ task other, f.task? t = some task ∧ g.task? u = some other ∧
    task.name = other.name ∧ task.estimate = other.estimate
  /-- They are both whole, or their parts correspond in their order. -/
  parts : ∀ t u, r t u → Option.Rel (fun p q => r p.1 q.1 ∧ r p.2 q.2) (f.parts? t) (g.parts? u)

namespace Renumbering

variable {f g : Forest S} {r : TaskId → TaskId → Prop} {t u v : TaskId}

theorem swap (h : Renumbering f g r) : Renumbering g f fun u t => r t u where
  size_eq := h.size_eq.symm
  exists_right := h.exists_left
  exists_left := h.exists_right
  task u t hr := by
    obtain ⟨task, other, htask, hother, hname, hestimate⟩ := h.task t u hr
    exact ⟨other, task, hother, htask, hname.symm, hestimate.symm⟩
  parts u t hr := by
    have hparts := h.parts t u hr
    cases hf : f.parts? t <;> cases hg : g.parts? u <;> rw [hf, hg] at hparts
    · exact .none
    · cases hparts
    · cases hparts
    · cases hparts with
      | some hboth => exact .some hboth

theorem name?_eq (h : Renumbering f g r) (hr : r t u) : f.name? t = g.name? u := by
  obtain ⟨task, other, htask, hother, hname, -⟩ := h.task t u hr
  rw [name?, name?, htask, hother, Option.map_some, Option.map_some, hname]

theorem exists_parts (h : Renumbering f g r) (hr : r t u) {first second : TaskId}
    (hparts : f.parts? t = some (first, second)) :
    ∃ first' second', g.parts? u = some (first', second') ∧ r first first' ∧ r second second' := by
  have hrel := h.parts t u hr
  rw [hparts] at hrel
  generalize g.parts? u = other at hrel
  cases hrel with
  | some hboth => exact ⟨_, _, rfl, hboth⟩

/-- A task corresponds to one other, for no two tasks bear one name. -/
theorem right_unique (h : Renumbering f g r) (hg : g.Coherent) (hu : r t u) (hv : r t v) :
    u = v := by
  obtain ⟨task, other, htask, hother, hname, -⟩ := h.task t u hu
  obtain ⟨task', other', htask', hother', hname', -⟩ := h.task t v hv
  obtain rfl : task = task' := Option.some.inj (htask.symm.trans htask')
  exact hg.name_inj hother hother' (hname.symm.trans hname')

theorem idOf? (h : Renumbering f g r) (hf : f.Coherent) (hg : g.Coherent) (name : String) :
    Option.Rel r (f.idOf? name) (g.idOf? name) := by
  cases hleft : f.idOf? name with
  | some t =>
    obtain ⟨task, htask, hname⟩ := (hf.idOf?_eq_some_iff name t).mp hleft
    obtain ⟨u, hr⟩ := h.exists_right t (lt_size_of_task? htask)
    obtain ⟨task', other, htask', hother, hsame, -⟩ := h.task t u hr
    obtain rfl : task = task' := Option.some.inj (htask.symm.trans htask')
    rw [(hg.idOf?_eq_some_iff name u).mpr ⟨other, hother, hsame.symm.trans hname⟩]
    exact .some hr
  | none =>
    cases hright : g.idOf? name with
    | none => exact .none
    | some u =>
      -- the task of `g` that bears the name would correspond to one of `f` that does
      obtain ⟨other, hother, hname⟩ := (hg.idOf?_eq_some_iff name u).mp hright
      obtain ⟨t, hr⟩ := h.exists_left u (lt_size_of_task? hother)
      obtain ⟨task, other', htask, hother', hsame, -⟩ := h.task t u hr
      obtain rfl : other = other' := Option.some.inj (hother.symm.trans hother')
      have hsome := (hf.idOf?_eq_some_iff name t).mpr ⟨task, htask, hsame.trans hname⟩
      cases hleft.symm.trans hsome

/-! ### Parents -/

/-- Where one of two tasks hangs under another, so does the other of them. -/
theorem parent_of_ne (h : Renumbering f g r) (hf : f.Coherent) (hg : g.Coherent) (hr : r t u)
    (hne : f.parent t ≠ t) : r (f.parent t) (g.parent u) ∧ g.parent u ≠ u := by
  obtain ⟨first, second, hparts, ht⟩ := hf.part_of_parent t hne
  obtain ⟨v, hv⟩ := h.exists_right (f.parent t) (lt_size_of_parts? hparts)
  obtain ⟨first', second', hparts', hfirst, hsecond⟩ := h.exists_parts hv hparts
  -- `u` is the part that `t` corresponds to
  have hu : u = first' ∨ u = second' := by
    rcases ht with rfl | rfl
    · exact .inl (h.right_unique hg hr hfirst)
    · exact .inr (h.right_unique hg hr hsecond)
  obtain ⟨hother, -, -, hparent⟩ := hg.hangs v first' second' hparts' u hu
  rw [hparent]
  exact ⟨hv, hother.symm⟩

/-- **Parts decide about parents**, in whichever order they were linked. -/
theorem parent (h : Renumbering f g r) (hf : f.Coherent) (hg : g.Coherent) (hr : r t u) :
    r (f.parent t) (g.parent u) := by
  by_cases hne : f.parent t = t
  · by_cases hne' : g.parent u = u
    · rwa [hne, hne']
    · exact absurd hne (h.swap.parent_of_ne hg hf hr hne').2
  · exact (h.parent_of_ne hf hg hr hne).1

/-! ### The walk from the root -/

/-- **Corresponding tasks are visited at the same time**, whatever is left to visit. -/
theorem visit (h : Renumbering f g r) (bound : Nat) {stack stack' : List TaskId}
    (hstack : List.Forall₂ r stack stack') :
    List.Forall₂ r (f.visit bound stack) (g.visit bound stack') := by
  induction bound generalizing stack stack' with
  | zero => exact .nil
  | succ bound ih =>
    cases hstack with
    | nil => exact .nil
    | @cons t u stack stack' hr hstack =>
      have hparts := h.parts t u hr
      simp only [Forest.visit]
      cases hf : f.parts? t <;> cases hg : g.parts? u <;> rw [hf, hg] at hparts
      · exact .cons hr (ih hstack)
      · cases hparts
      · cases hparts
      · cases hparts with
        | some hboth => exact .cons hr (ih (.cons hboth.1 (.cons hboth.2 hstack)))

theorem preorderNames_eq (h : Renumbering f g r) (hroot : r root root) :
    f.preorderNames = g.preorderNames := by
  have hnames : ∀ {order order' : List TaskId}, List.Forall₂ r order order' →
      order.map f.name? = order'.map g.name? := by
    intro order order' horder
    induction horder with
    | nil => rfl
    | cons hr _ ih => rw [List.map_cons, List.map_cons, h.name?_eq hr, ih]
  have hempty : f.tasks.isEmpty = g.tasks.isEmpty := by
    have hsize : f.tasks.size = g.tasks.size := h.size_eq
    rw [Array.isEmpty, Array.isEmpty, hsize]
  unfold preorderNames preorder root?
  rw [← hempty, ← h.size_eq]
  by_cases hnone : f.tasks.isEmpty = true
  · simp [hnone]
  · simp only [hnone]
    exact hnames (h.visit f.size (.cons hroot .nil))

end Renumbering

end Forest

namespace Decomposition

variable {S : Type} {d e : Decomposition S} {r : TaskId → TaskId → Prop}

/-- The names of the members of a block. -/
def blockNames (d : Decomposition S) (b : Block S) :
    Option String × Option String × Option String :=
  (d.forest.name? b.root, d.forest.name? b.first, d.forest.name? b.second)

/-- The name of the head of the block with the focus. -/
def focusName? (d : Decomposition S) : Option (Option String) :=
  d.focused?.map fun b => d.forest.name? b.root

/-- Of `d` and `e` the same can be said by names. -/
structure SameByName (d e : Decomposition S) : Prop where
  /-- A task has the same parent. -/
  parent_eq : ∀ name, d.forest.parentOf? name = e.forest.parentOf? name
  /-- It has the same parts, in the same order. -/
  parts_eq : ∀ name, d.forest.partsOf? name = e.forest.partsOf? name
  /-- It has the same estimate. -/
  estimate_eq : ∀ name, d.forest.estimateOf? name = e.forest.estimateOf? name
  /-- The blocks are the same, though they may be numbered differently. -/
  blocks_perm : (d.blocks.toList.map d.blockNames).Perm (e.blocks.toList.map e.blockNames)
  /-- The tasks under the root come in the same order. -/
  preorder_eq : d.forest.preorderNames = e.forest.preorderNames
  /-- The block with the focus has the same head. -/
  focus_eq : d.focusName? = e.focusName?

namespace Coherent

/-- Where a task corresponds to another, so does its block. -/
theorem blockNames_mem (hd : d.Coherent) (he : e.Coherent)
    (h : Forest.Renumbering d.forest e.forest r) {b : Block S} (hb : b ∈ d.blocks.toList) :
    d.blockNames b ∈ e.blocks.toList.map e.blockNames := by
  obtain ⟨k, hk⟩ := List.mem_iff_getElem?.mp hb
  rw [Array.getElem?_toList] at hk
  have hparts := hd.parts_root k b hk
  obtain ⟨u, hr⟩ := h.exists_right b.root (Forest.lt_size_of_parts? hparts)
  obtain ⟨first, second, hparts', hfirst, hsecond⟩ := h.exists_parts hr hparts
  obtain ⟨j, c, hc, rfl⟩ := he.exists_block u (by rw [hparts']; rfl)
  cases hparts'.symm.trans (he.parts_root j c hc)
  refine List.mem_map.mpr ⟨c, Array.mem_toList_iff.mpr (Array.mem_of_getElem? hc), ?_⟩
  rw [blockNames, blockNames, h.name?_eq hr, h.name?_eq hfirst, h.name?_eq hsecond]

/-- No two blocks have heads of one name. -/
theorem nodup_blockNames (hd : d.Coherent) : (d.blocks.toList.map d.blockNames).Nodup := by
  refine List.pairwise_map.mpr (List.pairwise_iff_getElem.mpr fun i j hi hj hlt hsame => ?_)
  have hb := Array.getElem?_toList ▸ List.getElem?_eq_getElem hi
  have hc := Array.getElem?_toList ▸ List.getElem?_eq_getElem hj
  obtain ⟨task, htask⟩ := hd.exists_root hb
  obtain ⟨other, hother⟩ := hd.exists_root hc
  have hname := congrArg Prod.fst hsame
  simp only [blockNames, Forest.name?, htask, hother, Option.map_some, Option.some.injEq] at hname
  have hroot := hd.forest.name_inj htask hother hname
  exact absurd (hd.root_inj i j _ _ hb hc hroot) (Nat.ne_of_lt hlt)

theorem blockNames_perm (hd : d.Coherent) (he : e.Coherent)
    (h : Forest.Renumbering d.forest e.forest r) :
    (d.blocks.toList.map d.blockNames).Perm (e.blocks.toList.map e.blockNames) := by
  refine (List.perm_ext_iff_of_nodup hd.nodup_blockNames he.nodup_blockNames).mpr fun names => ?_
  constructor
  · intro hmem
    obtain ⟨b, hb, rfl⟩ := List.mem_map.mp hmem
    exact hd.blockNames_mem he h hb
  · intro hmem
    obtain ⟨c, hc, rfl⟩ := List.mem_map.mp hmem
    exact he.blockNames_mem hd h.swap hc

/-- **What corresponds is the same by names.** -/
theorem sameByName (hd : d.Coherent) (he : e.Coherent)
    (h : Forest.Renumbering d.forest e.forest r) (hroot : r Forest.root Forest.root)
    (hfocus : d.focusName? = e.focusName?) : d.SameByName e where
  parent_eq name := by
    have hrel := h.idOf? hd.forest he.forest name
    unfold Forest.parentOf?
    generalize d.forest.idOf? name = left, e.forest.idOf? name = right at hrel
    cases hrel with
    | none => rfl
    | some hr => exact congrArg some (h.name?_eq (h.parent hd.forest he.forest hr))
  parts_eq name := by
    have hrel := h.idOf? hd.forest he.forest name
    unfold Forest.partsOf?
    generalize d.forest.idOf? name = left, e.forest.idOf? name = right at hrel
    cases hrel with
    | none => rfl
    | @some t u hr =>
      have hparts := h.parts t u hr
      rw [Option.bind_some, Option.bind_some]
      generalize d.forest.parts? t = left, e.forest.parts? u = right at hparts
      cases hparts with
      | none => rfl
      | some hboth =>
        simp only [Option.map_some, h.name?_eq hboth.1, h.name?_eq hboth.2]
  estimate_eq name := by
    have hrel := h.idOf? hd.forest he.forest name
    unfold Forest.estimateOf?
    generalize d.forest.idOf? name = left, e.forest.idOf? name = right at hrel
    cases hrel with
    | none => rfl
    | @some t u hr =>
      obtain ⟨task, other, htask, hother, -, hestimate⟩ := h.task t u hr
      simp only [Option.bind_some, htask, hother, Option.map_some, hestimate]
  blocks_perm := hd.blockNames_perm he h
  preorder_eq := h.preorderNames_eq hroot
  focus_eq := hfocus

end Coherent

end Decomposition

end TaskAllocation
