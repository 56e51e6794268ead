import TaskAllocation.Forest
import TaskAllocation.Proofs.NameTable
import TaskAllocation.Proofs.Outcome

/-!
# Links between tasks

What the operations of a forest do to its links, seen through the lookups: the parent
of a task, its parts, and the number that belongs to a name.  Only `add` and `link`
touch links; everything else changes the history of tasks, and leaves the *outline* of
the forest as it is.

## Main definitions

* `Task.outline`, `Forest.outline` — a task, and a forest, apart from its history.
* `Forest.CanHang`, `Forest.CanSplit` — when a task can become a part, and when a task
  can be split into two others.

## Main results

* `Forest.split_eq_ok_iff` — splitting succeeds exactly if it is possible, and links.
* `Forest.validate_eq_ok_iff` — a forest is one tree if every task but the root hangs
  under another.
-/

namespace TaskAllocation

/-- What a task is apart from its history: number, name and links. -/
def Task.outline {S : Type} (t : Task S) : TaskId × String × TaskId × Option (TaskId × TaskId) :=
  (t.id, t.name, t.parent, t.parts)

@[simp]
theorem Task.outline_record {S : Type} [Scalar S] (t : Task S) (measured : S) (learn : Bool) :
    (t.record measured learn).outline = t.outline := rfl

namespace Forest

variable {S : Type}

/-! ### Lookups -/

theorem lt_size_of_task? {f : Forest S} {t : TaskId} {task : Task S} (h : f.task? t = some task) :
    t < f.size := by
  unfold task? at h
  exact (Array.getElem?_eq_some_iff.mp h).1

theorem exists_task? {f : Forest S} {t : TaskId} (h : t < f.size) :
    ∃ task, f.task? t = some task :=
  ⟨_, Array.getElem?_eq_getElem h⟩

theorem task?_eq_none {f : Forest S} {t : TaskId} (h : f.size ≤ t) : f.task? t = none :=
  Array.getElem?_eq_none h

theorem task_eq_ok_iff {f : Forest S} {t : TaskId} {task : Task S} :
    f.task t = .ok task ↔ f.task? t = some task := by
  unfold Forest.task
  cases f.task? t <;> simp

theorem parent_of_task? {f : Forest S} {t : TaskId} {task : Task S} (h : f.task? t = some task) :
    f.parent t = task.parent := by
  simp [parent, h]

theorem parent_of_size_le {f : Forest S} {t : TaskId} (h : f.size ≤ t) : f.parent t = t := by
  simp [parent, task?_eq_none h]

theorem parts?_of_task? {f : Forest S} {t : TaskId} {task : Task S} (h : f.task? t = some task) :
    f.parts? t = task.parts := by
  simp [parts?, h]

theorem parts?_eq_some_iff {f : Forest S} {t : TaskId} {p : TaskId × TaskId} :
    f.parts? t = some p ↔ ∃ task, f.task? t = some task ∧ task.parts = some p := by
  simp [parts?, Option.bind_eq_some_iff]

theorem lt_size_of_parts? {f : Forest S} {t : TaskId} {p : TaskId × TaskId}
    (h : f.parts? t = some p) : t < f.size := by
  obtain ⟨task, htask, -⟩ := parts?_eq_some_iff.mp h
  exact lt_size_of_task? htask

theorem estimate_of_task? [Scalar S] {f : Forest S} {t : TaskId} {task : Task S}
    (h : f.task? t = some task) : f.estimate t = task.estimate.value := by
  simp [estimate, h]

/-- The depth of a task is how many tasks its lineage holds besides it. -/
theorem depth_of_task? {f : Forest S} {t : TaskId} {task : Task S} (h : f.task? t = some task) :
    f.depth t = .ok ((f.lineage t).length - 1) := by
  rw [depth, task_eq_ok_iff.mpr h]
  rfl

/-! ### Outlines -/

/-- What is laid down about a forest: its tasks apart from their history, and its table of
names. -/
abbrev Outline : Type :=
  Array (TaskId × String × TaskId × Option (TaskId × TaskId)) × List (String × TaskId)

/-- A forest apart from the history of its tasks. -/
def outline (f : Forest S) : Outline := (f.tasks.map Task.outline, f.names)

section Outline

variable {f g : Forest S} (h : f.outline = g.outline)

include h

theorem size_eq_of_outline : f.size = g.size := by
  simpa [outline, size] using congrArg (·.1.size) h

theorem outline_task?_of_outline (t : TaskId) :
    (f.task? t).map Task.outline = (g.task? t).map Task.outline := by
  simpa [outline, task?] using congrArg (·.1[t]?) h

/-- Where one forest has a task, the other has one with the same number, name and links. -/
theorem exists_task?_of_outline {t : TaskId} {task : Task S} (ht : f.task? t = some task) :
    ∃ other, g.task? t = some other ∧ other.id = task.id ∧ other.name = task.name ∧
      other.parent = task.parent ∧ other.parts = task.parts := by
  have hmap := outline_task?_of_outline h t
  rw [ht, Option.map_some] at hmap
  obtain ⟨other, hother, heq⟩ := Option.map_eq_some_iff.mp hmap.symm
  simp only [Task.outline, Prod.mk.injEq] at heq
  exact ⟨other, hother, heq⟩

theorem parent_eq_of_outline : f.parent = g.parent := by
  funext t
  rcases Nat.lt_or_ge t f.size with hlt | hge
  · obtain ⟨task, ht⟩ := exists_task? hlt
    obtain ⟨other, hother, -, -, hparent, -⟩ := exists_task?_of_outline h ht
    rw [parent_of_task? ht, parent_of_task? hother, hparent]
  · rw [parent_of_size_le hge, parent_of_size_le (size_eq_of_outline h ▸ hge)]

theorem parts?_eq_of_outline : f.parts? = g.parts? := by
  funext t
  rcases Nat.lt_or_ge t f.size with hlt | hge
  · obtain ⟨task, ht⟩ := exists_task? hlt
    obtain ⟨other, hother, -, -, -, hparts⟩ := exists_task?_of_outline h ht
    rw [parts?_of_task? ht, parts?_of_task? hother, hparts]
  · simp [parts?, task?_eq_none hge, task?_eq_none (size_eq_of_outline h ▸ hge)]

theorem idOf?_eq_of_outline : f.idOf? = g.idOf? := by
  have hnames : f.names = g.names := congrArg Prod.snd h
  unfold idOf?
  rw [hnames]

end Outline

/-- A change that keeps the outline of a task keeps that of the forest. -/
theorem outline_modify (f : Forest S) (t : TaskId) {change : Task S → Task S}
    (hchange : ∀ task, (change task).outline = task.outline) :
    ({ f with tasks := f.tasks.modify t change } : Forest S).outline = f.outline := by
  refine Prod.ext (Array.ext_getElem? fun i => ?_) rfl
  simp only [outline, Array.getElem?_map, Array.getElem?_modify]
  split
  · simp [Function.comp_def, hchange]
  · rfl

@[simp]
theorem outline_noteAborted (f : Forest S) (parent part : TaskId) :
    (f.noteAborted parent part).outline = f.outline :=
  outline_modify f parent fun _ => rfl

theorem outline_of_record [Scalar S] {f g : Forest S} {t : TaskId} {measured : S} {learn : Bool}
    (h : f.record t measured learn = .ok g) : g.outline = f.outline := by
  obtain ⟨-, rfl⟩ := record_eq_ok_iff.mp h
  exact outline_modify f t fun task => Task.outline_record task measured learn

/-! ### Declaring a task -/

section Add

variable [Scalar S]

theorem task?_push (f : Forest S) (spec : TaskSpec S) (t : TaskId) :
    (f.push spec).task? t =
      if t = f.size then some (Task.ofSpec f.size spec) else f.task? t :=
  Array.getElem?_push

/-- The table of names is told of a new task. -/
theorem idOf?_push (f : Forest S) (spec : TaskSpec S) (name : String) :
    (f.push spec).idOf? name = if name = spec.name then some f.size else f.idOf? name :=
  NameTable.lookup_enter name

theorem parent_push (f : Forest S) (spec : TaskSpec S) (t : TaskId) :
    (f.push spec).parent t = f.parent t := by
  rw [parent, task?_push]
  by_cases h : t = f.size
  · rw [if_pos h, parent_of_size_le (Nat.le_of_eq h.symm), h]
    rfl
  · rw [if_neg h]
    rfl

theorem parts?_push (f : Forest S) (spec : TaskSpec S) (t : TaskId) :
    (f.push spec).parts? t = f.parts? t := by
  rw [parts?, task?_push]
  by_cases h : t = f.size
  · rw [if_pos h, parts?, task?_eq_none (Nat.le_of_eq h.symm)]
    rfl
  · rw [if_neg h]
    rfl

end Add

/-! ### Linking -/

theorem task?_link (f : Forest S) (parent first second t : TaskId) :
    (f.link parent first second).task? t = (f.task? t).map fun task =>
      { task with
        parent := if t = first ∨ t = second then parent else task.parent
        parts := if t = parent then some (first, second) else task.parts } := by
  simp only [link, task?, Array.getElem?_modify]
  cases f.tasks[t]? with
  | none => simp
  | some task =>
    by_cases hp : parent = t <;> by_cases h1 : first = t <;> by_cases h2 : second = t <;>
      simp [hp, h1, h2, eq_comm]

@[simp]
theorem idOf?_link (f : Forest S) (parent first second : TaskId) (name : String) :
    (f.link parent first second).idOf? name = f.idOf? name := rfl

theorem parent_link {f : Forest S} (parent : TaskId) {first second : TaskId}
    (hfirst : first < f.size) (hsecond : second < f.size) (t : TaskId) :
    (f.link parent first second).parent t =
      if t = first ∨ t = second then parent else f.parent t := by
  rcases Nat.lt_or_ge t f.size with hlt | hge
  · obtain ⟨task, ht⟩ := exists_task? hlt
    simp [Forest.parent, task?_link, ht]
  · rw [if_neg, parent_of_size_le hge]
    · exact parent_of_size_le (by simpa using hge)
    · rintro (rfl | rfl)
      · exact Nat.not_lt.mpr hge hfirst
      · exact Nat.not_lt.mpr hge hsecond

theorem parts?_link {f : Forest S} {parent : TaskId} (hparent : parent < f.size)
    (first second t : TaskId) :
    (f.link parent first second).parts? t =
      if t = parent then some (first, second) else f.parts? t := by
  rcases Nat.lt_or_ge t f.size with hlt | hge
  · obtain ⟨task, ht⟩ := exists_task? hlt
    simp [parts?, task?_link, ht]
  · rw [if_neg (by rintro rfl; exact Nat.not_lt.mpr hge hparent)]
    simp [parts?, task?_link, task?_eq_none hge]

/-- Task `t` can become a part of `parent`: it is another task, hangs nowhere, is not
the root, and does not lie above `parent`. -/
structure CanHang (f : Forest S) (parent t : TaskId) : Prop where
  /-- A task is no part of itself. -/
  ne_parent : t ≠ parent
  /-- The task exists and hangs nowhere. -/
  free : ∃ task, f.task? t = some task ∧ task.hasParent = false
  /-- The root is no part. -/
  ne_root : t ≠ root
  /-- The task does not lie above its parent-to-be. -/
  not_above : t ∉ f.lineage parent

theorem CanHang.lt_size {f : Forest S} {parent t : TaskId} (h : f.CanHang parent t) :
    t < f.size := by
  obtain ⟨task, htask, -⟩ := h.free
  exact lt_size_of_task? htask

theorem checkPart_eq_ok_iff {f : Forest S} {parent t : TaskId} {u : Unit} :
    f.checkPart parent t = .ok u ↔ f.CanHang parent t := by
  unfold checkPart
  split
  · next hself => exact iff_of_false (by simp) fun h => h.ne_parent hself
  next hself =>
    split
    · next e he =>
      refine iff_of_false (by simp) fun h => ?_
      obtain ⟨task, htask, -⟩ := h.free
      rw [task_eq_ok_iff.mpr htask] at he
      cases he
    next task htask =>
      rw [task_eq_ok_iff] at htask
      split
      · next hhangs =>
        refine iff_of_false (by simp) fun h => ?_
        obtain ⟨other, hother, hfree⟩ := h.free
        obtain rfl : task = other := Option.some.inj (htask.symm.trans hother)
        exact absurd hhangs (by simp [hfree])
      next hfree =>
        split
        · next hcycle =>
          refine iff_of_false (by simp) fun h => ?_
          rcases hcycle with hroot | habove
          · exact h.ne_root hroot
          · exact h.not_above (by simpa [isAncestor] using habove)
        · next hcycle =>
          rw [not_or] at hcycle
          refine iff_of_true rfl ⟨hself, ⟨task, htask, by simpa using hfree⟩, hcycle.1, ?_⟩
          simpa [isAncestor] using hcycle.2

/-- Task `parent` can be split into `first` and `second`. -/
structure CanSplit (f : Forest S) (parent first second : TaskId) : Prop where
  /-- The task exists. -/
  lt_size : parent < f.size
  /-- It is not split yet. -/
  whole : f.parts? parent = none
  /-- The parts are two. -/
  ne : first ≠ second
  /-- The first of them can become a part. -/
  first : f.CanHang parent first
  /-- So can the second. -/
  second : f.CanHang parent second

/-- Splitting succeeds exactly if it is possible, and then hangs the parts under the
task. -/
theorem split_eq_ok_iff {f g : Forest S} {parent : TaskId} {parts : List TaskId}
    {pair : TaskId × TaskId} :
    f.split parent parts = .ok (pair, g) ↔
      parts = [pair.1, pair.2] ∧ f.CanSplit parent pair.1 pair.2 ∧
        g = f.link parent pair.1 pair.2 := by
  obtain ⟨first, second⟩ := pair
  unfold split
  split
  · next a b =>
    simp only [Except.bind_eq_ok_iff, Except.guard_eq_ok_iff, Except.pure_eq_ok_iff,
      task_eq_ok_iff, checkPart_eq_ok_iff]
    constructor
    · rintro ⟨task, htask, hwhole, hne, -, hfirst, -, hsecond, heq⟩
      simp only [Prod.mk.injEq] at heq
      obtain ⟨⟨rfl, rfl⟩, rfl⟩ := heq
      refine ⟨rfl, ⟨lt_size_of_task? htask, ?_, hne, hfirst, hsecond⟩, rfl⟩
      rw [parts?_of_task? htask]
      simpa [Task.isSplit] using hwhole
    · rintro ⟨hparts, h, rfl⟩
      obtain ⟨rfl, rfl⟩ : a = first ∧ b = second := by simpa using hparts
      obtain ⟨task, htask⟩ := exists_task? h.lt_size
      have hwhole := h.whole
      rw [parts?_of_task? htask] at hwhole
      refine ⟨task, htask, by simp [Task.isSplit, hwhole], h.ne, (), h.first, (), h.second, rfl⟩
  · next hlen => exact iff_of_false (by simp) fun h => hlen _ _ h.1

/-! ### One tree -/

/-- A forest with tasks is one tree if every task but the root hangs under another. -/
theorem validate_eq_ok_iff {f : Forest S} {u : Unit} :
    f.validate = .ok u ↔
      0 < f.size ∧ ∀ t task, 0 < t → f.task? t = some task → task.hasParent = true := by
  unfold validate
  split
  · next hempty =>
    refine iff_of_false (by simp) fun h => ?_
    simp only [Array.isEmpty_iff] at hempty
    simp [size, hempty] at h
  next hempty =>
    have hpos : 0 < f.size := Array.size_pos_iff.mpr (by simpa using hempty)
    split
    · next stray hstray =>
      refine iff_of_false (by simp) fun h => ?_
      obtain ⟨i, hi⟩ := List.mem_iff_getElem?.mp (List.mem_of_find?_eq_some hstray)
      rw [List.getElem?_drop, Array.getElem?_toList] at hi
      have hhangs := h.2 (1 + i) stray (Nat.add_pos_left Nat.one_pos i) hi
      simpa [hhangs] using List.find?_some hstray
    · next hnone =>
      rw [List.find?_eq_none] at hnone
      refine iff_of_true rfl ⟨hpos, fun t task ht htask => ?_⟩
      have hmem : task ∈ f.tasks.toList.drop 1 := by
        refine List.mem_iff_getElem?.mpr ⟨t - 1, ?_⟩
        rw [List.getElem?_drop, Array.getElem?_toList, Nat.add_sub_cancel' ht]
        exact htask
      simpa using hnone task hmem

end Forest

end TaskAllocation
