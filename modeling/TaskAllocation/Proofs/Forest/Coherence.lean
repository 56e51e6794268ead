import TaskAllocation.Proofs.Forest.Lineage

/-!
# Forests are forests

A forest is grown by calls, some of which may fail and then change nothing.  Whatever
the calls and their order, the links agree with each other in both directions, the
table of names leads to every task by its name and nowhere else, and going upwards comes
to an end: nothing hangs under itself, however the trees were put together.

## Main definitions

* `Forest.Call`, `Forest.apply`, `Forest.run` — growing a forest call by call.
* `Forest.Coherent` — what holds of a forest that has been grown so.

## Main results

* `Forest.Coherent.push` — a new task under a new name keeps the tasks and the table of
  their names in agreement.
* `Forest.Coherent.split` — **splitting keeps a forest coherent**, although it makes two
  links at once and looks for a cycle before it has made either.
* `Forest.coherent_run` — every forest grown from nothing is coherent.
-/

namespace TaskAllocation

namespace Forest

variable {S : Type}

/-- A forest whose names, numbers and links agree with each other. -/
structure Coherent (f : Forest S) : Prop where
  /-- A task stands at the place that is its number. -/
  id_eq : ∀ t task, f.task? t = some task → task.id = t
  /-- The table leads from a name to the task that bears it, and to no other. -/
  idOf?_eq_some_iff : ∀ name t,
    f.idOf? name = some t ↔ ∃ task, f.task? t = some task ∧ task.name = name
  /-- A parent is a task. -/
  parent_lt : ∀ t, t < f.size → f.parent t < f.size
  /-- The root is its own parent. -/
  parent_root : f.parent root = root
  /-- The parts of a task are two. -/
  parts_ne : ∀ t first second, f.parts? t = some (first, second) → first ≠ second
  /-- A part is another task, not the root, and hangs under the task that it is a part of. -/
  hangs : ∀ t first second, f.parts? t = some (first, second) → ∀ u, u = first ∨ u = second →
    u ≠ t ∧ u ≠ root ∧ u < f.size ∧ f.parent u = t
  /-- What hangs under a task is one of its parts. -/
  part_of_parent : ∀ t, f.parent t ≠ t →
    ∃ first second, f.parts? (f.parent t) = some (first, second) ∧ (t = first ∨ t = second)
  /-- Going upwards comes to an end before it has met as many tasks as there are. -/
  rises : ∀ t, t < f.size → ∃ k, k < f.size ∧ f.parent (f.parent^[k] t) = f.parent^[k] t

/-- If every way up comes to an end, it does so in time. -/
theorem rises_of_ascent {f : Forest S} (hrange : ∀ t, t < f.size → f.parent t < f.size)
    {t : TaskId} {line : List TaskId} (h : f.Ascent t line) (ht : t < f.size) :
    ∃ k, k < f.size ∧ f.parent (f.parent^[k] t) = f.parent^[k] t := by
  obtain ⟨k, hk, htop⟩ := h.exists_iterate
  refine ⟨k, Nat.lt_of_lt_of_le (Nat.lt_succ_self k) ?_, htop⟩
  rw [← Nat.add_one, hk]
  exact h.length_le_size hrange ht

namespace Coherent

variable {f g : Forest S}

theorem name_inj (h : f.Coherent) {t u : TaskId} {task other : Task S}
    (ht : f.task? t = some task) (hu : f.task? u = some other) (hname : task.name = other.name) :
    t = u := by
  have hleft := (h.idOf?_eq_some_iff other.name t).mpr ⟨task, ht, hname⟩
  have hright := (h.idOf?_eq_some_iff other.name u).mpr ⟨other, hu, rfl⟩
  exact Option.some.inj (hleft.symm.trans hright)

theorem hasParent_iff (h : f.Coherent) {t : TaskId} {task : Task S} (ht : f.task? t = some task) :
    task.hasParent = true ↔ f.parent t ≠ t := by
  rw [parent_of_task? ht, Task.hasParent, bne_iff_ne, h.id_eq t task ht]

/-- A task that hangs nowhere is its own parent. -/
theorem hasParent_eq_false_iff (h : f.Coherent) {t : TaskId} {task : Task S}
    (ht : f.task? t = some task) : task.hasParent = false ↔ f.parent t = t := by
  rw [← not_iff_not, Bool.not_eq_false, h.hasParent_iff ht]

/-- A coherent forest is one tree if only the root is its own parent. -/
theorem validate_eq_ok_iff (h : f.Coherent) :
    f.validate = .ok () ↔ 0 < f.size ∧ ∀ t, 0 < t → t < f.size → f.parent t ≠ t := by
  rw [Forest.validate_eq_ok_iff]
  refine and_congr_right fun _ => ⟨fun hhangs t hpos ht => ?_, fun hne t task hpos htask => ?_⟩
  · obtain ⟨task, htask⟩ := exists_task? ht
    exact (h.hasParent_iff htask).mp (hhangs t task hpos htask)
  · exact (h.hasParent_iff htask).mpr (hne t hpos (lt_size_of_task? htask))

theorem exists_ascent (h : f.Coherent) (t : TaskId) : ∃ line, f.Ascent t line := by
  rcases Nat.lt_or_ge t f.size with hlt | hge
  · obtain ⟨k, -, htop⟩ := h.rises t hlt
    exact exists_ascent_of_iterate htop
  · exact ⟨_, .top (parent_of_size_le hge)⟩

/-- The lineage of a task is its whole way up. -/
theorem ascent_lineage (h : f.Coherent) (t : TaskId) : f.Ascent t (f.lineage t) := by
  obtain ⟨line, hline⟩ := h.exists_ascent t
  rwa [hline.lineage_eq h.parent_lt]

/-- A task that hangs nowhere is its own lineage. -/
theorem lineage_of_top (h : f.Coherent) {t : TaskId} (htop : f.parent t = t) : f.lineage t = [t] :=
  (h.ascent_lineage t).unique (.top htop)

/-- The lineage of a task that hangs under another goes on with that of the other. -/
theorem lineage_of_parent_ne (h : f.Coherent) {t : TaskId} (hup : f.parent t ≠ t) :
    f.lineage t = t :: f.lineage (f.parent t) :=
  (h.ascent_lineage t).unique (.step hup (h.ascent_lineage (f.parent t)))

theorem mem_lineage_iff (h : f.Coherent) {t u : TaskId} :
    u ∈ f.lineage t ↔ ∃ n, f.parent^[n] t = u :=
  (h.ascent_lineage t).mem_iff_iterate

/-- The depth of a task is how many steps it takes from there to the top. -/
theorem exists_depth (h : f.Coherent) {t : TaskId} (ht : t < f.size) :
    ∃ n, f.depth t = .ok n ∧ f.StepsUp t n := by
  obtain ⟨task, htask⟩ := exists_task? ht
  exact ⟨_, depth_of_task? htask, (h.ascent_lineage t).stepsUp⟩

/-- What lies above a task is split. -/
theorem isSome_parts?_of_mem (h : f.Coherent) {t u : TaskId} {line : List TaskId}
    (hline : f.Ascent t line) (hu : u ∈ line) (hne : u ≠ t) : (f.parts? u).isSome := by
  induction hline with
  | top _ => exact absurd (List.mem_singleton.mp hu) hne
  | @step t line hparent _ ih =>
    rcases List.mem_cons.mp hu with rfl | hu
    · exact absurd rfl hne
    · by_cases hnext : u = f.parent t
      · obtain ⟨first, second, hparts, -⟩ := h.part_of_parent t hparent
        rw [hnext, hparts]
        rfl
      · exact ih hu hnext

/-- In one tree the root is above all. -/
theorem root_mem_of_ascent (h : f.Coherent) (hvalid : f.validate = .ok ()) {t : TaskId}
    {line : List TaskId} (hline : f.Ascent t line) (ht : t < f.size) : root ∈ line := by
  induction hline with
  | @top t htop =>
    rcases Nat.eq_zero_or_pos t with rfl | hpos
    · exact List.mem_singleton_self _
    · exact absurd htop ((h.validate_eq_ok_iff.mp hvalid).2 t hpos ht)
  | step _ _ ih => exact List.mem_cons_of_mem _ (ih (h.parent_lt _ ht))

theorem lt_size_of_part (h : f.Coherent) {t first second u : TaskId}
    (hparts : f.parts? t = some (first, second)) (hu : u = first ∨ u = second) : u < f.size :=
  (h.hangs t first second hparts u hu).2.2.1

/-- Only the history of tasks may change. -/
theorem of_outline (h : f.Coherent) (hout : g.outline = f.outline) : g.Coherent where
  id_eq t task ht := by
    obtain ⟨other, hother, hid, -⟩ := exists_task?_of_outline hout ht
    rw [← hid, h.id_eq t other hother]
  idOf?_eq_some_iff name t := by
    rw [idOf?_eq_of_outline hout, h.idOf?_eq_some_iff]
    constructor
    · rintro ⟨task, htask, hname⟩
      obtain ⟨other, hother, -, hother', -⟩ := exists_task?_of_outline hout.symm htask
      exact ⟨other, hother, hother'.trans hname⟩
    · rintro ⟨task, htask, hname⟩
      obtain ⟨other, hother, -, hother', -⟩ := exists_task?_of_outline hout htask
      exact ⟨other, hother, hother'.trans hname⟩
  parent_lt := by
    rw [parent_eq_of_outline hout, size_eq_of_outline hout]
    exact h.parent_lt
  parent_root := by
    rw [parent_eq_of_outline hout]
    exact h.parent_root
  parts_ne := by
    rw [parts?_eq_of_outline hout]
    exact h.parts_ne
  hangs := by
    rw [parent_eq_of_outline hout, parts?_eq_of_outline hout, size_eq_of_outline hout]
    exact h.hangs
  part_of_parent := by
    rw [parent_eq_of_outline hout, parts?_eq_of_outline hout]
    exact h.part_of_parent
  rises := by
    rw [parent_eq_of_outline hout, size_eq_of_outline hout]
    exact h.rises

/-! ### Growing keeps coherence -/

/-- Without tasks there is nothing to go wrong. -/
protected theorem empty : (empty : Forest S).Coherent where
  id_eq _ _ h := nomatch h
  idOf?_eq_some_iff name t := by simp [Forest.empty, idOf?, task?]
  parent_lt _ h := absurd h (Nat.not_lt_zero _)
  parent_root := rfl
  parts_ne _ _ _ h := nomatch h
  hangs _ _ _ h := nomatch h
  part_of_parent _ h := absurd rfl h
  rises _ h := absurd h (Nat.not_lt_zero _)

/-- Two links at once keep a forest coherent.  Neither part hangs anywhere yet, so that no
other link is overwritten, and neither lies above the split task, so that the ways up
from there stay clear of the new links. -/
protected theorem link (h : f.Coherent) {parent first second : TaskId}
    (hsplit : f.CanSplit parent first second) : (f.link parent first second).Coherent := by
  have hlt₁ := hsplit.first.lt_size
  have hlt₂ := hsplit.second.lt_size
  have htop : ∀ {t}, f.CanHang parent t → f.parent t = t := by
    intro t ht
    obtain ⟨task, htask, hfree⟩ := ht.free
    by_contra hne
    rw [(h.hasParent_iff htask).mpr hne] at hfree
    cases hfree
  have hparent := parent_link parent hlt₁ hlt₂
  have hparts := parts?_link hsplit.lt_size first second
  have hrange : ∀ t, t < (f.link parent first second).size →
      (f.link parent first second).parent t < (f.link parent first second).size := by
    intro t ht
    rw [size_link] at ht ⊢
    rw [hparent]
    split
    · exact hsplit.lt_size
    · exact h.parent_lt t ht
  constructor
  case parent_lt => exact hrange
  case id_eq =>
    intro t task ht
    rw [task?_link] at ht
    obtain ⟨old, hold, rfl⟩ := Option.map_eq_some_iff.mp ht
    exact h.id_eq t old hold
  case idOf?_eq_some_iff =>
    -- no name changes, and neither does the table
    intro name t
    rw [idOf?_link, h.idOf?_eq_some_iff, task?_link]
    simp only [Option.map_eq_some_iff, exists_exists_and_eq_and]
  case parent_root =>
    rw [hparent, if_neg]
    · exact h.parent_root
    · rintro (hroot | hroot)
      · exact hsplit.first.ne_root hroot.symm
      · exact hsplit.second.ne_root hroot.symm
  case parts_ne =>
    intro t a b hab
    rw [hparts] at hab
    split at hab
    · cases hab
      exact hsplit.ne
    · exact h.parts_ne t a b hab
  case hangs =>
    intro t a b hab u hu
    rw [hparts] at hab
    rw [hparent, size_link]
    split at hab
    · next ht =>
      cases hab
      rw [if_pos hu, ht]
      rcases hu with rfl | rfl
      · exact ⟨hsplit.first.ne_parent, hsplit.first.ne_root, hlt₁, rfl⟩
      · exact ⟨hsplit.second.ne_parent, hsplit.second.ne_root, hlt₂, rfl⟩
    · obtain ⟨hne, hroot, hlt, hpar⟩ := h.hangs t a b hab u hu
      refine ⟨hne, hroot, hlt, ?_⟩
      rw [if_neg, hpar]
      -- what hangs under `t` already is none of the new parts
      rintro (rfl | rfl)
      · exact hne ((htop hsplit.first).symm.trans hpar)
      · exact hne ((htop hsplit.second).symm.trans hpar)
  case part_of_parent =>
    intro t hne
    rw [hparent] at hne ⊢
    rw [hparts]
    split
    · next hpart => exact ⟨first, second, if_pos rfl, hpart⟩
    · next hpart =>
      rw [if_neg hpart] at hne
      obtain ⟨a, b, hab, ht⟩ := h.part_of_parent t hne
      refine ⟨a, b, ?_, ht⟩
      rw [if_neg, hab]
      intro heq
      rw [heq, hsplit.whole] at hab
      cases hab
  case rises =>
    intro t ht
    -- the way up may have got longer, but still comes to an end
    have hascent := (h.ascent_lineage t).link hlt₁ hlt₂ (h.ascent_lineage parent)
      (htop hsplit.first) (htop hsplit.second) hsplit.first.not_above hsplit.second.not_above
    exact rises_of_ascent hrange hascent ht

protected theorem split (h : f.Coherent) {parent : TaskId} {parts : List TaskId}
    {pair : TaskId × TaskId} (hsplit : f.split parent parts = .ok (pair, g)) : g.Coherent := by
  obtain ⟨-, hcan, rfl⟩ := split_eq_ok_iff.mp hsplit
  exact h.link hcan

variable [Scalar S]

/-- A new task hangs nowhere, and no other task bears its name. -/
protected theorem push (h : f.Coherent) {spec : TaskSpec S} (hfresh : f.idOf? spec.name = none) :
    (f.push spec).Coherent := by
  have hparent := funext (parent_push f spec)
  have hparts := funext (parts?_push f spec)
  have hsize := size_push f spec
  have hrange : ∀ t, t < f.size + 1 → f.parent t < f.size + 1 := by
    intro t ht
    rcases Nat.lt_succ_iff_lt_or_eq.mp ht with hlt | rfl
    · exact Nat.lt_succ_of_lt (h.parent_lt t hlt)
    · rwa [parent_of_size_le (Nat.le_refl _)]
  constructor
  case id_eq =>
    intro t task ht
    rw [task?_push] at ht
    split at ht
    · next hnew =>
      cases ht
      exact hnew.symm
    · exact h.id_eq t task ht
  case idOf?_eq_some_iff =>
    intro name t
    rw [idOf?_push, task?_push]
    split
    · next hname =>
      -- no task but the new one bears its name, as the name was not in the table
      rw [Option.some.injEq]
      constructor
      · rintro rfl
        exact ⟨_, if_pos rfl, hname.symm⟩
      · rintro ⟨task, htask, hnamed⟩
        split at htask
        · next hnew => exact hnew.symm
        · have hheld := (h.idOf?_eq_some_iff spec.name t).mpr ⟨task, htask, hnamed.trans hname⟩
          cases hfresh.symm.trans hheld
    · next hname =>
      rw [h.idOf?_eq_some_iff]
      split
      · next hnew =>
        refine iff_of_false ?_ ?_
        · rintro ⟨task, htask, -⟩
          exact absurd (lt_size_of_task? htask) (Nat.not_lt.mpr (Nat.le_of_eq hnew.symm))
        · rintro ⟨task, htask, hnamed⟩
          cases htask
          exact hname hnamed.symm
      · exact Iff.rfl
  case parent_lt =>
    rw [hparent, hsize]
    exact hrange
  case parent_root =>
    rw [hparent]
    exact h.parent_root
  case parts_ne =>
    rw [hparts]
    exact h.parts_ne
  case hangs =>
    rw [hparts, hparent, hsize]
    intro t first second hsplit u hu
    obtain ⟨hne, hroot, hlt, hpar⟩ := h.hangs t first second hsplit u hu
    exact ⟨hne, hroot, Nat.lt_succ_of_lt hlt, hpar⟩
  case part_of_parent =>
    rw [hparts, hparent]
    exact h.part_of_parent
  case rises =>
    intro t ht
    obtain ⟨line, hline⟩ := h.exists_ascent t
    exact rises_of_ascent (by rwa [hparent, hsize]) (hline.of_parent_eq hparent) ht

protected theorem add (h : f.Coherent) {spec : TaskSpec S} {id : TaskId}
    (hadd : f.add spec = .ok (id, g)) : g.Coherent := by
  obtain ⟨hfresh, -, rfl⟩ := add_eq_ok_iff.mp hadd
  exact h.push hfresh

protected theorem record (h : f.Coherent) {t : TaskId} {measured : S} {learn : Bool}
    (hrecord : f.record t measured learn = .ok g) : g.Coherent :=
  h.of_outline (outline_of_record hrecord)

end Coherent

/-! ### Calls -/

/-- A call that may change a forest. -/
inductive Call (S : Type) where
  /-- Declare a task. -/
  | add (spec : TaskSpec S)
  /-- Split a task into the listed parts. -/
  | split (parent : TaskId) (parts : List TaskId)
  /-- Take note that a task has run. -/
  | record (t : TaskId) (measured : S) (learn : Bool)

variable [Scalar S]

/-- The forest after a call; one that fails leaves it as it was. -/
def apply (f : Forest S) : Call S → Forest S
  | .add spec =>
    match f.add spec with
    | .ok (_, g) => g
    | .error _ => f
  | .split parent parts =>
    match f.split parent parts with
    | .ok (_, g) => g
    | .error _ => f
  | .record t measured learn =>
    match f.record t measured learn with
    | .ok g => g
    | .error _ => f

/-- The forest after a sequence of calls. -/
def run (f : Forest S) (calls : List (Call S)) : Forest S := calls.foldl apply f

theorem Coherent.apply {f : Forest S} (h : f.Coherent) (call : Call S) :
    (f.apply call).Coherent := by
  cases call with
  | add spec =>
    simp only [Forest.apply]
    split
    · next hadd => exact h.add hadd
    · exact h
  | split parent parts =>
    simp only [Forest.apply]
    split
    · next hsplit => exact h.split hsplit
    · exact h
  | record t measured learn =>
    simp only [Forest.apply]
    split
    · next hrecord => exact h.record hrecord
    · exact h

/-- **Every forest that has grown from nothing is coherent.** -/
theorem coherent_run (calls : List (Call S)) : ((empty : Forest S).run calls).Coherent := by
  suffices h : ∀ f : Forest S, f.Coherent → (f.run calls).Coherent from h _ Coherent.empty
  induction calls with
  | nil => exact fun _ h => h
  | cons call calls ih => exact fun f h => ih _ (h.apply call)

end Forest

end TaskAllocation
