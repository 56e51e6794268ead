import Mathlib.Data.List.Nodup
import Mathlib.Logic.Relation
import TaskAllocation.Config

/-!
# Tasks that form a tree

What a configuration has to say about its tasks for them to form a binary tree under the
first: a task is named in one list of parts, the first task in none, and all tasks are
reached from the first.  Then no task is reached from itself.

## Main definitions

* `Config.Lists` — a task has a part of a given name.
* `Config.IsTree` — the tasks form a binary tree under the first.

## Main results

* `Config.IsTree.not_returns` — no way down leads back to where it began.
* `Config.IsTree.perm` — the tasks after the first may stand in any order.
-/

namespace TaskAllocation

/-- Lists joined together repeat nothing if none of them does and no two have anything in
common. -/
theorem nodup_flatMap_iff_getElem? {α β : Type} {l : List α} {f : α → List β} :
    (l.flatMap f).Nodup ↔ (∀ a ∈ l, (f a).Nodup) ∧
      ∀ (i j : Nat) (a b : α) (x : β), l[i]? = some a → l[j]? = some b → x ∈ f a → x ∈ f b →
        i = j := by
  rw [List.nodup_flatMap, List.pairwise_iff_getElem]
  refine and_congr_right fun _ => ⟨?_, ?_⟩
  · intro h i j a b x hi hj ha hb
    obtain ⟨hilt, rfl⟩ := List.getElem?_eq_some_iff.mp hi
    obtain ⟨hjlt, rfl⟩ := List.getElem?_eq_some_iff.mp hj
    rcases Nat.lt_trichotomy i j with hlt | heq | hgt
    · exact (h i j hilt hjlt hlt ha hb).elim
    · exact heq
    · exact (h j i hjlt hilt hgt hb ha).elim
  · intro h i j hi hj hlt x ha hb
    exact Nat.ne_of_lt hlt
      (h i j _ _ x (List.getElem?_eq_getElem hi) (List.getElem?_eq_getElem hj) ha hb)

namespace Config

variable {S : Type}

/-- The task named `above` has a part named `part`. -/
def Lists (tasks : List (TaskEntry S)) (above part : String) : Prop :=
  ∃ entry ∈ tasks, entry.name = above ∧ part ∈ entry.parts

/-- The tasks form a binary tree under the first. -/
structure IsTree (root : TaskEntry S) (rest : List (TaskEntry S)) : Prop where
  /-- No two tasks bear one name. -/
  names_nodup : ((root :: rest).map (·.name)).Nodup
  /-- A task has no parts or two. -/
  parts_length : ∀ entry ∈ root :: rest, entry.parts.length = 0 ∨ entry.parts.length = 2
  /-- Parts are tasks. -/
  parts_declared : ∀ entry ∈ root :: rest, ∀ part ∈ entry.parts,
    part ∈ (root :: rest).map (·.name)
  /-- The first task is no part. -/
  root_notMem : ∀ entry ∈ root :: rest, root.name ∉ entry.parts
  /-- Every other task is a part once. -/
  count_eq_one : ∀ entry ∈ rest, ((root :: rest).flatMap (·.parts)).count entry.name = 1
  /-- Every task is reached from the first. -/
  reachable : ∀ entry ∈ root :: rest,
    Relation.ReflTransGen (Lists (root :: rest)) root.name entry.name

namespace IsTree

variable {root : TaskEntry S} {rest : List (TaskEntry S)}

/-- No part is listed twice. -/
theorem parts_nodup (h : IsTree root rest) : ((root :: rest).flatMap (·.parts)).Nodup := by
  refine List.nodup_iff_count_le_one.mpr fun name => ?_
  by_cases hmem : name ∈ (root :: rest).flatMap (·.parts)
  · obtain ⟨entry, hentry, hpart⟩ := List.mem_flatMap.mp hmem
    obtain ⟨task, htask, rfl⟩ := List.mem_map.mp (h.parts_declared entry hentry name hpart)
    rcases List.mem_cons.mp htask with rfl | htask
    · exact absurd hpart (h.root_notMem entry hentry)
    · exact Nat.le_of_eq (h.count_eq_one task htask)
  · rw [List.count_eq_zero.mpr hmem]
    exact Nat.zero_le 1

/-- There is one list of parts that a part is in. -/
theorem part_unique (h : IsTree root rest) {i j : Nat} {entry other : TaskEntry S}
    {part : String} (hi : (root :: rest)[i]? = some entry) (hj : (root :: rest)[j]? = some other)
    (hpart : part ∈ entry.parts) (hpart' : part ∈ other.parts) : i = j :=
  (nodup_flatMap_iff_getElem?.mp h.parts_nodup).2 i j entry other part hi hj hpart hpart'

theorem lists_unique (h : IsTree root rest) {above other part : String}
    (habove : Lists (root :: rest) above part) (hother : Lists (root :: rest) other part) :
    above = other := by
  obtain ⟨entry, hentry, rfl, hpart⟩ := habove
  obtain ⟨entry', hentry', rfl, hpart'⟩ := hother
  obtain ⟨i, hi⟩ := List.mem_iff_getElem?.mp hentry
  obtain ⟨j, hj⟩ := List.mem_iff_getElem?.mp hentry'
  obtain rfl := h.part_unique hi hj hpart hpart'
  rw [Option.some.inj (hi.symm.trans hj)]

/-- **No way down leads back to where it began.**  A task on such a way would have the task
above it on the way, and so on up to the first task, which has none above. -/
theorem not_returns (h : IsTree root rest) {name : String}
    (hname : Relation.ReflTransGen (Lists (root :: rest)) root.name name) :
    ¬ Relation.TransGen (Lists (root :: rest)) name name := by
  induction hname with
  | refl =>
    -- the last step back would be into the first task
    intro hreturn
    obtain ⟨above, -, entry, hentry, -, hpart⟩ := Relation.TransGen.tail'_iff.mp hreturn
    exact h.root_notMem entry hentry hpart
  | tail _ hlist ih =>
    -- the last step back is from the same task as the step here
    intro hreturn
    obtain ⟨above, hway, hlast⟩ := Relation.TransGen.tail'_iff.mp hreturn
    obtain rfl := h.lists_unique hlist hlast
    exact ih (.head' hlist hway)

/-- Only the first task has a place of its own; the others may stand in any order. -/
protected theorem perm (h : IsTree root rest) {rest' : List (TaskEntry S)}
    (hperm : rest.Perm rest') : IsTree root rest' := by
  have hall : (root :: rest).Perm (root :: rest') := hperm.cons root
  have hlists : Lists (root :: rest') = Lists (root :: rest) := by
    funext above part
    simp only [Lists, hall.mem_iff]
  constructor
  case names_nodup => exact (hall.map (·.name)).nodup_iff.mp h.names_nodup
  case parts_length =>
    intro entry hentry
    exact h.parts_length entry (hall.mem_iff.mpr hentry)
  case parts_declared =>
    intro entry hentry part hpart
    rw [← (hall.map (·.name)).mem_iff]
    exact h.parts_declared entry (hall.mem_iff.mpr hentry) part hpart
  case root_notMem =>
    intro entry hentry
    exact h.root_notMem entry (hall.mem_iff.mpr hentry)
  case count_eq_one =>
    intro entry hentry
    rw [← (hall.flatMap_right (·.parts)).count_eq]
    exact h.count_eq_one entry (hperm.mem_iff.mpr hentry)
  case reachable =>
    intro entry hentry
    rw [hlists]
    exact h.reachable entry (hall.mem_iff.mpr hentry)

end IsTree

end Config

end TaskAllocation
