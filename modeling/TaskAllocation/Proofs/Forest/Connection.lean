import TaskAllocation.Proofs.Exact
import TaskAllocation.Proofs.Forest.Descent

/-!
# What hangs under the root

A forest grows by calls, on its own or as that of a decomposition, and the calls may link the
tasks in any order.  Whatever has been linked so far, the walk from the root meets the tasks that
have the root above them, each of them once and before its parts.  It meets all tasks if and only
if the forest is accepted as one tree.  A task that is named when it is not accepted is one that
the walk does not meet.

## Main definitions

* `Forest.Grown` — the forests that calls can lead to.

## Main results

* `Forest.preorder_exact` — **what the walk from the root meets, and what that says about the
  forest.**
-/

namespace TaskAllocation

namespace Forest

variable {S : Type} [Scalar S]

/-- A forest that has grown by calls. -/
inductive Grown : Forest S → Prop
  /-- It has grown on its own. -/
  | alone (calls : List (Call S)) : Grown (empty.run calls)
  /-- It has grown as the forest of a decomposition. -/
  | within {R : Type} [IndexSource R] [UnitSource R S] (root : TaskSpec S) (curve : Logistic S)
      (calls : List (Decomposition.Call S R)) :
      Grown ((Decomposition.single root curve).run calls).forest

theorem Grown.coherent {f : Forest S} (h : f.Grown) : f.Coherent := by
  cases h with
  | alone calls => exact coherent_run calls
  | within root curve calls =>
    exact ((Decomposition.Coherent.single root curve).run calls).forest

/-- **What the walk from the root meets, and what that says about the forest.**  However the
forest has grown, the walk is the descent of the root, and its stack is empty after one step for
every task.  It meets no task twice, and of all tasks those from which the way up leads to the
root.  The forest is accepted as one tree exactly if that is every task there is; a task that is
said to be disconnected is the first that hangs nowhere, and is not met. -/
theorem preorder_exact {f : Forest S} (hf : f.Grown) :
    (f.size = 0 → f.preorder = []) ∧
      (0 < f.size → (∀ order, f.Descent root order ↔ order = f.preorder) ∧
        ∀ bound, f.size ≤ bound → f.visit bound [root] = f.preorder) ∧
      f.preorder.Nodup ∧
      (∀ t, t ∈ f.preorder ↔ t < f.size ∧ ∃ n, f.parent^[n] t = root) ∧
      (f.validate = .ok () ↔ 0 < f.size ∧ f.preorder.Perm (List.range f.size)) ∧
      (∀ i, f.validate = .error (.disconnected i) ↔ f.IsFirstStray i) ∧
      ∀ i, f.IsFirstStray i → i ∉ f.preorder := by
  have h := hf.coherent
  refine ⟨preorder_of_size_eq_zero, ?_, h.nodup_preorder, ?_, h.validate_eq_ok_iff_perm, ?_, ?_⟩
  · intro hpos
    have hd := h.descent_preorder hpos
    refine ⟨?_, ?_⟩
    · intro order
      constructor
      · intro horder
        exact horder.unique hd
      · rintro rfl
        exact hd
    · intro bound hbound
      exact h.visit_eq_preorder hpos hbound
  · intro t
    rw [h.mem_preorder_iff, h.mem_lineage_iff]
  · intro i
    exact h.validate_eq_disconnected_iff
  · intro i hi
    exact h.not_mem_preorder hi.pos hi.top

section Example

attribute [local instance] Scalar.rational

/-- Calls that declare six tasks and grow two trees of three, the second of which hangs nowhere. -/
def twoTreeCalls : List (Call ℚ) := [
  .add ⟨"root", 0.5, 4⟩, .add ⟨"spare", 0.5, 4⟩, .add ⟨"left", 0.5, 2⟩, .add ⟨"right", 0.5, 2⟩,
  .add ⟨"pull", 0.5, 1⟩, .add ⟨"push", 0.5, 1⟩, .split 1 [4, 5], .split 0 [2, 3]]

/-- The walk meets the tasks of the first tree, and the head of the second is named. -/
theorem preorder_exact_two_trees :
    (empty.run twoTreeCalls).Descent root [0, 2, 3] ∧
      (empty.run twoTreeCalls).IsFirstStray 1 ∧ 1 ∉ (empty.run twoTreeCalls).preorder := by
  obtain ⟨-, hdescent, -, -, -, hstray, hmissed⟩ := preorder_exact (.alone twoTreeCalls)
  have horder : [0, 2, 3] = (empty.run twoTreeCalls).preorder := by decide +kernel
  have hone : (empty.run twoTreeCalls).validate = .error (.disconnected 1) := by decide +kernel
  have hfirst := (hstray 1).mp hone
  exact ⟨((hdescent (by decide +kernel)).1 _).mpr horder, hfirst, hmissed 1 hfirst⟩

end Example

end Forest

end TaskAllocation
