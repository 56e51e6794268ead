import Mathlib.Data.List.Induction
import TaskAllocation.Allocation
import TaskAllocation.Proofs.Decomposition.Locality
import TaskAllocation.Proofs.Double.Order

/-!
# The cheapest task

The cheapest task is found by going through all tasks once: a task has to be cheaper than the
best so far to take its place.  So of the tasks that are equally cheap the first one wins, which
is the one with the lowest number.  All that is asked of the estimates is that they are numbers,
and of numbers that any two of them compare; what is not a number would never be beaten.

## Main definitions

* `Scalar.Ordered` — numbers are in order.
* `Forest.Numeric` — all estimates are numbers.
* `Forest.IsCheapest` — the task with the lowest number among the cheapest.
* `Allocation.Wins` — what is the best after some tasks have been looked at.

## Main results

* `Scalar.ordered_float` — double precision numbers are in order.
* `Allocation.wins_foldl` — looking through tasks in order finds the first cheapest.
* `Decomposition.Coherent.isCheapest_cheapest` — **the task that is taken is the cheapest.**
-/

namespace TaskAllocation

/-! ### Numbers in order -/

/-- Any two numbers compare, and the strict comparison is that of the two that excludes
the other. -/
class Scalar.Ordered (S : Type) [Scalar S] : Prop where
  le_trans {a b c : S} : a ≤ b → b ≤ c → a ≤ c
  le_total {a b : S} : Scalar.IsNumber a → Scalar.IsNumber b → a ≤ b ∨ b ≤ a
  lt_iff {a b : S} : Scalar.IsNumber a → Scalar.IsNumber b → (a < b ↔ ¬ b ≤ a)

namespace Scalar

/-- **Double precision numbers are in order**, infinities and both zeros included. -/
instance ordered_float : Ordered Float where
  le_trans := Double.le_trans
  le_total hx hy := by
    obtain ⟨-, p, hp⟩ := Double.exists_stands_of_le hx
    obtain ⟨-, q, hq⟩ := Double.exists_stands_of_le hy
    exact (LinearOrder.le_total p q).imp (hp.le_iff hq).mpr (hq.le_iff hp).mpr
  lt_iff hx hy := by
    obtain ⟨-, p, hp⟩ := Double.exists_stands_of_le hx
    obtain ⟨-, q, hq⟩ := Double.exists_stands_of_le hy
    exact (hp.lt_iff hq).trans (not_le.symm.trans (not_congr (hq.le_iff hp).symm))

namespace Ordered

variable {S : Type} [Scalar S] [Ordered S] {a b c : S}

theorem le_of_lt (ha : IsNumber a) (hb : IsNumber b) (h : a < b) : a ≤ b :=
  (le_total ha hb).resolve_right ((lt_iff ha hb).mp h)

theorem le_of_not_lt (ha : IsNumber a) (hb : IsNumber b) (h : ¬ a < b) : b ≤ a := by
  rw [lt_iff ha hb, not_not] at h
  exact h

theorem lt_of_lt_of_le (ha : IsNumber a) (hb : IsNumber b) (hc : IsNumber c) (hab : a < b)
    (hbc : b ≤ c) : a < c := by
  rw [lt_iff ha hc]
  intro hca
  exact (lt_iff ha hb).mp hab (le_trans hbc hca)

end Ordered

end Scalar

/-! ### The cheapest of all tasks -/

namespace Forest

variable {S : Type} [Scalar S] {f f' : Forest S} {g t : TaskId}

/-- All estimates are numbers. -/
def Numeric (f : Forest S) : Prop := ∀ t < f.size, Scalar.IsNumber (f.estimate t)

/-- Task `g` is the first of the cheapest tasks. -/
structure IsCheapest (f : Forest S) (g : TaskId) : Prop where
  /-- It is a task. -/
  lt_size : g < f.size
  /-- No task is cheaper. -/
  le : ∀ t < f.size, f.estimate g ≤ f.estimate t
  /-- Those with lower numbers are dearer. -/
  lt : ∀ t < g, f.estimate g < f.estimate t

/-- Of two such tasks the one with the lower number would be dearer than the other. -/
theorem IsCheapest.not_lt [Scalar.Ordered S] (hg : f.IsCheapest g) (ht : f.IsCheapest t) :
    ¬ g < t := by
  intro hgt
  have hnumber : ∀ {u}, f.IsCheapest u → Scalar.IsNumber (f.estimate u) :=
    fun h => h.le _ h.lt_size
  have hdearer := (Scalar.Ordered.lt_iff (hnumber ht) (hnumber hg)).mp (ht.lt g hgt)
  exact hdearer (hg.le t ht.lt_size)

/-- There is one such task. -/
theorem IsCheapest.unique [Scalar.Ordered S] (hg : f.IsCheapest g) (ht : f.IsCheapest t) :
    g = t :=
  Nat.le_antisymm (Nat.not_lt.mp (ht.not_lt hg)) (Nat.not_lt.mp (hg.not_lt ht))

/-- Which task it is, is a matter of the estimates alone. -/
theorem IsCheapest.congr (h : f.IsCheapest g) (hsize : f'.size = f.size)
    (hestimate : ∀ t, f'.estimate t = f.estimate t) : f'.IsCheapest g where
  lt_size := by rw [hsize]; exact h.lt_size
  le t ht := by
    rw [hestimate, hestimate]
    exact h.le t (hsize ▸ ht)
  lt t ht := by
    rw [hestimate, hestimate]
    exact h.lt t ht

end Forest

namespace Allocation

variable {S : Type} [Scalar S] {seen tasks : List (Task S)} {b t : Task S}

/-! ### Looking through tasks in order -/

/-- Of the tasks that have been looked at, those before task `b` are dearer, and those after it
are no cheaper. -/
inductive Wins (seen : List (Task S)) (b : Task S) : Prop
  | intro {front back : List (Task S)} (hseen : seen = front ++ b :: back)
      (hfront : ∀ t ∈ front, b.estimate.value < t.estimate.value)
      (hback : ∀ t ∈ back, b.estimate.value ≤ t.estimate.value)

/-- The estimates of all these tasks are numbers. -/
def Numeric (tasks : List (Task S)) : Prop := ∀ t ∈ tasks, Scalar.IsNumber t.estimate.value

variable [Scalar.Ordered S]

theorem Wins.le (hnumeric : Numeric seen) (h : Wins seen b) :
    ∀ t ∈ seen, b.estimate.value ≤ t.estimate.value := by
  intro t ht
  obtain ⟨hseen, hfront, hback⟩ := h
  have hb : Scalar.IsNumber b.estimate.value := hnumeric b (by simp [hseen])
  rw [hseen, List.mem_append, List.mem_cons] at ht
  rcases ht with hbefore | rfl | hafter
  · exact Scalar.Ordered.le_of_lt hb (hnumeric t (by simp [hseen, hbefore])) (hfront t hbefore)
  · exact hb
  · exact hback t hafter

/-- Looking at one more task: it takes the place of the best if it is cheaper than that, and so
than all before it, and stays behind it if not. -/
theorem Wins.step (hnumeric : Numeric (seen ++ [t])) (h : Wins seen b) :
    ∃ best, cheaper (some b) t = some best ∧ Wins (seen ++ [t]) best := by
  have hseen : Numeric seen := fun u hu => hnumeric u (List.mem_append_left _ hu)
  have ht : Scalar.IsNumber t.estimate.value := hnumeric t (by simp)
  by_cases hlt : t.estimate.value < b.estimate.value
  · refine ⟨t, if_pos hlt, .intro rfl ?_ (by simp)⟩
    intro u hu
    have hle := h.le hseen u hu
    obtain ⟨rfl, -, -⟩ := h
    exact Scalar.Ordered.lt_of_lt_of_le ht (hseen b (by simp)) (hseen u hu) hlt hle
  · refine ⟨b, if_neg hlt, ?_⟩
    obtain ⟨rfl, hfront, hback⟩ := h
    refine .intro (by rw [List.append_assoc, List.cons_append]) hfront ?_
    intro u hu
    rcases List.mem_append.mp hu with hu | hu
    · exact hback u hu
    · rw [List.mem_singleton.mp hu]
      exact Scalar.Ordered.le_of_not_lt ht (hseen b (by simp)) hlt

/-- **Looking through tasks in order finds the first cheapest.** -/
theorem wins_foldl (hnumeric : Numeric tasks) (hne : tasks ≠ []) :
    ∃ b, tasks.foldl cheaper none = some b ∧ Wins tasks b := by
  induction tasks using List.reverseRecOn with
  | nil => exact absurd rfl hne
  | append_singleton seen t ih =>
    rw [List.foldl_append]
    rcases List.eq_nil_or_concat seen with rfl | ⟨_, _, rfl⟩
    · exact ⟨t, rfl, .intro (List.nil_append [t]).symm (by simp) (by simp)⟩
    · obtain ⟨b, hb, hwins⟩ :=
        ih (fun u hu => hnumeric u (List.mem_append_left _ hu)) (by simp)
      rw [hb]
      exact hwins.step hnumeric

end Allocation

namespace Decomposition.Coherent

variable {S : Type} [Scalar S] [Scalar.Ordered S] {d : Decomposition S}

/-- **The task that is taken is the cheapest**, and the first among equals: the place of a task
is its number. -/
theorem isCheapest_cheapest (h : d.Coherent) (hnumeric : d.forest.Numeric) :
    d.forest.IsCheapest (Allocation.cheapest d) := by
  have hlookup : ∀ t task, d.forest.tasks.toList[t]? = some task →
      task.id = t ∧ t < d.forest.size ∧ d.forest.estimate t = task.estimate.value := by
    intro t task htask
    rw [Array.getElem?_toList] at htask
    exact ⟨h.forest.id_eq t task htask, Forest.lt_size_of_task? htask,
      Forest.estimate_of_task? htask⟩
  have hnumbers : Allocation.Numeric d.forest.tasks.toList := by
    intro task hmem
    obtain ⟨t, ht⟩ := List.mem_iff_getElem?.mp hmem
    obtain ⟨-, hlt, hestimate⟩ := hlookup t task ht
    rw [← hestimate]
    exact hnumeric t hlt
  have hne : d.forest.tasks.toList ≠ [] := by
    intro hnil
    have hpos := h.size_pos
    rw [Forest.size, ← Array.length_toList, hnil] at hpos
    exact absurd hpos (Nat.lt_irrefl 0)
  obtain ⟨b, hb, hwins⟩ := Allocation.wins_foldl hnumbers hne
  have hle := hwins.le hnumbers
  obtain @⟨front, back, hsplit, hfront, -⟩ := hwins
  -- the best stands where the tasks before it end
  have hplace : d.forest.tasks.toList[front.length]? = some b := by
    rw [hsplit, List.getElem?_append_right (Nat.le_refl _), Nat.sub_self]
    rfl
  obtain ⟨hid, hlt, hestimate⟩ := hlookup _ _ hplace
  have hcheapest : Allocation.cheapest d = front.length := by
    rw [Allocation.cheapest, hb]
    exact hid
  rw [hcheapest]
  refine ⟨hlt, fun t ht => ?_, fun t ht => ?_⟩
  · obtain ⟨task, htask⟩ := Forest.exists_task? ht
    rw [hestimate, Forest.estimate_of_task? htask]
    exact hle task (List.mem_of_getElem? (by rw [Array.getElem?_toList]; exact htask))
  · have htask : d.forest.tasks.toList[t]? = some front[t] := by
      rw [hsplit, List.getElem?_append_left ht, List.getElem?_eq_getElem ht]
    rw [hestimate, (hlookup _ _ htask).2.2]
    exact hfront _ (List.getElem_mem ht)

end Decomposition.Coherent

end TaskAllocation
