import TaskAllocation.NameTable
import Mathlib.Data.List.Nodup

/-!
# What a table of names holds

A table is asked by name, and answers with what was entered last under the name.  Nothing is
lost: as long as names differ, entering them one after another is sorting them.

## Main results

* `NameTable.lookup_enter` — **the last entry under a name counts.**
* `NameTable.ofList_eq_mergeSort` — entering names that differ is sorting them.
-/

namespace TaskAllocation

namespace NameTable

variable {α : Type} {name : String} {x : α} {table : List (String × α)}

/-! ### Asking a table -/

theorem lookup_cons (other : String) :
    ((name, x) :: table).lookup other = if other = name then some x else table.lookup other := by
  rw [List.lookup_cons]
  split
  · next heq => rw [if_pos (beq_iff_eq.mp heq)]
  · next hne => rw [if_neg (beq_eq_false_iff_ne.mp hne)]

/-- **The last entry under a name counts**, and those under other names stay. -/
theorem lookup_enter (other : String) :
    (enter name x table).lookup other = if other = name then some x else table.lookup other := by
  induction table with
  | nil => exact lookup_cons other
  | cons p table ih =>
    obtain ⟨held, y⟩ := p
    unfold enter
    split
    · exact lookup_cons other
    · split
      · next heq =>
        subst heq
        rw [lookup_cons, lookup_cons]
        split <;> rfl
      · next hne =>
        rw [lookup_cons, ih, lookup_cons]
        split
        · next heq => rw [if_neg fun h => hne (h.symm.trans heq)]
        · rfl

/-- Where no name is there twice, an entry is found under its name. -/
theorem lookup_eq_some (hnames : (table.map (·.1)).Nodup)
    (hmem : (name, x) ∈ table) : table.lookup name = some x := by
  induction table with
  | nil => cases hmem
  | cons p table ih =>
    rw [List.map_cons, List.nodup_cons] at hnames
    rcases List.mem_cons.mp hmem with rfl | hmem
    · exact List.lookup_cons_self
    · have hne : name ≠ p.1 := by
        rintro rfl
        exact hnames.1 (List.mem_map.mpr ⟨_, hmem, rfl⟩)
      rw [lookup_cons, if_neg hne]
      exact ih hnames.2 hmem

/-! ### Names in order -/

/-- A new name loses no entry. -/
theorem enter_perm (hnew : name ∉ table.map (·.1)) :
    (enter name x table).Perm ((name, x) :: table) := by
  induction table with
  | nil => exact .refl _
  | cons p table ih =>
    obtain ⟨other, y⟩ := p
    rw [List.map_cons, List.mem_cons, not_or] at hnew
    obtain ⟨hne, hnew⟩ := hnew
    unfold enter
    split
    · exact .refl _
    · exact ((ih hnew).cons _).trans (.swap _ _ _)

/-- A name finds its place. -/
theorem enter_sorted (hnew : name ∉ table.map (·.1))
    (hsorted : table.Pairwise fun a b => a.1 ≤ b.1) :
    (enter name x table).Pairwise fun a b => a.1 ≤ b.1 := by
  induction table with
  | nil => exact List.pairwise_singleton _ _
  | cons p table ih =>
    obtain ⟨other, y⟩ := p
    have hhead : ∀ q ∈ table, other ≤ q.1 := fun q hq => List.rel_of_pairwise_cons hsorted hq
    rw [List.map_cons, List.mem_cons, not_or] at hnew
    obtain ⟨hne, hnew⟩ := hnew
    unfold enter
    split
    · next hlt =>
      have hle : name ≤ other := String.not_lt.mp (String.lt_asymm hlt)
      refine List.pairwise_cons.mpr ⟨fun q hq => ?_, hsorted⟩
      rcases List.mem_cons.mp hq with rfl | hq
      · exact hle
      · exact String.le_trans hle (hhead q hq)
    · next hge =>
      refine List.pairwise_cons.mpr ⟨fun q hq => ?_, ih hnew hsorted.of_cons⟩
      rcases List.mem_cons.mp ((enter_perm hnew).mem_iff.mp hq) with rfl | hq
      · exact String.not_lt.mp hge
      · exact hhead q hq

theorem foldl_enter (table : List (String × α)) {entries : List (String × α)}
    (hnames : ((table ++ entries).map (·.1)).Nodup)
    (hsorted : table.Pairwise fun a b => a.1 ≤ b.1) :
    (entries.foldl (fun table p => enter p.1 p.2 table) table).Perm (table ++ entries) ∧
      (entries.foldl (fun table p => enter p.1 p.2 table) table).Pairwise
        fun a b => a.1 ≤ b.1 := by
  induction entries generalizing table with
  | nil => exact ⟨by simp, hsorted⟩
  | cons p entries ih =>
    have hnew : p.1 ∉ table.map (·.1) := by
      rw [List.map_append, List.map_cons] at hnames
      exact fun hmem => (List.nodup_append.mp hnames).2.2 _ hmem _ List.mem_cons_self rfl
    have hperm : (enter p.1 p.2 table ++ entries).Perm (table ++ p :: entries) :=
      ((enter_perm hnew).append_right entries).trans List.perm_middle.symm
    obtain ⟨hall, hafter⟩ := ih _ ((hperm.map (·.1)).nodup_iff.mpr hnames)
      (enter_sorted hnew hsorted)
    exact ⟨hall.trans hperm, hafter⟩

/-- **Entering names that differ is sorting them.** -/
theorem ofList_eq_mergeSort {entries : List (String × α)} (hnames : (entries.map (·.1)).Nodup) :
    ofList entries = entries.mergeSort fun a b => decide (a.1 ≤ b.1) := by
  obtain ⟨hperm, hsorted⟩ := foldl_enter [] hnames .nil
  have hmerged : (entries.mergeSort fun a b => decide (a.1 ≤ b.1)).Pairwise fun a b =>
      decide (a.1 ≤ b.1) = true := by
    refine List.pairwise_mergeSort (fun a b c hab hbc => ?_) (fun a b => ?_) entries
    · simpa using String.le_trans (by simpa using hab) (by simpa using hbc)
    · simpa using String.le_total a.1 b.1
  refine List.Perm.eq_of_pairwise ?_ hsorted ?_
    (hperm.trans (List.mergeSort_perm _ _).symm)
  · -- two entries under one name are one
    intro a b ha hb hab hba
    have hname : a.1 = b.1 := String.le_antisymm hab hba
    have ha' : a ∈ entries := by simpa using hperm.mem_iff.mp ha
    exact List.inj_on_of_nodup_map hnames ha' (List.mem_mergeSort.mp hb) hname
  · exact hmerged.imp fun hle => by simpa using hle

end NameTable

end TaskAllocation
