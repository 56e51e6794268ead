import TaskAllocation.Proofs.Config.Topology
import TaskAllocation.Proofs.Decomposition.Renumbering

/-!
# The order of the entries

The first entry of a configuration is the root.  In which order the others stand decides how
tasks and blocks are numbered, which links are made first, and what every check sees at its
time; yet it decides neither whether the configuration can be built nor what is built, apart
from the numbers.

## Main definitions

* `Config.withTasks` — a configuration with other tasks.
* `Config.Matches` — the same entry stands at two places of two configurations.

## Main results

* `Config.renumbering_of_perm` — places with the same entry have corresponding tasks.
* `Config.decomposition_perm` — **the order of the entries does not matter.**
-/

namespace TaskAllocation

namespace Config

variable {S : Type}

/-- A configuration with other tasks. -/
def withTasks (c : Config S) (tasks : List (TaskEntry S)) : Config S := { c with tasks := tasks }

@[simp]
theorem tasks_withTasks (c : Config S) (tasks : List (TaskEntry S)) :
    (c.withTasks tasks).tasks = tasks := rfl

@[simp]
theorem alpha_withTasks (c : Config S) (tasks : List (TaskEntry S)) :
    (c.withTasks tasks).alpha = c.alpha := rfl

/-- The same entry stands at place `t` of `c` and at place `u` of `c'`. -/
def Matches (c c' : Config S) (t u : TaskId) : Prop :=
  ∃ entry, c.tasks[t]? = some entry ∧ c'.tasks[u]? = some entry

section Matches

variable {c c' : Config S} (hperm : c.tasks.Perm c'.tasks)

include hperm

/-- Every entry stands in both configurations. -/
theorem exists_matches {t : TaskId} (ht : t < c.tasks.length) : ∃ u, Matches c c' t u := by
  have hmem : c.tasks[t] ∈ c'.tasks := hperm.mem_iff.mp (List.getElem_mem ht)
  obtain ⟨u, hu⟩ := List.mem_iff_getElem?.mp hmem
  exact ⟨u, c.tasks[t], List.getElem?_eq_getElem ht, hu⟩

/-- Two places where entries of one name stand have the same entry, if no name is borne
twice. -/
theorem matches_of_isNamed (hnodup : (c'.tasks.map (·.name)).Nodup) {t u : TaskId} {name : String}
    (ht : c.IsNamed t name) (hu : c'.IsNamed u name) : Matches c c' t u := by
  obtain ⟨entry, hentry, rfl⟩ := ht
  obtain ⟨other, hother, hname⟩ := hu
  have hmem : entry ∈ c'.tasks := hperm.mem_iff.mp (List.mem_of_getElem? hentry)
  obtain rfl := List.inj_on_of_nodup_map hnodup (List.mem_of_getElem? hother) hmem hname
  exact ⟨other, hentry, hother⟩

end Matches

variable [Scalar S]

/-- A configuration can be built if its tasks form a tree, and only then. -/
theorem exists_decomposition_iff {c : Config S} {root : TaskEntry S} {rest : List (TaskEntry S)}
    (hc : c.tasks = root :: rest) : (∃ d, c.decomposition = .ok d) ↔ IsTree root rest := by
  constructor
  · rintro ⟨d, hd⟩
    obtain ⟨_, _, -, hreflects, hvalid⟩ := reflects_of_decomposition hd
    exact hreflects.isTree hvalid hc
  · intro htree
    exact exists_decomposition htree hc

section Built

variable {c c' : Config S} {d e : Decomposition S}

/-- **Places with the same entry have corresponding tasks**: their names and estimates are
those of the entry, and so are the names of their parts. -/
theorem renumbering_of_perm (hperm : c.tasks.Perm c'.tasks) (halpha : c.alpha = c'.alpha)
    (hd : Reflects c c.tasks.length c.tasks.length d)
    (he : Reflects c' c'.tasks.length c'.tasks.length e) :
    Forest.Renumbering d.forest e.forest (Matches c c') where
  size_eq := by rw [hd.size_eq, he.size_eq, hperm.length_eq]
  exists_right t ht := exists_matches hperm (hd.size_eq ▸ ht)
  exists_left u hu := by
    obtain ⟨t, entry, hu, ht⟩ := exists_matches hperm.symm (he.size_eq ▸ hu)
    exact ⟨t, entry, ht, hu⟩
  task t u hmatch := by
    obtain ⟨entry, ht, hu⟩ := hmatch
    obtain ⟨task, htask, hname, hestimate⟩ := hd.task_of_entry t entry (lt_length_of_entry ht) ht
    obtain ⟨other, hother, hname', hestimate'⟩ :=
      he.task_of_entry u entry (lt_length_of_entry hu) hu
    refine ⟨task, other, htask, hother, hname.trans hname'.symm, ?_⟩
    rw [hestimate, hestimate', halpha]
  parts t u hmatch := by
    obtain ⟨entry, ht, hu⟩ := hmatch
    have hnodup := he.names_nodup
    rcases hd.parts_of_entry t entry (lt_length_of_entry ht) ht with
      ⟨hnil, hnone⟩ | ⟨first, second, a, b, hlist, ha, hb, hparts⟩ <;>
    rcases he.parts_of_entry u entry (lt_length_of_entry hu) hu with
      ⟨hnil', hnone'⟩ | ⟨first', second', a', b', hlist', ha', hb', hparts'⟩
    · rw [hnone, hnone']
      exact .none
    · cases hnil.symm.trans hlist'
    · cases hnil'.symm.trans hlist
    · cases hlist.symm.trans hlist'
      rw [hparts, hparts']
      exact .some ⟨matches_of_isNamed hperm hnodup ha ha', matches_of_isNamed hperm hnodup hb hb'⟩

/-- The focus is at the block of the root, if there is any block. -/
theorem focusName?_eq {root : TaskEntry S} {rest : List (TaskEntry S)}
    (hc : c.tasks = root :: rest) (h : Reflects c c.tasks.length c.tasks.length d)
    (hvalid : d.validate = .ok ()) :
    d.focusName? = if d.blocks.size = 0 then none else some (some root.name) := by
  unfold Decomposition.focusName? Decomposition.focused?
  by_cases hblocks : d.blocks.size = 0
  · rw [h.coherent.focus_eq_none_iff.mpr hblocks, if_pos hblocks]
    rfl
  · obtain ⟨k, b, hfocus, hb, hroot⟩ := h.exists_focus hvalid (Nat.pos_of_ne_zero hblocks)
    have hentry : c.tasks[Forest.root]? = some root := by rw [hc]; rfl
    obtain ⟨task, htask, hname, -⟩ :=
      h.task_of_entry Forest.root root (lt_length_of_entry hentry) hentry
    rw [hfocus, if_neg hblocks, Option.bind_some, hb, Option.map_some, hroot, Forest.name?, htask,
      Option.map_some, hname]

end Built

/-- **The order of the entries does not matter**, apart from that of the first: whether the
configuration can be built, and what can be said by names of what is built. -/
theorem decomposition_perm (c : Config S) (root : TaskEntry S) {rest rest' : List (TaskEntry S)}
    (hperm : rest.Perm rest') :
    ((∃ d, (c.withTasks (root :: rest)).decomposition = .ok d) ↔
        ∃ e, (c.withTasks (root :: rest')).decomposition = .ok e) ∧
      ∀ d e, (c.withTasks (root :: rest)).decomposition = .ok d →
        (c.withTasks (root :: rest')).decomposition = .ok e → d.SameByName e := by
  constructor
  · rw [exists_decomposition_iff rfl, exists_decomposition_iff rfl]
    exact ⟨fun h => h.perm hperm, fun h => h.perm hperm.symm⟩
  · intro d e hd he
    obtain ⟨_, _, hc, hd, hvalid⟩ := reflects_of_decomposition hd
    obtain ⟨_, _, hc', he, hvalid'⟩ := reflects_of_decomposition he
    cases hc
    cases hc'
    have hall : (c.withTasks (root :: rest)).tasks.Perm (c.withTasks (root :: rest')).tasks :=
      hperm.cons root
    have hnum := renumbering_of_perm hall rfl hd he
    have hblocks : d.blocks.size = e.blocks.size := by
      simpa using (hd.coherent.blockNames_perm he.coherent hnum).length_eq
    refine hd.coherent.sameByName he.coherent hnum ⟨root, rfl, rfl⟩ ?_
    rw [focusName?_eq rfl hd hvalid, focusName?_eq rfl he hvalid', hblocks]

/-- The tasks of the standard configuration, those after the first from back to front. -/
theorem decomposition_perm_standard :
    ∃ root rest, (standardTasks : List (TaskEntry Float)) = root :: rest ∧
      ∃ d e, ((standard : Config Float).withTasks (root :: rest)).decomposition = .ok d ∧
        ((standard : Config Float).withTasks (root :: rest.reverse)).decomposition = .ok e ∧
          d.SameByName e := by
  have hok : (standard : Config Float).decomposition.isOk = true := by decide +kernel
  refine ⟨_, _, rfl, ?_⟩
  obtain ⟨d, hd⟩ := Except.exists_of_isOk hok
  obtain ⟨hbuilt, hsame⟩ := decomposition_perm (standard : Config Float) _
    (List.reverse_perm _).symm
  obtain ⟨e, he⟩ := hbuilt.mp ⟨d, hd⟩
  exact ⟨d, e, hd, he, hsame d e hd he⟩

end Config

end TaskAllocation
