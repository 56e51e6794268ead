import TaskAllocation.Proofs.Config.Hierarchy
import TaskAllocation.Proofs.Config.Reflection

/-!
# Which configurations describe a tree

A configuration is built step by step, and every step makes checks of its own: names must
be new, parts must exist, hang nowhere and not lie above.  Taken together these checks and
the last one, that everything hangs somewhere, accept the binary trees and nothing else,
in whatever order the entries stand.

## Main results

* `Config.Reflects.isTree` — what has passed all checks is a tree.
* `Config.Reflects.canHang` — in a tree no part of an entry is refused, whichever entries
  have been split before.
* `Config.decomposition_iff` — **a configuration can be built exactly if it describes a tree**,
  and what is built reflects it.
-/

namespace TaskAllocation

namespace Config

variable {S : Type} [Scalar S]

theorem decomposition_eq_ok_iff {c : Config S} {d : Decomposition S} :
    c.decomposition = .ok d ↔ ∃ root rest d₀, c.tasks = root :: rest ∧
      rest.foldlM c.declare (Decomposition.single (c.spec root) c.stay) = .ok d₀ ∧
        c.tasks.foldlM splitEntry d₀ = .ok d ∧ d.validate = .ok () := by
  unfold decomposition
  cases hc : c.tasks with
  | nil => simp
  | cons root rest =>
    simp only [Except.bind_eq_ok_iff, Except.pure_eq_ok_iff]
    constructor
    · rintro ⟨d₀, hdeclare, d', hsplit, ⟨⟩, hvalid, rfl⟩
      exact ⟨root, rest, d₀, rfl, hdeclare, hsplit, hvalid⟩
    · rintro ⟨_, _, d₀, heq, hdeclare, hsplit, hvalid⟩
      cases heq
      exact ⟨d₀, hdeclare, d, hsplit, (), hvalid, rfl⟩

namespace Reflects

variable {c : Config S} {declared split : Nat} {d : Decomposition S} {entry : TaskEntry S}
  {t u : TaskId}

/-! ### Ways down -/

/-- A step upwards goes to the task whose entry lists the one below. -/
theorem lists_of_parent_ne (h : Reflects c declared split d) (hne : d.forest.parent t ≠ t) :
    ∃ above part, c.IsNamed (d.forest.parent t) above ∧ c.IsNamed t part ∧
      Lists c.tasks above part := by
  obtain ⟨a, b, hparts, ht⟩ := h.coherent.forest.part_of_parent t hne
  obtain ⟨-, entry, part, hentry, hpart, hmem⟩ := h.exists_name_of_part hparts ht
  exact ⟨entry.name, part, ⟨entry, hentry, rfl⟩, hpart, entry, List.mem_of_getElem? hentry, rfl,
    hmem⟩

/-- What lies above a task leads down to it. -/
theorem reaches_of_mem (h : Reflects c declared split d) {line : List TaskId}
    (hline : d.forest.Ascent t line) (hu : u ∈ line) {above below : String}
    (habove : c.IsNamed u above) (hbelow : c.IsNamed t below) :
    Relation.ReflTransGen (Lists c.tasks) above below := by
  induction hline generalizing below with
  | top _ =>
    obtain rfl := List.mem_singleton.mp hu
    rw [habove.unique hbelow]
  | step hne _ ih =>
    rcases List.mem_cons.mp hu with rfl | hu
    · rw [habove.unique hbelow]
    · obtain ⟨middle, part, hmiddle, hpart, hlists⟩ := h.lists_of_parent_ne hne
      rw [hbelow.unique hpart]
      exact (ih hu hmiddle).tail hlists

/-! ### What has passed all checks is a tree -/

section Accepted

variable {root : TaskEntry S} {rest : List (TaskEntry S)}

theorem names_nodup (h : Reflects c c.tasks.length split d) : (c.tasks.map (·.name)).Nodup := by
  refine List.pairwise_iff_getElem.mpr fun i j hi hj hlt hname => ?_
  rw [List.length_map] at hi hj
  rw [List.getElem_map, List.getElem_map] at hname
  have hij := h.isNamed_inj hi hj ⟨_, List.getElem?_eq_getElem hi, rfl⟩
    ⟨_, List.getElem?_eq_getElem hj, hname.symm⟩
  exact Nat.ne_of_lt hlt hij

/-- A part hangs under the one task that lists it. -/
theorem parent_of_name (h : Reflects c c.tasks.length split d) {name : String} (ht : t < split)
    (hentry : c.tasks[t]? = some entry) (hname : name ∈ entry.parts) (hu : c.IsNamed u name) :
    u ≠ t ∧ u ≠ Forest.root ∧ d.forest.parent u = t := by
  obtain ⟨a, b, v, hparts, hv, hnamed⟩ := h.exists_part_of_name ht hentry hname
  obtain ⟨hother, hroot, hlt, hparent⟩ := h.coherent.forest.hangs t a b hparts v hv
  obtain rfl := h.isNamed_inj (h.size_eq ▸ hlt) hu.lt_length hnamed hu
  exact ⟨hother, hroot, hparent⟩

theorem parts_nodup (h : Reflects c c.tasks.length c.tasks.length d) :
    (c.tasks.flatMap (·.parts)).Nodup := by
  refine nodup_flatMap_iff_getElem?.mpr ⟨fun entry hmem => ?_, fun i j x y name hi hj hx hy => ?_⟩
  · obtain ⟨t, hentry⟩ := List.mem_iff_getElem?.mp hmem
    have ht : t < c.tasks.length := lt_length_of_entry hentry
    rcases h.parts_of_entry t entry ht hentry with
      ⟨hnil, -⟩ | ⟨first, second, a, b, hlist, ha, hb, hparts⟩
    · rw [hnil]
      exact List.nodup_nil
    · rw [hlist, List.nodup_cons, List.mem_singleton]
      refine ⟨?_, List.nodup_singleton _⟩
      rintro rfl
      -- two parts of one name would be one task
      exact h.coherent.forest.parts_ne t a b hparts
        (h.isNamed_inj ha.lt_length hb.lt_length ha hb)
  · have hilt : i < c.tasks.length := lt_length_of_entry hi
    have hjlt : j < c.tasks.length := lt_length_of_entry hj
    -- the part hangs under one task only
    obtain ⟨a, b, u, -, -, hu⟩ := h.exists_part_of_name hilt hi hx
    rw [← (h.parent_of_name hilt hi hx hu).2.2, (h.parent_of_name hjlt hj hy hu).2.2]

/-- **What has passed all checks is a tree.** -/
theorem isTree (h : Reflects c c.tasks.length c.tasks.length d) (hvalid : d.validate = .ok ())
    (hc : c.tasks = root :: rest) : IsTree root rest := by
  have hroot : c.IsNamed Forest.root root.name := ⟨root, by rw [hc]; rfl, rfl⟩
  constructor <;> rw [← hc]
  case names_nodup => exact h.names_nodup
  case parts_length =>
    intro entry hmem
    obtain ⟨t, hentry⟩ := List.mem_iff_getElem?.mp hmem
    rcases h.parts_of_entry t entry (lt_length_of_entry hentry) hentry with
      ⟨hnil, -⟩ | ⟨first, second, a, b, hlist, -⟩
    · exact .inl (by rw [hnil]; rfl)
    · exact .inr (by rw [hlist]; rfl)
  case parts_declared =>
    intro entry hmem name hname
    obtain ⟨t, hentry⟩ := List.mem_iff_getElem?.mp hmem
    obtain ⟨a, b, u, -, -, other, hother, rfl⟩ :=
      h.exists_part_of_name (lt_length_of_entry hentry) hentry hname
    exact List.mem_map_of_mem (List.mem_of_getElem? hother)
  case root_notMem =>
    intro entry hmem hname
    obtain ⟨t, hentry⟩ := List.mem_iff_getElem?.mp hmem
    exact (h.parent_of_name (lt_length_of_entry hentry) hentry hname hroot).2.1 rfl
  case count_eq_one =>
    intro entry hmem
    refine List.count_eq_one_of_mem h.parts_nodup ?_
    obtain ⟨t, ht⟩ := List.mem_iff_getElem?.mp hmem
    have hentry : c.tasks[t + 1]? = some entry := by rwa [hc, List.getElem?_cons_succ]
    have hlt : t + 1 < d.forest.size := by
      rw [h.size_eq]
      exact lt_length_of_entry hentry
    have hne := (h.coherent.forest.validate_eq_ok_iff.mp hvalid).2 (t + 1) (Nat.succ_pos t) hlt
    obtain ⟨_, part, -, hpart, lists, hlists, -, hmem⟩ := h.lists_of_parent_ne hne
    rw [IsNamed.unique ⟨entry, hentry, rfl⟩ hpart]
    exact List.mem_flatMap_of_mem hlists hmem
  case reachable =>
    intro entry hmem
    obtain ⟨t, hentry⟩ := List.mem_iff_getElem?.mp hmem
    have ht : t < d.forest.size := by
      rw [h.size_eq]
      exact lt_length_of_entry hentry
    have hline := h.coherent.forest.ascent_lineage t
    exact h.reaches_of_mem hline (h.coherent.forest.root_mem_of_ascent hvalid hline ht) hroot
      ⟨entry, hentry, rfl⟩

end Accepted

/-! ### In a tree no step is refused -/

section Tree

variable {root : TaskEntry S} {rest : List (TaskEntry S)}

/-- **In a tree no part is refused**, whichever entries have been split before.  The part
hangs nowhere, for only this entry lists it, and it does not lie above, for the way down
from it and on by this entry would lead back to it. -/
theorem canHang (h : Reflects c c.tasks.length split d) (htree : IsTree root rest)
    (hc : c.tasks = root :: rest) (hentry : c.tasks[split]? = some entry) {name : String}
    (hname : name ∈ entry.parts) (hu : c.IsNamed u name) : d.forest.CanHang split u := by
  obtain ⟨other, hother, rfl⟩ := hu
  have hmem : entry ∈ root :: rest := hc ▸ List.mem_of_getElem? hentry
  have hother' : other ∈ root :: rest := hc ▸ List.mem_of_getElem? hother
  have hline := h.coherent.forest.ascent_lineage split
  have habove : u ∉ d.forest.lineage split := by
    intro hu
    have hdown := h.reaches_of_mem hline hu ⟨other, hother, rfl⟩ ⟨entry, hentry, rfl⟩
    rw [hc] at hdown
    exact htree.not_returns (htree.reachable other hother')
      (.tail' hdown ⟨entry, hmem, rfl, hname⟩)
  obtain ⟨task, htask, -⟩ := h.task_of_entry u other (lt_length_of_entry hother) hother
  refine ⟨?_, ⟨task, htask, ?_⟩, ?_, habove⟩
  · rintro rfl
    exact habove hline.mem_self
  · -- the part would hang under a task whose entry lists it, and that is this entry
    rw [← Bool.not_eq_true, h.coherent.forest.hasParent_iff htask, not_not]
    by_contra hne
    obtain ⟨a, b, hparts, hu⟩ := h.coherent.forest.part_of_parent u hne
    obtain ⟨hlt, lists, part, hlists, hpart, hmem⟩ := h.exists_name_of_part hparts hu
    obtain rfl := IsNamed.unique ⟨other, hother, rfl⟩ hpart
    rw [hc] at hlists hentry
    exact absurd (htree.part_unique hlists hentry hmem hname) (Nat.ne_of_lt hlt)
  · -- the root is not listed
    rintro rfl
    rw [hc] at hother
    cases hother
    exact htree.root_notMem entry hmem hname

theorem exists_splitEntry (h : Reflects c c.tasks.length split d) (htree : IsTree root rest)
    (hc : c.tasks = root :: rest) (hentry : c.tasks[split]? = some entry) :
    ∃ e, Config.splitEntry d entry = .ok e ∧ Reflects c c.tasks.length (split + 1) e := by
  have hlt : split < c.tasks.length := lt_length_of_entry hentry
  have hmem : entry ∈ root :: rest := hc ▸ List.mem_of_getElem? hentry
  suffices hsplit : ∃ e, Config.splitEntry d entry = .ok e by
    obtain ⟨e, he⟩ := hsplit
    exact ⟨e, he, h.splitEntry hlt hentry he⟩
  rcases htree.parts_length entry hmem with hlen | hlen
  · exact ⟨d, splitEntry_eq_ok_iff.mpr (.inl ⟨List.length_eq_zero_iff.mp hlen, rfl⟩)⟩
  · obtain ⟨first, second, hparts⟩ := List.length_eq_two.mp hlen
    have hnamed : ∀ name ∈ entry.parts, ∃ u, c.IsNamed u name := by
      intro name hname
      obtain ⟨other, hother, rfl⟩ := List.mem_map.mp (htree.parts_declared entry hmem name hname)
      rw [← hc] at hother
      obtain ⟨u, hu⟩ := List.mem_iff_getElem?.mp hother
      exact ⟨u, other, hu, rfl⟩
    have hfirst : first ∈ entry.parts := by simp [hparts]
    have hsecond : second ∈ entry.parts := by simp [hparts]
    obtain ⟨a, ha⟩ := hnamed first hfirst
    obtain ⟨b, hb⟩ := hnamed second hsecond
    refine ⟨_, splitEntry_eq_ok_iff.mpr
      (.inr ⟨first, second, split, a, b, hparts, ?_, ?_, ?_, ?_, rfl⟩)⟩
    · exact h.idOf?_eq_some_iff.mpr ⟨hlt, entry, hentry, rfl⟩
    · exact h.idOf?_eq_some_iff.mpr ⟨ha.lt_length, ha⟩
    · exact h.idOf?_eq_some_iff.mpr ⟨hb.lt_length, hb⟩
    · refine ⟨h.size_eq ▸ hlt, h.whole split (Nat.le_refl split), ?_,
        h.canHang htree hc hentry hfirst ha, h.canHang htree hc hentry hsecond hb⟩
      rintro rfl
      have hnodup := (nodup_flatMap_iff_getElem?.mp htree.parts_nodup).1 entry hmem
      rw [hparts, ha.unique hb] at hnodup
      simp at hnodup

theorem exists_declare (h : Reflects c declared 0 d) (htree : IsTree root rest)
    (hc : c.tasks = root :: rest) (hentry : c.tasks[declared]? = some entry) :
    ∃ e, c.declare d entry = .ok e ∧ Reflects c (declared + 1) 0 e := by
  have hfresh : d.forest.idOf? entry.name = none := by
    by_contra hsome
    obtain ⟨t, ht⟩ := Option.ne_none_iff_exists'.mp hsome
    obtain ⟨hlt, other, hother, hname⟩ := h.idOf?_eq_some_iff.mp ht
    have hnodup := htree.names_nodup
    rw [← hc, List.nodup_iff_getElem?_ne_getElem?] at hnodup
    refine hnodup t declared hlt ?_ ?_
    · rw [List.length_map]
      exact lt_length_of_entry hentry
    · rw [List.getElem?_map, List.getElem?_map, hother, hentry, Option.map_some, hname,
        Option.map_some]
  have he : c.declare d entry = .ok _ := declare_eq_ok_iff.mpr ⟨d.forest.size,
    Except.map_eq_ok_iff.mpr ⟨_, Forest.add_eq_ok_iff.mpr ⟨hfresh, rfl, rfl⟩, rfl⟩⟩
  exact ⟨_, he, h.declare hentry he⟩

/-- What reflects a tree is in one piece. -/
theorem validate (h : Reflects c c.tasks.length c.tasks.length d) (htree : IsTree root rest)
    (hc : c.tasks = root :: rest) : d.validate = .ok () := by
  refine h.coherent.forest.validate_eq_ok_iff.mpr ⟨?_, fun t hpos ht => ?_⟩
  · rw [h.size_eq, hc]
    exact Nat.succ_pos _
  · obtain ⟨entry, hentry⟩ := h.exists_entry (h.size_eq ▸ ht)
    have hrest : entry ∈ rest := by
      obtain ⟨t, rfl⟩ := Nat.exists_eq_succ_of_ne_zero (Nat.ne_of_gt hpos)
      rw [hc, List.getElem?_cons_succ] at hentry
      exact List.mem_of_getElem? hentry
    have hlisted : entry.name ∈ (root :: rest).flatMap (·.parts) :=
      List.count_pos_iff.mp (Nat.lt_of_lt_of_eq Nat.one_pos (htree.count_eq_one entry hrest).symm)
    -- the task hangs under the one whose entry lists it
    obtain ⟨lists, hlists, hname⟩ := List.mem_flatMap.mp hlisted
    rw [← hc] at hlists
    obtain ⟨u, hu⟩ := List.mem_iff_getElem?.mp hlists
    obtain ⟨hne, -, hparent⟩ := h.parent_of_name (lt_length_of_entry hu) hu hname
      ⟨entry, hentry, rfl⟩
    rw [hparent]
    exact hne.symm

end Tree

/-! ### The focus -/

/-- A tree with a block has the block of the root, for everything else hangs under that. -/
theorem exists_focus (h : Reflects c declared split d) (hvalid : d.validate = .ok ())
    (hblocks : 0 < d.blocks.size) :
    ∃ k b, d.focus = some k ∧ d.block? k = some b ∧ b.root = Forest.root := by
  have hroot := h.coherent.isSome_parts?_root hvalid hblocks
  obtain ⟨k, hk⟩ := h.coherent.exists_blockOf? hroot
  obtain ⟨b, hb, hheads⟩ := h.coherent.blockOf?_eq_some_iff.mp hk
  exact ⟨k, b, (h.focus_eq hroot).trans hk, hb, hheads⟩

end Reflects

/-! ### Building a configuration -/

section Build

variable {c : Config S} {d : Decomposition S} {root : TaskEntry S} {rest : List (TaskEntry S)}

/-- What is built reflects all entries. -/
theorem reflects_of_decomposition (hd : c.decomposition = .ok d) :
    ∃ root rest, c.tasks = root :: rest ∧ Reflects c c.tasks.length c.tasks.length d ∧
      d.validate = .ok () := by
  obtain ⟨root, rest, d₀, hc, hdeclare, hsplit, hvalid⟩ := decomposition_eq_ok_iff.mp hd
  have hlen : c.tasks.length = rest.length + 1 := by rw [hc, List.length_cons]
  have hdeclared : Reflects c (rest.length + 1) 0 d₀ :=
    Except.foldlM_invariant (P := fun m d => Reflects c (m + 1) 0 d)
      (fun _ _ _ _ hentry h he => h.declare (by rwa [hc, List.getElem?_cons_succ]) he)
      (Reflects.single hc) hdeclare
  rw [← hlen] at hdeclared
  have hreflects : Reflects c c.tasks.length c.tasks.length d :=
    Except.foldlM_invariant (P := fun m d => Reflects c c.tasks.length m d)
      (fun _ _ _ _ hentry h he => h.splitEntry (lt_length_of_entry hentry) hentry he)
      hdeclared hsplit
  exact ⟨root, rest, hc, hreflects, hvalid⟩

/-- A tree is built: no step is refused, and in the end everything is in one piece. -/
theorem exists_decomposition (htree : IsTree root rest) (hc : c.tasks = root :: rest) :
    ∃ d, c.decomposition = .ok d := by
  have hlen : c.tasks.length = rest.length + 1 := by rw [hc, List.length_cons]
  obtain ⟨d₀, hdeclare, hdeclared⟩ :=
    Except.foldlM_total c.declare rest (P := fun m d => Reflects c (m + 1) 0 d)
      (fun _ _ _ hentry h => h.exists_declare htree hc (by rwa [hc, List.getElem?_cons_succ]))
      (Reflects.single hc)
  rw [← hlen] at hdeclared
  obtain ⟨d, hsplit, hreflects⟩ :=
    Except.foldlM_total splitEntry c.tasks (P := fun m d => Reflects c c.tasks.length m d)
      (fun _ _ _ hentry h => h.exists_splitEntry htree hc hentry) hdeclared
  exact ⟨d, decomposition_eq_ok_iff.mpr ⟨root, rest, d₀, hc, hdeclare, hsplit,
    hreflects.validate htree hc⟩⟩

end Build

/-- **A configuration can be built exactly if its tasks form a tree**, and what is built
reflects all its entries and gives the focus to the block of the root. -/
theorem decomposition_iff (c : Config S) :
    ((∃ d, c.decomposition = .ok d) ↔ ∃ root rest, c.tasks = root :: rest ∧ IsTree root rest) ∧
      ∀ d, c.decomposition = .ok d →
        Reflects c c.tasks.length c.tasks.length d ∧
          (0 < d.blocks.size →
            ∃ k b, d.focus = some k ∧ d.block? k = some b ∧ b.root = Forest.root) := by
  refine ⟨⟨?_, ?_⟩, ?_⟩
  · rintro ⟨d, hd⟩
    obtain ⟨root, rest, hc, hreflects, hvalid⟩ := reflects_of_decomposition hd
    exact ⟨root, rest, hc, hreflects.isTree hvalid hc⟩
  · rintro ⟨root, rest, hc, htree⟩
    exact exists_decomposition htree hc
  · intro d hd
    obtain ⟨-, -, -, hreflects, hvalid⟩ := reflects_of_decomposition hd
    exact ⟨hreflects, hreflects.exists_focus hvalid⟩

/-- The tasks of the standard configuration. -/
theorem decomposition_iff_standard :
    (∃ root rest, (standard : Config Float).tasks = root :: rest ∧ IsTree root rest) ∧
      ∃ d, (standard : Config Float).decomposition = .ok d ∧ Reflects standard 5 5 d := by
  have hok : (standard : Config Float).decomposition.isOk = true := by decide +kernel
  obtain ⟨d, hd⟩ := Except.exists_of_isOk hok
  have hreflects := ((decomposition_iff standard).2 d hd).1
  exact ⟨(decomposition_iff standard).1.mp ⟨d, hd⟩, d, hd, hreflects⟩

end Config

end TaskAllocation
