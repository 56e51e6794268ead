import TaskAllocation.Config.Build
import TaskAllocation.Proofs.Decomposition.Growth

/-!
# Decompositions that reflect a configuration

While a configuration is built, its entries are declared one after another, and then
split one after another.  In between, the tasks are those of the first entries, and the
split ones among them those of the first entries again.

## Main definitions

* `Config.IsNamed` — the entry at a place has a given name.
* `Config.Reflects` — a decomposition reflects so many entries declared and so many split.

## Main results

* `Config.Reflects.single`, `Config.Reflects.declare`, `Config.Reflects.splitEntry` — every
  step of the construction reflects one entry more.
-/

namespace TaskAllocation

namespace Config

variable {S : Type}

/-- The entry at a place has a given name. -/
def IsNamed (c : Config S) (t : TaskId) (name : String) : Prop :=
  ∃ entry, c.tasks[t]? = some entry ∧ entry.name = name

/-- A place has one name. -/
theorem IsNamed.unique {c : Config S} {t : TaskId} {name other : String} (h : c.IsNamed t name)
    (h' : c.IsNamed t other) : name = other := by
  obtain ⟨entry, hentry, rfl⟩ := h
  obtain ⟨entry', hentry', rfl⟩ := h'
  cases hentry.symm.trans hentry'
  rfl

/-- The entry at a place has parts. -/
def isSplitAt (c : Config S) (t : TaskId) : Bool :=
  c.tasks[t]?.any fun entry => !entry.parts.isEmpty

theorem lt_length_of_entry {c : Config S} {t : TaskId} {entry : TaskEntry S}
    (h : c.tasks[t]? = some entry) : t < c.tasks.length :=
  (List.getElem?_eq_some_iff.mp h).1

theorem IsNamed.lt_length {c : Config S} {t : TaskId} {name : String} (h : c.IsNamed t name) :
    t < c.tasks.length := by
  obtain ⟨entry, hentry, -⟩ := h
  exact lt_length_of_entry hentry

/-- The tasks of `d` are those of the first `declared` entries of the configuration, and of
these the first `split` have got their parts. -/
structure Reflects [Scalar S] (c : Config S) (declared split : Nat) (d : Decomposition S) :
    Prop where
  /-- Tasks and blocks agree. -/
  coherent : d.Coherent
  /-- There are as many tasks as entries declared. -/
  size_eq : d.forest.size = declared
  /-- These are entries of the configuration. -/
  le_length : declared ≤ c.tasks.length
  /-- The task of an entry has its name and estimate. -/
  task_of_entry : ∀ t entry, t < declared → c.tasks[t]? = some entry →
    ∃ task, d.forest.task? t = some task ∧ task.name = entry.name ∧
      task.estimate = Estimate.start (entry.alpha.getD c.alpha) entry.initial
  /-- The task of an entry has the parts that the entry names, in their order. -/
  parts_of_entry : ∀ t entry, t < split → c.tasks[t]? = some entry →
    (entry.parts = [] ∧ d.forest.parts? t = none) ∨
      ∃ first second a b, entry.parts = [first, second] ∧ c.IsNamed a first ∧
        c.IsNamed b second ∧ d.forest.parts? t = some (a, b)
  /-- Other tasks are whole. -/
  whole : ∀ t, split ≤ t → d.forest.parts? t = none
  /-- There is one block for every entry with parts, in the order of the entries. -/
  blocks_eq : d.blocks.toList.map (·.root) = (List.range split).filter c.isSplitAt
  /-- Once the root is split, its block has the focus. -/
  focus_eq : (d.forest.parts? Forest.root).isSome → d.focus = d.blockOf? Forest.root

/-! ### The steps -/

theorem isSplitAt_eq {c : Config S} {t : TaskId} {entry : TaskEntry S}
    (hentry : c.tasks[t]? = some entry) :
    c.isSplitAt t = !entry.parts.isEmpty := by
  rw [isSplitAt, hentry, Option.any_some]

/-- The entry at a place is split, or is none with parts. -/
theorem filter_isSplitAt_succ {c : Config S} {t : TaskId} {entry : TaskEntry S}
    (hentry : c.tasks[t]? = some entry) :
    (List.range (t + 1)).filter c.isSplitAt =
      (List.range t).filter c.isSplitAt ++ if entry.parts = [] then [] else [t] := by
  rw [List.range_succ, List.filter_append, List.filter_singleton, isSplitAt_eq hentry]
  by_cases hparts : entry.parts = []
  · simp [hparts]
  · rw [List.isEmpty_eq_false_iff.mpr hparts, if_neg hparts]
    rfl

theorem idOf_eq_ok_iff {d : Decomposition S} {name : String} {t : TaskId} :
    idOf d name = .ok t ↔ d.forest.idOf? name = some t := by
  unfold idOf
  cases d.forest.idOf? name with
  | none => simp
  | some _ => simp

/-- An entry with parts needs two of them, and splits the task of its name. -/
theorem splitEntry_eq_ok_iff {d e : Decomposition S} {entry : TaskEntry S} :
    splitEntry d entry = .ok e ↔ (entry.parts = [] ∧ e = d) ∨
      ∃ first second t a b, entry.parts = [first, second] ∧
        d.forest.idOf? entry.name = some t ∧ d.forest.idOf? first = some a ∧
        d.forest.idOf? second = some b ∧ d.forest.CanSplit t a b ∧ e = d.opened t a b := by
  unfold splitEntry
  split
  · next hempty =>
    rw [List.isEmpty_iff] at hempty
    constructor
    · intro hd
      cases hd
      exact .inl ⟨hempty, rfl⟩
    · rintro (⟨-, rfl⟩ | ⟨first, second, _, _, _, hlist, -⟩)
      · rfl
      · cases hempty.symm.trans hlist
  next hparts =>
    rw [List.isEmpty_iff] at hparts
    simp only [Except.bind_eq_ok_iff, Except.pure_eq_ok_iff, Except.mapM_eq_ok_iff, idOf_eq_ok_iff,
      hparts, false_and, false_or]
    constructor
    · -- two parts were split off, so two were listed
      rintro ⟨t, ht, ids, hids, ⟨k, e⟩, hsplit, rfl⟩
      obtain ⟨a, b, rfl, hcan, -, rfl⟩ := Decomposition.split_eq_ok_iff.mp hsplit
      obtain ⟨first, _, hfirst, hrest, hlist⟩ := List.forall₂_cons_right_iff.mp hids
      obtain ⟨second, _, hsecond, hnil, rfl⟩ := List.forall₂_cons_right_iff.mp hrest
      obtain rfl := List.forall₂_nil_right_iff.mp hnil
      exact ⟨first, second, t, a, b, hlist, ht, hfirst, hsecond, hcan, rfl⟩
    · rintro ⟨first, second, t, a, b, hlist, ht, ha, hb, hcan, rfl⟩
      refine ⟨t, ht, [a, b], ?_, (d.blocks.size, _),
        Decomposition.split_eq_ok_iff.mpr ⟨a, b, rfl, hcan, rfl, rfl⟩, rfl⟩
      rw [hlist]
      exact .cons ha (.cons hb .nil)

variable [Scalar S]

theorem declare_eq_ok_iff {c : Config S} {d e : Decomposition S} {entry : TaskEntry S} :
    c.declare d entry = .ok e ↔ ∃ id, d.add (c.spec entry) = .ok (id, e) := by
  unfold declare
  rw [Except.map_eq_ok_iff]
  constructor
  · rintro ⟨⟨id, e⟩, hadd, rfl⟩
    exact ⟨id, hadd⟩
  · rintro ⟨id, hadd⟩
    exact ⟨(id, e), hadd, rfl⟩

namespace Reflects

variable {c : Config S} {declared split : Nat} {d e : Decomposition S} {entry : TaskEntry S}
  {t u : TaskId}

/-! ### Names and parts -/

/-- An entry that is declared has its task. -/
theorem exists_entry (h : Reflects c declared split d) (ht : t < declared) :
    ∃ entry, c.tasks[t]? = some entry :=
  ⟨_, List.getElem?_eq_getElem (Nat.lt_of_lt_of_le ht h.le_length)⟩

/-- A name leads to the place of the entry that bears it. -/
theorem idOf?_eq_some_iff (h : Reflects c declared split d) {name : String} :
    d.forest.idOf? name = some t ↔ t < declared ∧ c.IsNamed t name := by
  rw [h.coherent.forest.idOf?_eq_some_iff]
  constructor
  · rintro ⟨task, htask, rfl⟩
    have ht : t < declared := h.size_eq ▸ Forest.lt_size_of_task? htask
    obtain ⟨entry, hentry⟩ := h.exists_entry ht
    obtain ⟨other, hother, hname, -⟩ := h.task_of_entry t entry ht hentry
    cases htask.symm.trans hother
    exact ⟨ht, entry, hentry, hname.symm⟩
  · rintro ⟨ht, entry, hentry, rfl⟩
    obtain ⟨task, htask, hname, -⟩ := h.task_of_entry t entry ht hentry
    exact ⟨task, htask, hname⟩

theorem isNamed_inj (h : Reflects c declared split d) {name : String} (ht : t < declared)
    (hu : u < declared) (hname : c.IsNamed t name) (hname' : c.IsNamed u name) : t = u := by
  have hleft := h.idOf?_eq_some_iff.mpr ⟨ht, hname⟩
  have hright := h.idOf?_eq_some_iff.mpr ⟨hu, hname'⟩
  exact Option.some.inj (hleft.symm.trans hright)

/-- A part of a task is named by its entry. -/
theorem exists_name_of_part (h : Reflects c declared split d) {a b : TaskId}
    (hparts : d.forest.parts? t = some (a, b)) (hu : u = a ∨ u = b) :
    t < split ∧ ∃ entry name, c.tasks[t]? = some entry ∧ c.IsNamed u name ∧ name ∈ entry.parts := by
  -- what has not been split yet has no parts
  have ht : t < split := by
    by_contra hge
    cases hparts.symm.trans (h.whole t (Nat.le_of_not_lt hge))
  obtain ⟨entry, hentry⟩ := h.exists_entry (h.size_eq ▸ Forest.lt_size_of_parts? hparts)
  refine ⟨ht, entry, ?_⟩
  rcases h.parts_of_entry t entry ht hentry with
    ⟨-, hnone⟩ | ⟨first, second, x, y, hlist, hx, hy, hsome⟩
  · cases hparts.symm.trans hnone
  · cases hparts.symm.trans hsome
    rw [hlist]
    rcases hu with rfl | rfl
    · exact ⟨first, hentry, hx, List.mem_cons_self⟩
    · exact ⟨second, hentry, hy, List.mem_cons_of_mem _ List.mem_cons_self⟩

/-- What an entry names is a part of its task. -/
theorem exists_part_of_name (h : Reflects c declared split d) {name : String} (ht : t < split)
    (hentry : c.tasks[t]? = some entry) (hname : name ∈ entry.parts) :
    ∃ a b u, d.forest.parts? t = some (a, b) ∧ (u = a ∨ u = b) ∧ c.IsNamed u name := by
  rcases h.parts_of_entry t entry ht hentry with
    ⟨hnil, -⟩ | ⟨first, second, a, b, hlist, ha, hb, hsome⟩
  · rw [hnil] at hname
    cases hname
  · rw [hlist, List.mem_pair] at hname
    rcases hname with rfl | rfl
    · exact ⟨a, b, a, hsome, .inl rfl, ha⟩
    · exact ⟨a, b, b, hsome, .inr rfl, hb⟩

/-! ### Declaring an entry -/

theorem single {root : TaskEntry S} {rest : List (TaskEntry S)} (hc : c.tasks = root :: rest) :
    Reflects c 1 0 (Decomposition.single (c.spec root) c.stay) where
  coherent := Decomposition.Coherent.single _ _
  size_eq := rfl
  le_length := by
    rw [hc]
    exact Nat.le_add_left 1 rest.length
  task_of_entry t entry ht hentry := by
    obtain rfl := Nat.lt_one_iff.mp ht
    rw [hc] at hentry
    cases hentry
    exact ⟨_, rfl, rfl, rfl⟩
  parts_of_entry t _ ht := absurd ht (Nat.not_lt_zero t)
  whole t _ := Forest.parts?_push Forest.empty (c.spec root) t
  blocks_eq := rfl
  focus_eq hsplit := nomatch hsplit

/-- The task of the next entry takes the next number. -/
theorem declare (h : Reflects c declared 0 d) (hentry : c.tasks[declared]? = some entry)
    (he : c.declare d entry = .ok e) : Reflects c (declared + 1) 0 e := by
  obtain ⟨id, hadd⟩ := declare_eq_ok_iff.mp he
  have hcoherent := h.coherent.add hadd
  obtain ⟨⟨_, f⟩, hf, heq⟩ := Except.map_eq_ok_iff.mp hadd
  cases heq
  obtain ⟨-, -, rfl⟩ := Forest.add_eq_ok_iff.mp hf
  have hparts := Forest.parts?_push d.forest (c.spec entry)
  refine ⟨hcoherent, ?_, lt_length_of_entry hentry, ?_, ?_, ?_, h.blocks_eq, ?_⟩
  · rw [← h.size_eq]
    exact Array.size_push _
  · intro t other ht hother
    rw [Forest.task?_push, h.size_eq]
    -- the last task is the one declared now
    by_cases hlast : t = declared
    · subst hlast
      cases hentry.symm.trans hother
      exact ⟨_, if_pos rfl, rfl, rfl⟩
    · rw [if_neg hlast]
      exact h.task_of_entry t other (Nat.lt_of_le_of_ne (Nat.le_of_lt_succ ht) hlast) hother
  · exact fun t _ ht => absurd ht (Nat.not_lt_zero t)
  · intro t ht
    rw [hparts]
    exact h.whole t ht
  · rw [hparts]
    exact h.focus_eq

/-! ### Splitting an entry -/

/-- A leaf needs no step. -/
theorem skip (h : Reflects c declared split d) (hentry : c.tasks[split]? = some entry)
    (hparts : entry.parts = []) : Reflects c declared (split + 1) d where
  coherent := h.coherent
  size_eq := h.size_eq
  le_length := h.le_length
  task_of_entry := h.task_of_entry
  parts_of_entry t other ht hother := by
    rcases Nat.lt_succ_iff_lt_or_eq.mp ht with hlt | rfl
    · exact h.parts_of_entry t other hlt hother
    · cases hentry.symm.trans hother
      exact .inl ⟨hparts, h.whole t (Nat.le_refl t)⟩
  whole t ht := h.whole t (Nat.le_of_succ_le ht)
  blocks_eq := by rw [filter_isSplitAt_succ hentry, if_pos hparts, List.append_nil, h.blocks_eq]
  focus_eq := h.focus_eq

/-- **Splitting the next task opens the next block.**  If it is the root, its block gets the
focus, and no other block takes the focus from the block of the root. -/
theorem opened (h : Reflects c declared split d) (hentry : c.tasks[split]? = some entry)
    {first second : String} {a b : TaskId} (hparts : entry.parts = [first, second])
    (ha : c.IsNamed a first) (hb : c.IsNamed b second) (hcan : d.forest.CanSplit split a b) :
    Reflects c declared (split + 1) (d.opened split a b) := by
  have hcoherent := h.coherent.opened hcan
  have hlinked : ∀ t, (d.opened split a b).forest.parts? t =
      if t = split then some (a, b) else d.forest.parts? t :=
    Forest.parts?_link hcan.lt_size a b
  refine ⟨hcoherent, ?_, h.le_length, ?_, ?_, ?_, ?_, ?_⟩
  · exact (Forest.size_link _ _ _ _).trans h.size_eq
  · intro t other ht hother
    obtain ⟨task, htask, hname, hestimate⟩ := h.task_of_entry t other ht hother
    have hkept := Forest.task?_link d.forest split a b t
    rw [htask] at hkept
    exact ⟨_, hkept, hname, hestimate⟩
  · intro t other ht hother
    rw [hlinked]
    rcases Nat.lt_succ_iff_lt_or_eq.mp ht with hlt | rfl
    · simpa only [if_neg (Nat.ne_of_lt hlt)] using h.parts_of_entry t other hlt hother
    · cases hentry.symm.trans hother
      exact .inr ⟨first, second, a, b, hparts, ha, hb, if_pos rfl⟩
  · intro t ht
    rw [hlinked]
    exact (if_neg (Nat.ne_of_gt ht)).trans (h.whole t (Nat.le_of_succ_le ht))
  · have hblocks : (d.opened split a b).blocks = d.blocks.push (Block.new split a b) := rfl
    rw [filter_isSplitAt_succ hentry, if_neg (by simp [hparts]), hblocks, Array.toList_push,
      List.map_append, h.blocks_eq]
    rfl
  · intro hroot
    rw [hlinked] at hroot
    have hfocus : (d.opened split a b).focus =
        if d.focus.isNone ∨ split = Forest.root then some d.blocks.size else d.focus := rfl
    rw [hfocus]
    by_cases hfirst : split = Forest.root
    · rw [if_pos (.inr hfirst), eq_comm, hcoherent.blockOf?_eq_some_iff]
      exact ⟨_, (d.block?_opened ..).trans (if_pos rfl), hfirst⟩
    · -- the root has been split before, and its block has the focus
      rw [if_neg (Ne.symm hfirst)] at hroot
      obtain ⟨k, hk⟩ := h.coherent.exists_blockOf? hroot
      obtain ⟨block, hblock, hheads⟩ := h.coherent.blockOf?_eq_some_iff.mp hk
      rw [h.focus_eq hroot, hk, if_neg (by simp [hfirst]), eq_comm,
        hcoherent.blockOf?_eq_some_iff]
      have hold := Decomposition.lt_size_of_block? hblock
      refine ⟨block, ?_, hheads⟩
      rw [Decomposition.block?_opened, if_neg (Nat.ne_of_lt hold), hblock]

/-- The task of the next entry is split next. -/
theorem splitEntry (h : Reflects c declared split d) (hlt : split < declared)
    (hentry : c.tasks[split]? = some entry) (he : Config.splitEntry d entry = .ok e) :
    Reflects c declared (split + 1) e := by
  rcases splitEntry_eq_ok_iff.mp he with
    ⟨hparts, rfl⟩ | ⟨first, second, t, a, b, hparts, ht, ha, hb, hcan, rfl⟩
  · exact h.skip hentry hparts
  · -- the name of the entry leads back to its own place
    obtain ⟨hlt', hname⟩ := h.idOf?_eq_some_iff.mp ht
    obtain rfl := h.isNamed_inj hlt' hlt hname ⟨entry, hentry, rfl⟩
    exact h.opened hentry hparts (h.idOf?_eq_some_iff.mp ha).2 (h.idOf?_eq_some_iff.mp hb).2 hcan

end Reflects

end Config

end TaskAllocation
