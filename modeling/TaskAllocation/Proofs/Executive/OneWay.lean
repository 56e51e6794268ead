import TaskAllocation.Proofs.Decomposition.Admission
import TaskAllocation.Proofs.Decomposition.Level
import TaskAllocation.Proofs.Executive.Timestep

/-!
# One-way runs

An executive that always takes parts only descends, and one that never does only ascends: the
running task is known to be a part, or the head, of the block with the focus, and from there
the focus moves in one direction only, if at all.  A run that has nowhere left to go stays
where it is.

## Main definitions

* `Executive.Admitted` — the invariant: the task may be chosen in the block with the focus.
* `Executive.AtLevel` — the level of the block with the focus.

## Main results

* `Executive.Admitted.act` — the invariant is kept, and the focus moves as it may after the task.
* `Executive.Admitted.settled_after` — a run that has nowhere to go stays.
* `Executive.always_descends` — **a run that always takes parts only descends.**
* `Executive.never_ascends` — **a run that never takes parts only ascends.**
-/

namespace TaskAllocation

open Decomposition

namespace Executive

variable {S R M : Type}

/-- The executive walks between blocks, and its task may be chosen in the block that has the
focus. -/
structure Admitted (e : Executive S R M) : Prop where
  /-- The focus is with the task. -/
  course : e.OnCourse
  /-- The task may be chosen there. -/
  admits : ∀ t, e.phase.task? = some t →
    ∃ b, e.decomposition.focused? = some b ∧ e.allocation.partitioning.Admits b t

/-- Nothing has been chosen when an executive starts. -/
theorem admitted_of_start [Scalar S] {d : Decomposition S} (hd : d.Coherent) {a : Allocation S}
    {abort : AbortCurve S} {learns : Bool} {source : R} {mechanisms : Array M}
    {e : Executive S R M} (hstart : start d a abort learns source mechanisms = .ok e)
    (hpolicy : a.policy = .neighbour) (hblocks : 0 < d.blocks.size) :
    e.Admitted ∧ e.allocation = a := by
  have hcourse := onCourse_of_start hd hstart hpolicy hblocks
  obtain ⟨-, -, rfl⟩ := start_eq_ok_iff.mp hstart
  exact ⟨⟨hcourse, fun _ ht => nomatch ht⟩, rfl⟩

/-- The block with the focus lies at level `n`. -/
def AtLevel (e : Executive S R M) (n : Nat) : Prop :=
  ∃ k, e.decomposition.focus = some k ∧ e.decomposition.level k = .ok n

theorem AtLevel.unique {e : Executive S R M} {m n : Nat} (hm : e.AtLevel m) (hn : e.AtLevel n) :
    m = n := by
  obtain ⟨k, hk, hm⟩ := hm
  obtain ⟨j, hj, hn⟩ := hn
  cases hk.symm.trans hj
  exact Except.ok.inj (hm.symm.trans hn)

namespace Admitted

variable {e : Executive S R M} {k : BlockId} {b : Block S}

theorem exists_focus (h : e.Admitted) :
    ∃ k b, e.decomposition.focus = some k ∧ e.decomposition.block? k = some b := by
  obtain ⟨k, hk⟩ := Option.isSome_iff_exists.mp h.course.focused
  obtain ⟨b, hb⟩ := exists_block? (h.course.coherent.focus_lt k hk)
  exact ⟨k, b, hk, hb⟩

theorem admits_of_focus (h : e.Admitted) (hk : e.decomposition.focus = some k)
    (hb : e.decomposition.block? k = some b) {t : TaskId} (ht : e.phase.task? = some t) :
    e.allocation.partitioning.Admits b t := by
  obtain ⟨c, hc, hadmits⟩ := h.admits t ht
  rw [focused?, hk, Option.bind_some] at hc
  cases hb.symm.trans hc
  exact hadmits

theorem exists_atLevel (h : e.Admitted) : ∃ n, e.AtLevel n := by
  obtain ⟨k, b, hk, hb⟩ := h.exists_focus
  obtain ⟨n, hn⟩ := h.course.coherent.exists_level hb
  exact ⟨n, k, hk, hn⟩

variable [Scalar S] [UnitSource R S] [IndexSource R] [Performer M]

/-! ### One act -/

/-- **What is engaged may be chosen** in the block that has the focus then, and on the way there
the focus moves as it may after the task that ended last. -/
theorem engaged (h : e.Admitted) (hunit : UnitSource.InUnit R S)
    (hk : e.decomposition.focus = some k) :
    ∃ j c, e.engaged.2.decomposition.focus = some j ∧ e.decomposition.block? j = some c ∧
      e.allocation.partitioning.Admits c e.engaged.1 ∧
      (j = k ∨ ∃ t, e.phase.task? = some t ∧ e.decomposition.FocusStep t (some k) (some j)) := by
  obtain ⟨b, hb⟩ := exists_block? (h.course.coherent.focus_lt k hk)
  cases hexec : e.phase.isExecuting with
  | true =>
    obtain ⟨t, ht⟩ := exists_executing hexec
    rw [engaged_of_executing ht]
    exact ⟨k, b, hk, hb, h.admits_of_focus hk hb (by rw [ht]; rfl), .inl rfl⟩
  | false =>
    cases hlast : e.last with
    | none =>
      -- the first task of all is chosen where the focus is
      obtain ⟨next, d, source, hchoose, hfocus, hadmits⟩ :=
        h.course.coherent.choose_admits hunit e.allocation.partitioning hb e.source
      obtain ⟨htask, hd⟩ := engaged_of_choose hexec hlast hk hchoose
      rw [htask, hd]
      exact ⟨k, b, hfocus.trans hk, hb, hadmits, .inl rfl⟩
    | some t =>
      have ht : e.phase.task? = some t := (h.course.last_eq hexec).symm.trans hlast
      obtain ⟨next, d, source, j, c, hstep, hfocus, hc, hadmits, hmove⟩ :=
        h.course.coherent.neighbourStep_admits hunit e.allocation hk hb
          (h.admits_of_focus hk hb ht).mem e.source
      obtain ⟨htask, hd⟩ := engaged_of_neighbourStep hexec h.course.policy hlast hk hstep
      rw [htask, hd]
      exact ⟨j, c, hfocus, hc, hadmits, .inr ⟨t, ht, hmove⟩⟩

/-- **An act keeps the invariant**, and the focus moves as it may after the task. -/
theorem act (h : e.Admitted) (hunit : UnitSource.InUnit R S) (act : Act)
    (hk : e.decomposition.focus = some k) :
    (e.act act).Admitted ∧ ∃ j, (e.act act).decomposition.focus = some j ∧
      (j = k ∨ ∃ t, e.phase.task? = some t ∧ e.decomposition.FocusStep t (some k) (some j)) := by
  have hcourse := h.course.act act
  have hallocation := allocation_of_settings (e.settings_act act)
  have houtline := e.outline_act act
  -- the block where the task was chosen has the same members after the act
  have hadmitted : ∀ {j c}, (e.act act).decomposition.focus = some j →
      e.decomposition.block? j = some c →
      (∀ t, (e.act act).phase.task? = some t → e.allocation.partitioning.Admits c t) →
      (e.act act).Admitted := by
    intro j c hj hc hadmits
    obtain ⟨c', hc', hmembers⟩ := exists_block?_of_outline houtline.symm hc
    have hfocused : (e.act act).decomposition.focused? = some c' := by
      rw [focused?, hj, Option.bind_some, hc']
    refine ⟨hcourse, fun t ht => ⟨c', hfocused, ?_⟩⟩
    rw [hallocation]
    exact (hadmits t ht).of_members hmembers
  cases act with
  | timestep =>
    obtain ⟨j, c, hj, hc, hadmits, hmove⟩ := h.engaged hunit hk
    obtain ⟨-, -, hfocus, htask⟩ := e.timestep_keeps
    have hj' : (e.act .timestep).decomposition.focus = some j := hfocus.trans hj
    refine ⟨hadmitted hj' hc fun t ht => ?_, j, hj', hmove⟩
    cases htask.symm.trans ht
    exact hadmits
  | abortCurrent =>
    -- the task has ended, or there was none to end
    obtain ⟨b, hb⟩ := exists_block? (h.course.coherent.focus_lt k hk)
    obtain ⟨hfocus, htask⟩ := e.abortCurrent_keeps
    have hk' : (e.act .abortCurrent).decomposition.focus = some k := hfocus.trans hk
    refine ⟨hadmitted hk' hb fun t ht => ?_, k, hk', .inl rfl⟩
    exact h.admits_of_focus hk hb (htask.symm.trans ht)

/-- If parts are always taken, the focus stays or goes to the block that a part heads. -/
theorem descends (h : e.Admitted) (hunit : UnitSource.InUnit R S)
    (halways : e.allocation.partitioning.always = true) (hk : e.decomposition.focus = some k)
    (hb : e.decomposition.block? k = some b) (act : Act) :
    ∃ j, (e.act act).decomposition.focus = some j ∧
      (j = k ∨ ∃ t, b.isPart t = true ∧ e.decomposition.blockOf? t = some j) := by
  obtain ⟨-, j, hj, hmove⟩ := h.act hunit act hk
  refine ⟨j, hj, ?_⟩
  rcases hmove with hstay | ⟨t, ht, hstep⟩
  · exact .inl hstay
  · have hpart := (h.admits_of_focus hk hb ht).isPart_of_always halways
    rcases h.course.coherent.focusStep_of_isPart hb hpart hstep with hstay | hbelow
    · exact .inl hstay
    · exact .inr ⟨t, hpart, hbelow⟩

/-- If parts are never taken, the focus stays or goes to the block above. -/
theorem ascends (h : e.Admitted) (hunit : UnitSource.InUnit R S)
    (halways : e.allocation.partitioning.always = false)
    (hnever : e.allocation.partitioning.never = true) (hk : e.decomposition.focus = some k)
    (hb : e.decomposition.block? k = some b) (act : Act) :
    ∃ j, (e.act act).decomposition.focus = some j ∧
      (j = k ∨ e.decomposition.above k = .ok (some j)) := by
  obtain ⟨-, j, hj, hmove⟩ := h.act hunit act hk
  refine ⟨j, hj, ?_⟩
  rcases hmove with hstay | ⟨t, ht, hstep⟩
  · exact .inl hstay
  · have hroot := (h.admits_of_focus hk hb ht).eq_root_of_never halways hnever
    subst hroot
    exact h.course.coherent.focusStep_of_root hb hstep

/-! ### Runs -/

theorem after (h : e.Admitted) (hunit : UnitSource.InUnit R S) (acts : List Act) :
    (e.after acts).Admitted := by
  induction acts generalizing e with
  | nil => exact h
  | cons act acts ih =>
    obtain ⟨k, b, hk, -⟩ := h.exists_focus
    exact ih (h.act hunit act hk).1

/-- **A run that has nowhere to go stays.**  If after no task that may be chosen a way is open,
none of them is chosen anywhere else. -/
theorem settled_after (h : e.Admitted) (hunit : UnitSource.InUnit R S)
    (hk : e.decomposition.focus = some k) (hb : e.decomposition.block? k = some b)
    (hsettled : ∀ t, e.allocation.partitioning.Admits b t → e.decomposition.IsSettled b t)
    (acts : List Act) :
    (e.after acts).decomposition.focus = some k ∧
      ∀ t, (e.after acts).phase.task? = some t → e.allocation.partitioning.Admits b t := by
  induction acts generalizing e b with
  | nil => exact ⟨hk, fun t ht => h.admits_of_focus hk hb ht⟩
  | cons act acts ih =>
    obtain ⟨hact, j, hj, hmove⟩ := h.act hunit act hk
    have hstay : j = k := by
      rcases hmove with hstay | ⟨t, ht, hstep⟩
      · exact hstay
      · have hopen := hsettled t (h.admits_of_focus hk hb ht)
        exact h.course.coherent.focusStep_of_settled hb hopen hstep
    subst hstay
    -- the block is the same but for what it remembers
    have houtline := e.outline_act act
    have hallocation := allocation_of_settings (e.settings_act act)
    obtain ⟨c, hc, hmembers⟩ := exists_block?_of_outline houtline.symm hb
    have hsettled' : ∀ t, (e.act act).allocation.partitioning.Admits c t →
        (e.act act).decomposition.IsSettled c t := by
      intro t hadmits
      rw [hallocation] at hadmits
      exact Coherent.isSettled_of_outline houtline hmembers
        (hsettled t (hadmits.of_members hmembers.symm))
    obtain ⟨hfocus, hadmits⟩ := ih hact hj hc hsettled'
    rw [hallocation] at hadmits
    exact ⟨hfocus, fun t ht => (hadmits t ht).of_members hmembers.symm⟩

end Admitted

/-! ### Levels along a run -/

section Levels

variable [Scalar S] [UnitSource R S] [IndexSource R] [Performer M] {e : Executive S R M}

theorem after_append (e : Executive S R M) (acts more : List Act) :
    e.after (acts ++ more) = (e.after acts).after more := List.foldl_append

theorem allocation_after (e : Executive S R M) (acts : List Act) :
    (e.after acts).allocation = e.allocation := by
  induction acts generalizing e with
  | nil => rfl
  | cons act acts ih => exact (ih (e.act act)).trans (allocation_of_settings (e.settings_act act))

/-- Levels are laid down, so that the level that is reached may be looked up before the act. -/
theorem atLevel_act {act : Act} {j : BlockId} {n : Nat}
    (hj : (e.act act).decomposition.focus = some j) (hn : e.decomposition.level j = .ok n) :
    (e.act act).AtLevel n :=
  ⟨j, hj, by rw [level_eq_of_outline (e.outline_act act), hn]⟩

namespace Admitted

/-- An act that descends leads to no level above. -/
theorem exists_atLevel_of_always (h : e.Admitted) (hunit : UnitSource.InUnit R S)
    (halways : e.allocation.partitioning.always = true) (act : Act) :
    ∃ m n, e.AtLevel m ∧ (e.act act).AtLevel n ∧ m ≤ n := by
  obtain ⟨k, b, hk, hb⟩ := h.exists_focus
  obtain ⟨j, hj, hmove⟩ := h.descends hunit halways hk hb act
  have hcoherent := h.course.coherent
  rcases hmove with rfl | ⟨t, hpart, hbelow⟩
  · obtain ⟨n, hn⟩ := hcoherent.exists_level hb
    exact ⟨n, n, ⟨j, hk, hn⟩, atLevel_act hj hn, Nat.le_refl n⟩
  · -- the block that was left is the one above
    obtain ⟨c, hc, -⟩ := hcoherent.blockOf?_eq_some_iff.mp hbelow
    have habove := hcoherent.above_of_blockOf? hb hpart hbelow
    obtain ⟨n, hn, hlower⟩ := hcoherent.exists_level_of_above hc habove
    exact ⟨n, n + 1, ⟨k, hk, hn⟩, atLevel_act hj hlower, Nat.le_succ n⟩

/-- An act that ascends leads to no level below. -/
theorem exists_atLevel_of_never (h : e.Admitted) (hunit : UnitSource.InUnit R S)
    (halways : e.allocation.partitioning.always = false)
    (hnever : e.allocation.partitioning.never = true) (act : Act) :
    ∃ m n, e.AtLevel m ∧ (e.act act).AtLevel n ∧ n ≤ m := by
  obtain ⟨k, b, hk, hb⟩ := h.exists_focus
  obtain ⟨j, hj, hmove⟩ := h.ascends hunit halways hnever hk hb act
  have hcoherent := h.course.coherent
  rcases hmove with rfl | habove
  · obtain ⟨n, hn⟩ := hcoherent.exists_level hb
    exact ⟨n, n, ⟨j, hk, hn⟩, atLevel_act hj hn, Nat.le_refl n⟩
  · obtain ⟨n, hn, hlower⟩ := hcoherent.exists_level_of_above hb habove
    exact ⟨n + 1, n, ⟨k, hk, hlower⟩, atLevel_act hj hn, Nat.le_succ n⟩

/-- **How levels compare before and after an act, they compare before and after a run.** -/
theorem exists_atLevel_after {Rel : Nat → Nat → Prop} (hrefl : ∀ n, Rel n n)
    (htrans : ∀ {l m n}, Rel l m → Rel m n → Rel l n) {a : Allocation S}
    (hact : ∀ {e : Executive S R M} act, e.Admitted → e.allocation = a →
      ∃ m n, e.AtLevel m ∧ (e.act act).AtLevel n ∧ Rel m n)
    (hunit : UnitSource.InUnit R S) (h : e.Admitted) (hallocation : e.allocation = a)
    (acts : List Act) :
    ∃ m n, e.AtLevel m ∧ (e.after acts).AtLevel n ∧ Rel m n := by
  induction acts generalizing e with
  | nil =>
    obtain ⟨n, hn⟩ := h.exists_atLevel
    exact ⟨n, n, hn, hn, hrefl n⟩
  | cons act acts ih =>
    have hkept : (e.act act).allocation = a :=
      (allocation_of_settings (e.settings_act act)).trans hallocation
    obtain ⟨l, m, hl, hm, hfirst⟩ := hact act h hallocation
    obtain ⟨m', n, hm', hn, hrest⟩ := ih (h.after hunit [act]) hkept
    obtain rfl := hm.unique hm'
    exact ⟨l, n, hl, hn, htrans hfirst hrest⟩

end Admitted

end Levels

/-! ### One-way runs -/

section Runs

variable [Scalar S] [UnitSource R S] [IndexSource R] [Performer M] {e : Executive S R M}
  {R₀ : Type} [UnitSource R₀ S] [IndexSource R₀] (root : TaskSpec S) (curve : Logistic S)
  (calls : List (Decomposition.Call S R₀)) {a : Allocation S} {abort : AbortCurve S} {learns : Bool}
  {source : R} {mechanisms : Array M}
  (hunit : UnitSource.InUnit R S)
  (hstart : start ((single root curve).run calls) a abort learns source mechanisms = .ok e)
  (hpolicy : a.policy = .neighbour) (hblocks : 0 < ((single root curve).run calls).blocks.size)

include hunit hstart hpolicy hblocks

/-- **A run that always takes parts only descends.**  Every task is a part in the block with the
focus, and so never the root.  An act leaves the focus or gives it to a block that one of the
two parts heads, so that the level never decreases.  Once both parts are leaves the focus
stays, and no other task runs. -/
theorem always_descends (halways : a.partitioning.always = true) (acts : List Act) :
    ∃ k b, (e.after acts).decomposition.focus = some k ∧
      (e.after acts).decomposition.block? k = some b ∧
      (∀ t, (e.after acts).phase.task? = some t → b.isPart t = true ∧ t ≠ Forest.root) ∧
      (∀ act, ∃ j, ((e.after acts).act act).decomposition.focus = some j ∧
        (j = k ∨ ∃ t, b.isPart t = true ∧ (e.after acts).decomposition.blockOf? t = some j)) ∧
      (∀ more, ∃ m n, (e.after acts).AtLevel m ∧ (e.after (acts ++ more)).AtLevel n ∧ m ≤ n) ∧
      ((∀ t, b.isPart t = true → (e.after acts).decomposition.forest.parts? t = none) →
        ∀ more, (e.after (acts ++ more)).decomposition.focus = some k ∧
          ∀ t, (e.after (acts ++ more)).phase.task? = some t → b.isPart t = true) := by
  obtain ⟨hstarted, rfl⟩ :=
    admitted_of_start (Coherent.run (.single root curve) calls) hstart hpolicy hblocks
  have h := hstarted.after hunit acts
  have halways' : (e.after acts).allocation.partitioning.always = true := by
    rw [allocation_after, halways]
  simp only [after_append]
  generalize e.after acts = e' at h halways' ⊢
  obtain ⟨k, b, hk, hb⟩ := h.exists_focus
  refine ⟨k, b, hk, hb, ?tasks, ?moves, ?levels, ?stays⟩
  case tasks =>
    intro t ht
    have hpart := (h.admits_of_focus hk hb ht).isPart_of_always halways'
    have hparts := h.course.coherent.parts_root k b hb
    obtain ⟨-, hne, -⟩ :=
      h.course.coherent.forest.hangs _ _ _ hparts t ((b.isPart_iff t).mp hpart)
    exact ⟨hpart, hne⟩
  case moves => exact fun act => h.descends hunit halways' hk hb act
  case levels =>
    refine Admitted.exists_atLevel_after Nat.le_refl Nat.le_trans ?_ hunit h rfl
    intro e act h hallocation
    exact h.exists_atLevel_of_always hunit (by rw [hallocation, halways']) act
  case stays =>
    intro hleaves more
    have hsettled : ∀ t, e'.allocation.partitioning.Admits b t →
        e'.decomposition.IsSettled b t := by
      intro t hadmits
      have hpart := hadmits.isPart_of_always halways'
      exact .inr ⟨hpart, hleaves t hpart⟩
    obtain ⟨hfocus, hadmits⟩ := h.settled_after hunit hk hb hsettled more
    exact ⟨hfocus, fun t ht => (hadmits t ht).isPart_of_always halways'⟩

/-- **A run that never takes parts only ascends.**  Every task is the head of the block with the
focus.  An act leaves the focus or gives it to the block above, so that the level never
increases.  Once the block of the root has the focus, nothing but the root runs. -/
theorem never_ascends (halways : a.partitioning.always = false)
    (hnever : a.partitioning.never = true) (acts : List Act) :
    ∃ k b, (e.after acts).decomposition.focus = some k ∧
      (e.after acts).decomposition.block? k = some b ∧
      (∀ t, (e.after acts).phase.task? = some t → t = b.root) ∧
      (∀ act, ∃ j, ((e.after acts).act act).decomposition.focus = some j ∧
        (j = k ∨ (e.after acts).decomposition.above k = .ok (some j))) ∧
      (∀ more, ∃ m n, (e.after acts).AtLevel m ∧ (e.after (acts ++ more)).AtLevel n ∧ n ≤ m) ∧
      (b.root = Forest.root → ∀ more, (e.after (acts ++ more)).decomposition.focus = some k ∧
        ∀ t, (e.after (acts ++ more)).phase.task? = some t → t = Forest.root) := by
  obtain ⟨hstarted, rfl⟩ :=
    admitted_of_start (Coherent.run (.single root curve) calls) hstart hpolicy hblocks
  have h := hstarted.after hunit acts
  have halways' : (e.after acts).allocation.partitioning.always = false := by
    rw [allocation_after, halways]
  have hnever' : (e.after acts).allocation.partitioning.never = true := by
    rw [allocation_after, hnever]
  simp only [after_append]
  generalize e.after acts = e' at h halways' hnever' ⊢
  obtain ⟨k, b, hk, hb⟩ := h.exists_focus
  refine ⟨k, b, hk, hb, ?tasks, ?moves, ?levels, ?stays⟩
  case tasks =>
    exact fun t ht => (h.admits_of_focus hk hb ht).eq_root_of_never halways' hnever'
  case moves => exact fun act => h.ascends hunit halways' hnever' hk hb act
  case levels =>
    refine Admitted.exists_atLevel_after Nat.le_refl (fun hlm hmn => Nat.le_trans hmn hlm) ?_
      hunit h rfl
    intro e act h hallocation
    exact h.exists_atLevel_of_never hunit (by rw [hallocation, halways'])
      (by rw [hallocation, hnever']) act
  case stays =>
    intro htop more
    have hroot : ∀ t, e'.allocation.partitioning.Admits b t → t = b.root :=
      fun t hadmits => hadmits.eq_root_of_never halways' hnever'
    have hsettled : ∀ t, e'.allocation.partitioning.Admits b t →
        e'.decomposition.IsSettled b t := by
      intro t hadmits
      have ht := hroot t hadmits
      exact .inl ⟨ht, ht.trans htop⟩
    obtain ⟨hfocus, hadmits⟩ := h.settled_after hunit hk hb hsettled more
    exact ⟨hfocus, fun t ht => (hroot t (hadmits t ht)).trans htop⟩

end Runs

/-! ### Runs to look at -/

section Example

attribute [local instance] Scalar.rational

/-- An executive for tasks on three levels, after further calls. -/
def startThreeLevels (calls : List (Decomposition.Call ℚ ScriptedWords)) (p : Partitioning ℚ) :
    Except ExecutiveError (Executive ℚ ScriptedWords) :=
  start (threeLevels calls) ⟨.neighbour, p⟩ .standard true ⟨[]⟩
    (#[3, 2, 2, 1, 1, 2, 1].map .lasting)

theorem exists_startThreeLevels (calls : List (Decomposition.Call ℚ ScriptedWords))
    (p : Partitioning ℚ)
    (hvalid : (threeLevels calls).validate = .ok ()) (hsize : (threeLevels calls).forest.size = 7) :
    ∃ e, startThreeLevels calls p = .ok e ∧ e.decomposition = threeLevels calls := by
  refine ⟨_, start_eq_ok_iff.mpr ⟨hvalid, ?_, rfl⟩, rfl⟩
  rw [Array.size_map, hsize]
  rfl

/-- From the block deepest down, whose parts are leaves, no way leads. -/
theorem always_descends_three_levels :
    ∃ e, startThreeLevels [.initFocus .deepest ⟨[]⟩] { Partitioning.standard with always := true } =
        .ok e ∧
      ∀ acts, (e.after acts).decomposition.focus = some 2 ∧
        ∀ t, (e.after acts).phase.task? = some t → t = 5 ∨ t = 6 := by
  obtain ⟨e, hstart, he⟩ := exists_startThreeLevels [.initFocus .deepest ⟨[]⟩]
    { Partitioning.standard with always := true } (by decide +kernel) (by decide +kernel)
  refine ⟨e, hstart, fun acts => ?_⟩
  obtain ⟨k, b, hk, hb, -, -, -, hstays⟩ := always_descends _ _ _
    (UnitSource.inUnit_exact _ ScriptedWords) hstart rfl (by decide +kernel) rfl []
  have hfocus : (threeLevels [.initFocus .deepest ⟨[]⟩]).focus = some 2 := by decide +kernel
  have hblock : (threeLevels [.initFocus .deepest ⟨[]⟩]).block? 2 = some (.new 3 5 6) := by
    decide +kernel
  have hleaves : ∀ t ∈ [5, 6],
      (threeLevels [.initFocus .deepest ⟨[]⟩]).forest.parts? t = none := by decide +kernel
  change e.decomposition.focus = some k at hk
  change e.decomposition.block? k = some b at hb
  change (∀ t, b.isPart t = true → e.decomposition.forest.parts? t = none) → _ at hstays
  rw [he] at hk hb hstays
  cases hfocus.symm.trans hk
  cases hblock.symm.trans hb
  simp only [Block.isPart_iff, List.nil_append] at hstays
  exact hstays (fun t ht => hleaves t (by simpa [Block.new] using ht)) acts

/-- At the top, where the focus is from the start, the root runs for ever. -/
theorem never_ascends_three_levels :
    ∃ e, startThreeLevels [] { Partitioning.standard with never := true } = .ok e ∧
      ∀ acts, (e.after acts).decomposition.focus = some 0 ∧
        ∀ t, (e.after acts).phase.task? = some t → t = Forest.root := by
  obtain ⟨e, hstart, he⟩ := exists_startThreeLevels []
    { Partitioning.standard with never := true } (by decide +kernel) (by decide +kernel)
  refine ⟨e, hstart, fun acts => ?_⟩
  obtain ⟨k, b, hk, hb, -, -, -, hstays⟩ := never_ascends _ _ _
    (UnitSource.inUnit_exact _ ScriptedWords) hstart rfl (by decide +kernel) rfl rfl []
  have hfocus : (threeLevels []).focus = some 0 := by decide +kernel
  have hblock : (threeLevels []).block? 0 = some (.new 0 1 2) := by decide +kernel
  change e.decomposition.focus = some k at hk
  change e.decomposition.block? k = some b at hb
  rw [he] at hk hb
  cases hfocus.symm.trans hk
  cases hblock.symm.trans hb
  exact hstays rfl acts

end Example

end Executive

end TaskAllocation
