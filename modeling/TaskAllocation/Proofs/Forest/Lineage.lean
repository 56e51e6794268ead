import Mathlib.Logic.Function.Iterate
import TaskAllocation.Proofs.Forest.Links

/-!
# Lineages

Going upwards from a task, parent by parent, either comes to a task that is its own
parent or goes on for ever.  `Ascent` says that it comes to an end, and names the tasks
on the way.  An ascent never meets a task twice, so in a forest whose parents are all
tasks it has at most as many entries as there are tasks; a lineage, which takes that
many steps, is then the whole ascent.

## Main definitions

* `Forest.Ascent` — the tasks met on the way up from a task, to the last.
* `Forest.StepsUp` — how many steps it takes.

## Main results

* `Forest.Ascent.nodup`, `Forest.Ascent.length_le_size` — an ascent is short.
* `Forest.Ascent.lineage_eq` — a lineage is the whole ascent.
* `Forest.Ascent.mem_iff_iterate` — what is met on the way up, step by step.
* `Forest.Ascent.link` — the ascents after linking.
-/

namespace TaskAllocation

namespace Forest

variable {S : Type}

/-- `f.Ascent t line` says that going upwards from `t` one meets the tasks of `line`,
the last of which is its own parent. -/
inductive Ascent (f : Forest S) : TaskId → List TaskId → Prop
  /-- A task that is its own parent is the top. -/
  | top {t : TaskId} (h : f.parent t = t) : Ascent f t [t]
  /-- Above any other task comes what is met from its parent on. -/
  | step {t : TaskId} {line : List TaskId} (h : f.parent t ≠ t)
      (rest : Ascent f (f.parent t) line) : Ascent f t (t :: line)

/-- It takes `n` steps upwards from `t` to come to a task that is its own parent. -/
structure StepsUp (f : Forest S) (t : TaskId) (n : Nat) : Prop where
  /-- After them one has come to it. -/
  top : f.parent (f.parent^[n] t) = f.parent^[n] t
  /-- After fewer one has not. -/
  not_top : ∀ m, m < n → f.parent (f.parent^[m] t) ≠ f.parent^[m] t

namespace Ascent

variable {f g : Forest S} {t u : TaskId} {line : List TaskId}

theorem mem_self (h : f.Ascent t line) : t ∈ line := by
  cases h with
  | top _ => exact List.mem_singleton_self t
  | step _ _ => exact List.mem_cons_self

theorem unique {other : List TaskId} (h : f.Ascent t line) (h' : f.Ascent t other) :
    line = other := by
  induction h generalizing other with
  | top htop =>
    cases h' with
    | top _ => rfl
    | step hne _ => exact absurd htop hne
  | step hne _ ih =>
    cases h' with
    | top htop => exact absurd htop hne
    | step _ rest => rw [ih rest]

/-- From every task on the way, the rest of the way is its own ascent. -/
theorem exists_suffix (h : f.Ascent t line) (hu : u ∈ line) :
    ∃ rest, f.Ascent u rest ∧ rest <:+ line := by
  induction h with
  | top htop =>
    rw [List.mem_singleton] at hu
    subst hu
    exact ⟨_, .top htop, List.suffix_refl _⟩
  | step hne rest ih =>
    rcases List.mem_cons.mp hu with rfl | hu
    · exact ⟨_, .step hne rest, List.suffix_refl _⟩
    · obtain ⟨rest, hrest, hsuffix⟩ := ih hu
      exact ⟨rest, hrest, hsuffix.trans (List.suffix_cons _ _)⟩

/-- **An ascent never meets a task twice**: the way up from the second time would be
the whole way up again, and shorter. -/
theorem nodup (h : f.Ascent t line) : line.Nodup := by
  induction h with
  | top _ => simp
  | step hne rest ih =>
    refine List.nodup_cons.mpr ⟨fun hmem => ?_, ih⟩
    obtain ⟨again, hagain, hsuffix⟩ := rest.exists_suffix hmem
    have hlength := hsuffix.length_le
    rw [hagain.unique (.step hne rest), List.length_cons] at hlength
    exact absurd hlength (Nat.not_succ_le_self _)

theorem lt_size_of_mem (hrange : ∀ t, t < f.size → f.parent t < f.size) (h : f.Ascent t line)
    (ht : t < f.size) (hu : u ∈ line) : u < f.size := by
  induction h with
  | top _ => rwa [List.mem_singleton.mp hu]
  | step _ _ ih =>
    rcases List.mem_cons.mp hu with rfl | hu
    · exact ht
    · exact ih (hrange _ ht) hu

/-- An ascent has at most as many entries as there are tasks. -/
theorem length_le_size (hrange : ∀ t, t < f.size → f.parent t < f.size) (h : f.Ascent t line)
    (ht : t < f.size) : line.length ≤ f.size := by
  have hsub : line ⊆ List.range f.size := fun u hu =>
    List.mem_range.mpr (h.lt_size_of_mem hrange ht hu)
  simpa using h.nodup.length_le_of_subset hsub

theorem lineageUpTo_eq {bound : Nat} (h : f.Ascent t line) (hbound : line.length ≤ bound + 1) :
    f.lineageUpTo bound t = line := by
  induction h generalizing bound with
  | top htop => cases bound <;> simp [lineageUpTo, htop]
  | step hne rest ih =>
    cases bound with
    | zero =>
      have hempty := List.length_eq_zero_iff.mp (Nat.le_zero.mp (Nat.le_of_succ_le_succ hbound))
      exact absurd rest.mem_self (by simp [hempty])
    | succ bound =>
      rw [lineageUpTo, if_neg hne, ih (Nat.le_of_succ_le_succ hbound)]

/-- A lineage is the whole ascent. -/
theorem lineage_eq (hrange : ∀ t, t < f.size → f.parent t < f.size) (h : f.Ascent t line) :
    f.lineage t = line := by
  refine h.lineageUpTo_eq ?_
  rcases Nat.lt_or_ge t f.size with hlt | hge
  · exact Nat.le_succ_of_le (h.length_le_size hrange hlt)
  · rw [h.unique (.top (parent_of_size_le hge))]
    exact Nat.succ_le_succ (Nat.zero_le _)

/-- The top is reached by as many steps as there are tasks above. -/
theorem exists_iterate (h : f.Ascent t line) :
    ∃ k, k + 1 = line.length ∧ f.parent (f.parent^[k] t) = f.parent^[k] t := by
  induction h with
  | top htop => exact ⟨0, rfl, htop⟩
  | step _ _ ih =>
    obtain ⟨k, hk, htop⟩ := ih
    exact ⟨k + 1, by rw [hk, List.length_cons], htop⟩

/-- No step before the last leads nowhere. -/
theorem parent_iterate_ne (h : f.Ascent t line) {m : Nat} (hm : m + 1 < line.length) :
    f.parent (f.parent^[m] t) ≠ f.parent^[m] t := by
  induction h generalizing m with
  | top _ => exact absurd hm (Nat.not_lt.mpr (Nat.le_add_left 1 m))
  | step hne _ ih =>
    cases m with
    | zero => exact hne
    | succ m => exact ih (Nat.lt_of_succ_lt_succ hm)

/-- As many steps as there are tasks above lead to the top, and no fewer. -/
theorem stepsUp (h : f.Ascent t line) : f.StepsUp t (line.length - 1) := by
  obtain ⟨n, hn, htop⟩ := h.exists_iterate
  rw [← hn, Nat.add_sub_cancel]
  exact ⟨htop, fun m hm => h.parent_iterate_ne (by omega)⟩

/-- A lineage holds what is met by going upwards, and nothing else. -/
theorem mem_iff_iterate (h : f.Ascent t line) :
    u ∈ line ↔ ∃ n, f.parent^[n] t = u := by
  -- along the lineage: a top is its own parent, so that going on from it leads nowhere
  induction h with
  | @top t htop =>
    rw [List.mem_singleton]
    constructor
    · rintro rfl
      exact ⟨0, rfl⟩
    · rintro ⟨n, rfl⟩
      exact Function.iterate_fixed htop n
  | @step t line hne rest ih =>
    rw [List.mem_cons, ih]
    constructor
    · rintro (rfl | ⟨n, hn⟩)
      · exact ⟨0, rfl⟩
      · exact ⟨n + 1, hn⟩
    · rintro ⟨n, hn⟩
      cases n with
      | zero => exact .inl hn.symm
      | succ n => exact .inr ⟨n, hn⟩

/-- Parents alone decide about ascents. -/
theorem of_parent_eq (hparent : g.parent = f.parent) (h : f.Ascent t line) : g.Ascent t line := by
  induction h with
  | top htop => exact .top (by rw [hparent, htop])
  | step hne _ ih => exact .step (by rwa [hparent]) (by rwa [hparent])

end Ascent

/-- If some number of steps leads to a top, there is an ascent. -/
theorem exists_ascent_of_iterate {f : Forest S} {k : Nat} :
    ∀ {t : TaskId}, f.parent (f.parent^[k] t) = f.parent^[k] t → ∃ line, f.Ascent t line := by
  induction k with
  | zero => exact fun htop => ⟨_, .top htop⟩
  | succ k ih =>
    intro t htop
    by_cases hne : f.parent t = t
    · exact ⟨_, .top hne⟩
    · obtain ⟨line, hline⟩ := ih htop
      exact ⟨_, .step hne hline⟩

/-! ### Ascents after linking -/

section Link

variable {f : Forest S} {parent first second : TaskId} {above : List TaskId}
  (hfirst : first < f.size) (hsecond : second < f.size)

include hfirst hsecond

/-- Ways up that do not meet the new parts stay as they are. -/
theorem Ascent.link_of_notMem {t : TaskId} {line : List TaskId} (h : f.Ascent t line)
    (parent : TaskId) (hline₁ : first ∉ line) (hline₂ : second ∉ line) :
    (f.link parent first second).Ascent t line := by
  have hkeep : ∀ {t : TaskId} {line : List TaskId}, t ∈ line → first ∉ line → second ∉ line →
      (f.link parent first second).parent t = f.parent t := by
    intro t line ht h₁ h₂
    rw [parent_link parent hfirst hsecond, if_neg]
    rintro (rfl | rfl)
    · exact h₁ ht
    · exact h₂ ht
  induction h with
  | top htop => exact .top (by rw [hkeep (List.mem_singleton_self _) hline₁ hline₂, htop])
  | step hne _ ih =>
    have hparent := hkeep List.mem_cons_self hline₁ hline₂
    rw [List.mem_cons, not_or] at hline₁ hline₂
    exact .step (by rwa [hparent]) (by rw [hparent]; exact ih hline₁.2 hline₂.2)

/-- **The ascents after linking.**  The new parts were tops before.  A way up that ended
in one of them now goes on from the parent, and all others stay as they are. -/
theorem Ascent.link {t : TaskId} {line : List TaskId} (h : f.Ascent t line)
    (habove : f.Ascent parent above) (htop₁ : f.parent first = first)
    (htop₂ : f.parent second = second) (hne₁ : first ∉ above) (hne₂ : second ∉ above) :
    (f.link parent first second).Ascent t
      (if first ∈ line ∨ second ∈ line then line ++ above else line) := by
  have hup := habove.link_of_notMem hfirst hsecond parent hne₁ hne₂
  induction h with
  | @top t htop =>
    have hparent := parent_link parent hfirst hsecond t
    by_cases hpart : t = first ∨ t = second
    · rw [if_pos hpart] at hparent
      rw [if_pos (by simpa [eq_comm] using hpart)]
      refine .step ?_ (by rwa [hparent])
      rw [hparent]
      rintro rfl
      rcases hpart with rfl | rfl
      · exact hne₁ habove.mem_self
      · exact hne₂ habove.mem_self
    · rw [if_neg hpart] at hparent
      rw [if_neg (by simpa [eq_comm] using hpart)]
      exact .top (hparent.trans htop)
  | @step t line hne rest ih =>
    -- a task below another is none of the new parts
    have hpart : ¬ (t = first ∨ t = second) := by
      rintro (rfl | rfl)
      · exact hne htop₁
      · exact hne htop₂
    have hparent := parent_link parent hfirst hsecond t
    rw [if_neg hpart] at hparent
    rw [not_or] at hpart
    rw [← hparent] at ih
    have hmem : first ∈ t :: line ∨ second ∈ t :: line ↔ first ∈ line ∨ second ∈ line := by
      simp [Ne.symm hpart.1, Ne.symm hpart.2]
    have hstep := Ascent.step (by rwa [hparent]) ih
    by_cases hend : first ∈ line ∨ second ∈ line
    · rw [if_pos (hmem.mpr hend)]
      rwa [if_pos hend] at hstep
    · rw [if_neg (hmem.not.mpr hend)]
      rwa [if_neg hend] at hstep

end Link

end Forest

end TaskAllocation
