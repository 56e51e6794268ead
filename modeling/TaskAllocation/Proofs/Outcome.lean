import Mathlib.Data.List.Forall2

/-!
# Computations that succeed

When a computation that may fail, put together from others, succeeds.

## Main results

* `Except.bind_eq_ok_iff`, `Except.guard_eq_ok_iff`, `Except.map_eq_ok_iff`,
  `Except.mapError_eq_ok_iff` — one step of such a computation.
* `Except.mapM_eq_ok_iff` — one for every element of a list.
* `Except.foldlM_invariant`, `Except.foldlM_total` — one after another along a list: what
  every step keeps, and when all of them succeed.
-/

namespace Except

variable {ε α β : Type}

/-- A computation that is seen to succeed has a result. -/
theorem exists_of_isOk {x : Except ε α} (h : x.isOk = true) : ∃ a, x = .ok a := by
  cases x with
  | error e => cases h
  | ok a => exact ⟨a, rfl⟩

theorem pure_eq_ok_iff {a b : α} : (pure a : Except ε α) = .ok b ↔ a = b := by
  simp [pure, Except.pure]

/-- A step that succeeds hands its result on. -/
theorem ok_bind (a : α) (next : α → Except ε β) : (ok a >>= next) = next a := rfl

theorem bind_eq_ok_iff {x : Except ε α} {next : α → Except ε β} {b : β} :
    x >>= next = .ok b ↔ ∃ a, x = .ok a ∧ next a = .ok b := by
  cases x with
  | error e => simp [bind, Except.bind]
  | ok a => simp [bind, Except.bind]

/-- A check goes well if what it refuses is not the case. -/
theorem guard_eq_ok_iff {c : Prop} [Decidable c] {e : ε} {skipped : α → Except ε β}
    {x : Except ε β} {b : β} :
    (if c then throw e >>= skipped else x) = .ok b ↔ ¬ c ∧ x = .ok b := by
  by_cases h : c
  · rw [if_pos h]
    exact iff_of_false (fun h => by cases h) (fun hc => hc.1 h)
  · rw [if_neg h]
    exact (and_iff_right h).symm

theorem map_eq_ok_iff {x : Except ε α} {change : α → β} {b : β} :
    x.map change = .ok b ↔ ∃ a, x = .ok a ∧ change a = b := by
  cases x with
  | error e => simp [Except.map]
  | ok a => simp [Except.map]

/-- Rewording an error is no way to succeed. -/
theorem mapError_eq_ok_iff {ε' : Type} {x : Except ε α} {reword : ε → ε'} {a : α} :
    x.mapError reword = .ok a ↔ x = .ok a := by
  cases x with
  | error e => simp [Except.mapError]
  | ok b => simp [Except.mapError]

/-! ### Along a list -/

theorem mapM_eq_ok_iff {f : α → Except ε β} {xs : List α} {ys : List β} :
    xs.mapM f = .ok ys ↔ List.Forall₂ (fun x y => f x = .ok y) xs ys := by
  induction xs generalizing ys with
  | nil =>
    rw [List.mapM_nil, pure_eq_ok_iff, List.forall₂_nil_left_iff, eq_comm]
  | cons x xs ih =>
    simp only [List.mapM_cons, bind_eq_ok_iff, pure_eq_ok_iff, List.forall₂_cons_left_iff, ih]
    constructor
    · rintro ⟨y, hy, rest, hrest, rfl⟩
      exact ⟨y, rest, hy, hrest, rfl⟩
    · rintro ⟨y, rest, hy, hrest, rfl⟩
      exact ⟨y, hy, rest, hrest, rfl⟩

theorem foldlM_cons_eq_ok_iff {f : β → α → Except ε β} {x : α} {xs : List α} {b c : β} :
    (x :: xs).foldlM f b = .ok c ↔ ∃ b', f b x = .ok b' ∧ xs.foldlM f b' = .ok c := by
  rw [List.foldlM_cons, bind_eq_ok_iff]

/-- What every step keeps, the place in the list being known, holds in the end. -/
theorem foldlM_invariant {f : β → α → Except ε β} {xs : List α} {P : Nat → β → Prop}
    (hstep : ∀ m x b b', xs[m]? = some x → P m b → f b x = .ok b' → P (m + 1) b')
    {b c : β} (hb : P 0 b) (hfold : xs.foldlM f b = .ok c) : P xs.length c := by
  induction xs generalizing P b with
  | nil =>
    rw [List.foldlM_nil, pure_eq_ok_iff] at hfold
    exact hfold ▸ hb
  | cons x xs ih =>
    obtain ⟨b', hx, hfold⟩ := foldlM_cons_eq_ok_iff.mp hfold
    exact ih (P := fun m => P (m + 1)) (fun m y b b' hy => hstep (m + 1) y b b' (by simpa using hy))
      (hstep 0 x b b' rfl hb hx) hfold

/-- All steps succeed if each does, given what the steps before it keep. -/
theorem foldlM_total (f : β → α → Except ε β) (xs : List α) {P : Nat → β → Prop}
    (hstep : ∀ m x b, xs[m]? = some x → P m b → ∃ b', f b x = .ok b' ∧ P (m + 1) b')
    {b : β} (hb : P 0 b) : ∃ c, xs.foldlM f b = .ok c ∧ P xs.length c := by
  induction xs generalizing P b with
  | nil => exact ⟨b, rfl, hb⟩
  | cons x xs ih =>
    obtain ⟨b', hx, hb'⟩ := hstep 0 x b rfl hb
    obtain ⟨c, hfold, hc⟩ := ih (P := fun m => P (m + 1))
      (fun m y b hy => hstep (m + 1) y b (by simpa using hy)) hb'
    exact ⟨c, foldlM_cons_eq_ok_iff.mpr ⟨b', hx, hfold⟩, hc⟩

end Except
