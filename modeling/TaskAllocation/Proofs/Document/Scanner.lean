import Mathlib.Data.List.TakeDrop
import TaskAllocation.Document.Scanner

/-!
# What scanners read

A scanner reads a text when it takes just that text from the front of whatever stands
before it.  What follows matters: a run of characters ends only where a character of
another kind comes, so the rest is part of the statement.  The bound on repetitions is
taken to exceed everything that is left, which holds throughout the reading of a whole text
and is kept by every part of it; from then on it is out of the way.

## Main definitions

* `Scanner.Reads` — a scanner takes a text from the front and returns a value.
* `Scanner.Collects` — the pieces that a repeated scanner reads one after another.

## Main results

* `Scanner.Reads.bind` — texts are put together as scanners are.
* `Scanner.Collects.reads` — a repeated scanner reads its pieces.
* `Scanner.Reads.run_eq` — what a scanner makes of a whole text.
-/

namespace TaskAllocation.Scanner

variable {α β : Type} {s : Scanner α} {w w' rest : List Char} {a : α} {b : β}

/-- The scanner takes the text `w` from in front of `rest`, and returns `a`. -/
def Reads (s : Scanner α) (w : List Char) (a : α) (rest : List Char) : Prop :=
  ∀ bound, w.length + rest.length < bound → s bound (w ++ rest) = .ok (a, rest)

/-! ### Composition -/

theorem Reads.pure (a : α) (rest : List Char) : Reads (Pure.pure a : Scanner α) [] a rest :=
  fun _ _ => rfl

theorem Reads.bind {f : α → Scanner β} (first : Reads s w a (w' ++ rest))
    (second : Reads (f a) w' b rest) : Reads (s >>= f) (w ++ w') b rest := by
  intro bound hb
  simp only [List.length_append] at hb
  have h₁ := first bound (by simp only [List.length_append]; omega)
  have h₂ := second bound (by omega)
  change Scanner.bind s f bound _ = _
  rw [List.append_assoc, Scanner.bind, h₁]
  exact h₂

/-- One scanner after another, the first of which reads nothing. -/
theorem Reads.bind_nil {f : α → Scanner β} (first : Reads s [] a (w ++ rest))
    (second : Reads (f a) w b rest) : Reads (s >>= f) w b rest :=
  first.bind second

/-- One scanner after another, the second of which reads nothing. -/
theorem Reads.bind_all {f : α → Scanner β} (first : Reads s w a rest)
    (second : Reads (f a) [] b rest) : Reads (s >>= f) w b rest := by
  rw [← List.append_nil w]
  exact Reads.bind first second

/-- Something is done to what was read. -/
theorem Reads.map {f : α → β} (h : Reads s w a rest) :
    Reads (s >>= fun a => Pure.pure (f a)) w (f a) rest := h.bind_all (.pure (f a) rest)

/-! ### Characters -/

theorem Reads.remainder (cs : List Char) : Reads Scanner.rest [] cs cs := fun _ _ => rfl

theorem Reads.peek? (rest : List Char) : Reads Scanner.peek? [] rest.head? rest :=
  fun _ _ => rfl

theorem Reads.next (c : Char) (rest : List Char) : Reads Scanner.next [c] c rest :=
  fun _ _ => rfl

theorem Reads.accept (expected : String) (rest : List Char) :
    Reads (Scanner.accept expected) expected.toList true rest := by
  intro bound _
  have hp : expected.toList.isPrefixOf (expected.toList ++ rest) = true :=
    List.isPrefixOf_iff_prefix.2 (List.prefix_append _ _)
  rw [Scanner.accept, if_pos hp, ← String.length_toList, List.drop_left]

theorem Reads.refuse {expected : String} (h : ¬expected.toList <+: rest) :
    Reads (Scanner.accept expected) [] false rest := by
  intro bound _
  rw [Scanner.accept, if_neg (by rwa [List.isPrefixOf_iff_prefix])]
  rfl

theorem Reads.expect (expected : String) (rest : List Char) :
    Reads (Scanner.expect expected) expected.toList () rest :=
  (Reads.accept expected rest).bind_all (.pure () rest)

/-- Of two alternatives the first is taken, and reads on. -/
theorem Reads.accepted {x y : Scanner α} (expected : String) (h : Reads x w a rest) :
    Reads (Scanner.accept expected >>= fun b => if b = true then x else y)
      (expected.toList ++ w) a rest :=
  (Reads.accept expected (w ++ rest)).bind h

/-- Of two alternatives the second is taken, as the text of the first is not there. -/
theorem Reads.refused {x y : Scanner α} {expected : String}
    (hne : ¬expected.toList <+: w ++ rest) (h : Reads y w a rest) :
    Reads (Scanner.accept expected >>= fun b => if b = true then x else y) w a rest :=
  (Reads.refuse hne).bind_nil h

theorem span_append {p : Char → Bool} (hw : ∀ c ∈ w, p c = true)
    (hrest : ∀ c ∈ rest.head?, p c = false) : (w ++ rest).span p = (w, rest) := by
  have hstop : rest.takeWhile p = [] ∧ rest.dropWhile p = rest := by
    cases rest with
    | nil => simp
    | cons c cs => simp [hrest c rfl]
  rw [List.span_eq_takeWhile_dropWhile, List.takeWhile_append_of_pos hw,
    List.dropWhile_append_of_pos hw, hstop.1, hstop.2, List.append_nil]

theorem Reads.takeWhile {p : Char → Bool} (hw : ∀ c ∈ w, p c = true)
    (hrest : ∀ c ∈ rest.head?, p c = false) : Reads (Scanner.takeWhile p) w w rest := by
  intro bound _
  rw [Scanner.takeWhile, span_append hw hrest]

theorem Reads.skipWhile {p : Char → Bool} (hw : ∀ c ∈ w, p c = true)
    (hrest : ∀ c ∈ rest.head?, p c = false) : Reads (Scanner.skipWhile p) w () rest := by
  intro bound _
  have h := span_append hw hrest
  rw [List.span_eq_takeWhile_dropWhile] at h
  rw [Scanner.skipWhile, (Prod.mk.inj h).2]

/-! ### Repetition -/

/-- The pieces that a repeated scanner reads: each takes something, and the last one
nothing more. -/
inductive Collects (step : Scanner (Option α)) (rest : List Char) :
    (w : List Char) → (items : List α) → Prop where
  /-- The scanner says that it is done. -/
  | done {w : List Char} (h : Reads step w none rest) : Collects step rest w []
  /-- The scanner returns something. -/
  | more {w w' : List Char} {a : α} {items : List α} (hw : w ≠ [])
      (h : Reads step w (some a) (w' ++ rest)) (others : Collects step rest w' items) :
      Collects step rest (w ++ w') (a :: items)

theorem Collects.upTo {step : Scanner (Option α)} {items : List α}
    (h : Collects step rest w items) {count : Nat} (hcount : w.length < count) :
    Reads (Scanner.collectUpTo step count) w items rest := by
  induction h generalizing count with
  | @done w h =>
    obtain _ | count := count
    · simp at hcount
    · intro bound hb
      change Scanner.bind step _ bound _ = _
      rw [Scanner.bind, h bound hb]
      rfl
  | @more w w' a items hw h others ih =>
    have hpos : 0 < w.length := List.length_pos_iff.2 hw
    rw [List.length_append] at hcount
    obtain _ | count := count
    · omega
    · exact h.bind (ih (by omega)).map

/-- A repeated scanner reads its pieces. -/
theorem Collects.reads {step : Scanner (Option α)} {items : List α}
    (h : Collects step rest w items) : Reads (Scanner.collect step) w items rest := by
  intro bound hb
  exact h.upTo (by omega) bound hb

/-! ### Whole texts -/

/-- What a scanner makes of a whole text. -/
theorem Reads.run_eq {text : String} (h : Reads s text.toList a []) :
    Scanner.run s text = .ok a := by
  have := h (text.toList.length + 1) (by simp)
  rw [List.append_nil] at this
  simp only [Scanner.run, this]

end TaskAllocation.Scanner
