import TaskAllocation.Proofs.Document.Scanner
import TaskAllocation.Toml.Scalar
import TaskAllocation.Toml.Writer

/-!
# Unquoted values are read as they were written

What is not in quotation marks is taken as one word and only then told apart: a truth value
first, then a date or a time, then a number.  A whole number is taken for none of the others
as it holds nothing but digits and a sign.  A word reaches as far as its characters do, and a
blank behind it might still belong to it, so what ends a value has to be told from both.

## Main definitions

* `Toml.isNumeric` — the characters behind the sign of a number.
* `Toml.intDigits` — the characters of a whole number.
* `Toml.isBare` — the characters that unquoted values are made of.
* `Toml.endsValue` — what comes right behind a value.

## Main results

* `Toml.word?_intDigits` — a whole number is read from its digits.
* `Toml.isBare_of_mem_render` — numbers in double precision are written without quotation
  marks and blanks.
* `Toml.reads_word` — a word is read up to its end.
-/

namespace TaskAllocation.Toml

open Scanner

variable {cs rest : List Char}

/-! ### Digits -/

/-- A digit counts for itself. -/
theorem digitValue?_digitChar : ∀ n < 10, digitValue? 10 n.digitChar = some n := by decide

theorem digitValue?_isSome_of_mem_toDigits {c : Char} {n : Nat} (h : c ∈ Nat.toDigits 10 n) :
    (digitValue? 10 c).isSome := by
  induction n using Nat.strongRecOn with
  | ind n ih =>
    obtain hlt | hge := Nat.lt_or_ge n 10
    · rw [Nat.toDigits_of_lt_base hlt, List.mem_singleton] at h
      rw [h, digitValue?_digitChar n hlt]
      rfl
    · rw [Nat.toDigits_of_base_le (by decide) hge, List.mem_append, List.mem_singleton] at h
      obtain h | rfl := h
      · exact ih (n / 10) (by omega) h
      · rw [digitValue?_digitChar _ (Nat.mod_lt n (by decide))]
        rfl

/-- The digits of a number are read as the number. -/
theorem numberOfDigits_toDigits (n : Nat) : numberOfDigits 10 (Nat.toDigits 10 n) = n := by
  induction n using Nat.strongRecOn with
  | ind n ih =>
    obtain hlt | hge := Nat.lt_or_ge n 10
    · simp [Nat.toDigits_of_lt_base hlt, numberOfDigits, digitValue?_digitChar n hlt]
    · have hlast := digitValue?_digitChar (n % 10) (Nat.mod_lt n (by decide))
      have hfront := ih (n / 10) (by omega)
      simp only [numberOfDigits] at hfront
      rw [Nat.toDigits_of_base_le (by decide) hge, numberOfDigits, List.foldl_append, hfront]
      simp only [List.foldl_cons, List.foldl_nil, hlast, Option.getD_some]
      omega

/-- No number but zero begins with a zero. -/
theorem head?_toDigits {n : Nat} (hn : 0 < n) : (Nat.toDigits 10 n).head? ≠ some '0' := by
  induction n using Nat.strongRecOn with
  | ind n ih =>
    obtain hlt | hge := Nat.lt_or_ge n 10
    · have hdigit : ∀ d < 10, 0 < d → d.digitChar ≠ '0' := by decide
      simpa [Nat.toDigits_of_lt_base hlt] using hdigit n hlt hn
    · have hfront := ih (n / 10) (by omega) (by omega)
      obtain ⟨c, ds, hds⟩ :=
        List.exists_cons_of_ne_nil (Nat.toDigits_ne_nil (b := 10) (n := n / 10))
      rw [Nat.toDigits_of_base_le (by decide) hge]
      rw [hds] at hfront ⊢
      exact hfront

/-- Digits without underscores are left as they are. -/
theorem ungroup_of_digits {base : Nat} : ∀ {cs : List Char}, cs ≠ [] →
    (∀ c ∈ cs, (digitValue? base c).isSome) → ungroup base cs = some cs
  | [], h, _ => absurd rfl h
  | [c], _, h => by simp [ungroup, h c]
  | c :: d :: cs, _, h => by
    have hd : d ≠ '_' := by
      rintro rfl
      simpa [digitValue?] using h '_'
    have ih : ungroup base (d :: cs) = some (d :: cs) :=
      ungroup_of_digits (by simp) fun e he => h e (by simp [he])
    simp [ungroup, h c, ih, hd]

theorem decimalDigits_toDigits (n : Nat) :
    decimalDigits (Nat.toDigits 10 n) = some (Nat.toDigits 10 n) := by
  rw [decimalDigits, ungroup_of_digits Nat.toDigits_ne_nil
    fun c hc => digitValue?_isSome_of_mem_toDigits hc]
  obtain rfl | hn := Nat.eq_zero_or_pos n
  · decide
  · simp [head?_toDigits hn]

/-! ### Moments -/

theorem after?_eq_none {d : Char} (h : d ∉ cs) : after? d cs = none := by
  cases cs with
  | nil => rfl
  | cons c cs => rw [after?, if_neg (by rintro rfl; simp at h)]

/-- A date has a hyphen behind its year, and a time of day has a colon. -/
theorem isMoment_eq_false (hcolon : ':' ∉ cs) (hdash : '-' ∉ cs.drop 1) :
    isMoment cs = false := by
  have hyear : after? '-' (cs.drop 4) = none :=
    after?_eq_none fun h => hdash (List.mem_of_mem_drop (i := 3) (by rwa [List.drop_drop]))
  have hhour : after? ':' (cs.drop 2) = none :=
    after?_eq_none fun h => hcolon (List.mem_of_mem_drop h)
  have hdate : date? cs = none := by
    by_cases h : (cs.take 4).length = 4 ∧ (cs.take 4).all Char.isDigit = true
    · simp only [date?, takeNumber?, if_pos h, hyear, Option.bind_eq_bind, Option.bind_some,
        Option.bind_none]
    · simp only [date?, takeNumber?, if_neg h, Option.bind_eq_bind, Option.bind_none]
  have hclock : clock? cs = none := by
    by_cases h : (cs.take 2).length = 2 ∧ (cs.take 2).all Char.isDigit = true
    · simp only [clock?, takeNumber?, if_pos h, hhour, Option.bind_eq_bind, Option.bind_some,
        Option.bind_none]
    · simp only [clock?, takeNumber?, if_neg h, Option.bind_eq_bind, Option.bind_none]
  simp [isMoment, hdate, time?, hclock]

/-! ### Words of digits -/

/-- A digit, or the point of a number. -/
def isNumeric (c : Char) : Bool := (digitValue? 10 c).isSome || c = '.'

/-- The sign of a number that may be negative. -/
def minus (negative : Bool) : List Char := if negative then ['-'] else []

theorem not_mem_of_isNumeric (h : ∀ c ∈ cs, isNumeric c = true) {c : Char}
    (hc : isNumeric c = false) : c ∉ cs := fun hmem => by simp [h c hmem] at hc

theorem not_mem_minus (h : ∀ c ∈ cs, isNumeric c = true) (negative : Bool) {c : Char}
    (hc : isNumeric c = false) (hne : c ≠ '-') : c ∉ minus negative ++ cs := by
  have := not_mem_of_isNumeric h hc
  cases negative <;> simp [minus, this, hne]

theorem splitSign_minus (h : ∀ c ∈ cs, isNumeric c = true) (negative : Bool) :
    splitSign (minus negative ++ cs) = (negative, cs) := by
  have hplus := not_mem_of_isNumeric h (c := '+') (by decide)
  have hminus := not_mem_of_isNumeric h (c := '-') (by decide)
  cases negative with
  | true => rfl
  | false =>
    change splitSign cs = _
    unfold splitSign
    split <;> simp_all

/-- A word of digits names no base. -/
theorem whole?_minus (h : ∀ c ∈ cs, isNumeric c = true) (negative : Bool) :
    whole? (minus negative ++ cs) = (decimalDigits cs).map fun ds =>
      if negative then -(numberOfDigits 10 ds : Int) else numberOfDigits 10 ds := by
  have hx := not_mem_minus h negative (c := 'x') (by decide) (by decide)
  have ho := not_mem_minus h negative (c := 'o') (by decide) (by decide)
  have hb := not_mem_minus h negative (c := 'b') (by decide) (by decide)
  have hsign := splitSign_minus h negative
  generalize minus negative ++ cs = w at hx ho hb hsign ⊢
  unfold whole?
  split
  · simp_all
  · simp_all
  · simp_all
  · simp only [hsign]

/-- A word of digits is neither a truth value nor a date or a time. -/
theorem word?_minus (h : ∀ c ∈ cs, isNumeric c = true) (negative : Bool) {d : Document}
    (hd : ((whole? (minus negative ++ cs)).map .integer).or (number? (minus negative ++ cs))
      = some d) : word? (minus negative ++ cs) = some d := by
  have htrue : minus negative ++ cs ≠ ['t', 'r', 'u', 'e'] := fun heq =>
    not_mem_minus h negative (c := 't') (by decide) (by decide) (by simp [heq])
  have hfalse : minus negative ++ cs ≠ ['f', 'a', 'l', 's', 'e'] := fun heq =>
    not_mem_minus h negative (c := 'f') (by decide) (by decide) (by simp [heq])
  have hdash : '-' ∉ (minus negative ++ cs).drop 1 := by
    have := not_mem_of_isNumeric h (c := '-') (by decide)
    cases negative with
    | true => exact this
    | false => exact fun hmem => this (List.mem_of_mem_drop hmem)
  have hmoment : isMoment (minus negative ++ cs) = false :=
    isMoment_eq_false (not_mem_minus h negative (by decide) (by decide)) hdash
  simp [word?, htrue, hfalse, hmoment, hd]

/-! ### Whole numbers -/

/-- The characters of a whole number. -/
def intDigits (n : Int) : List Char := minus (n < 0) ++ Nat.toDigits 10 n.natAbs

theorem toList_toString_int (n : Int) : (toString n).toList = intDigits n := by
  cases n with
  | ofNat n =>
    change (Nat.repr n).toList = Nat.toDigits 10 n
    simp [Nat.repr_eq_ofList_toDigits]
  | negSucc n =>
    change ("-" ++ Nat.repr (n + 1)).toList = intDigits (.negSucc n)
    simp [Nat.repr_eq_ofList_toDigits, intDigits, minus, Int.negSucc_lt_zero]

theorem isNumeric_of_mem_toDigits {c : Char} {n : Nat} (h : c ∈ Nat.toDigits 10 n) :
    isNumeric c = true := by
  simp [isNumeric, digitValue?_isSome_of_mem_toDigits h]

theorem whole?_intDigits (n : Int) : whole? (intDigits n) = some n := by
  rw [intDigits, whole?_minus fun c hc => isNumeric_of_mem_toDigits hc, decimalDigits_toDigits,
    Option.map_some, numberOfDigits_toDigits, Option.some_inj]
  by_cases hn : n < 0
  · rw [if_pos (decide_eq_true hn)]
    omega
  · rw [if_neg (by simpa using hn)]
    omega

theorem word?_intDigits (n : Int) : word? (intDigits n) = some (.integer n) := by
  refine word?_minus (fun c hc => isNumeric_of_mem_toDigits hc) _ ?_
  rw [← intDigits, whole?_intDigits]
  rfl

/-! ### Characters of words -/

/-- The characters that unquoted values are made of. -/
def isBare (c : Char) : Bool := isWordChar c && c ≠ '"' && c ≠ '\x27'

theorem isBare_of_isDigit {c : Char} (h : c.isDigit = true) : isBare c = true := by
  simp only [isBare, isWordChar, isBlank, ne_eq, decide_not, Bool.and_eq_true, Bool.not_eq_true',
    Bool.or_eq_false_iff, decide_eq_false_iff_not]
  repeat' constructor
  all_goals (rintro rfl; revert h; decide)

theorem isBare_of_mem_toDigits {c : Char} {n : Nat} (h : c ∈ Nat.toDigits 10 n) :
    isBare c = true := isBare_of_isDigit
    (Nat.isDigit_of_mem_toDigits (by decide) (by decide) h)

theorem isBare_of_mem_intDigits {c : Char} {n : Int} (h : c ∈ intDigits n) : isBare c = true := by
  obtain h | h := List.mem_append.1 h
  · exact List.all_eq_true.1 (by cases decide (n < 0) <;> decide) c h
  · exact isBare_of_mem_toDigits h

theorem isBare_of_mem_withPoint {c : Char} {n : Nat} {places : Int}
    (h : c ∈ (withPoint (Nat.toDigits 10 n) places ".0").toList) : isBare c = true := by
  have hdigit : c ∈ Nat.toDigits 10 n → isBare c = true := isBare_of_mem_toDigits
  have hmark : c = '0' ∨ c = '.' → isBare c = true := by rintro (rfl | rfl) <;> decide
  unfold withPoint at h
  split at h
  · simp only [String.toList_append, String.toList_ofList, List.mem_append,
      List.mem_replicate] at h
    obtain (h | ⟨-, h⟩) | h := h
    · exact hdigit h
    · exact hmark (.inl h)
    · exact hmark (by simpa [or_comm] using h)
  split at h
  · simp only [String.toList_ofList, List.mem_append, List.mem_cons] at h
    obtain h | h | h := h
    · exact hdigit (List.mem_of_mem_take h)
    · exact hmark (.inr h)
    · exact hdigit (List.mem_of_mem_drop h)
  · simp only [String.toList_ofList, List.mem_append, List.mem_cons, List.mem_replicate] at h
    obtain (h | h | ⟨-, h⟩) | h := h
    · exact hmark (.inl h)
    · exact hmark (.inr h)
    · exact hmark (.inl h)
    · exact hdigit h

theorem isBare_of_mem_layout {c : Char} {d : Decimal}
    (h : c ∈ (numberFormat.layout d).toList) : isBare c = true := by
  unfold NumberFormat.layout at h
  split at h
  · have hall : ("0" ++ numberFormat.wholeMark).toList.all isBare = true := by decide
    exact List.all_eq_true.1 hall c h
  · exact isBare_of_mem_withPoint h

theorem isBare_of_mem_render {c : Char} {x : Float} (h : c ∈ (numberFormat.render x).toList) :
    isBare c = true := by
  have hsign : (if signBit x then "-" else "").toList.all isBare = true := by
    split <;> decide
  unfold NumberFormat.render at h
  split at h
  · have hall : numberFormat.notANumber.toList.all isBare = true := by decide
    exact List.all_eq_true.1 hall c h
  cases hd : Dyadic.ofFloat? x with
  | some d =>
    simp only [hd, String.toList_append, List.mem_append] at h
    exact h.elim (List.all_eq_true.1 hsign c) isBare_of_mem_layout
  | none =>
    have hall : numberFormat.infinity.toList.all isBare = true := by decide
    simp only [hd, String.toList_append, List.mem_append] at h
    exact h.elim (List.all_eq_true.1 hsign c) (List.all_eq_true.1 hall c)

/-! ### Reading words -/

/-- What may come right behind a value: the end of the line, a comma, or the end of a list. -/
def endsValue (c : Char) : Bool := c = '\n' || c = ',' || c = ']'

theorem isWordChar_of_endsValue {c : Char} (h : endsValue c = true) :
    isWordChar c = false ∧ isBlank c = false := by
  simp only [endsValue, Bool.or_eq_true, decide_eq_true_eq] at h
  obtain (rfl | rfl) | rfl := h <;> decide

/-- Nothing belongs to a word behind its end. -/
theorem reads_nextPart_none (hrest : ∀ c ∈ rest.head?, endsValue c = true) :
    Reads nextPart [] none rest := by
  refine (Reads.remainder rest).bind_nil ?_
  have hspan : rest.span isBlank = ([], rest) :=
    span_append (w := []) (by simp) fun c hc => (isWordChar_of_endsValue (hrest c hc)).2
  simp only [hspan, List.isEmpty_nil, true_or, if_true]
  exact .pure none rest

theorem reads_word {d : Document} (hne : cs ≠ []) (hcs : ∀ c ∈ cs, isBare c = true)
    (hd : word? cs = some d) (hrest : ∀ c ∈ rest.head?, endsValue c = true) :
    Reads word cs d rest := by
  have hword : ∀ c ∈ cs, isWordChar c = true := fun c hc => by
    have := hcs c hc
    simp only [isBare, Bool.and_eq_true] at this
    exact this.1.1
  refine (Reads.takeWhile hword fun c hc =>
    (isWordChar_of_endsValue (hrest c hc)).1).bind_all ?_
  rw [if_neg (by simpa using hne)]
  refine (Collects.done (reads_nextPart_none hrest)).reads.bind_nil ?_
  simp only [List.flatten_nil, List.append_nil, hd]
  exact .pure d rest

end TaskAllocation.Toml
