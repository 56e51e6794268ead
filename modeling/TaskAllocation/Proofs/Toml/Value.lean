import TaskAllocation.Proofs.Toml.Number
import TaskAllocation.Proofs.Toml.Quoted
import TaskAllocation.Toml.Reader

/-!
# Values are read as they were written

A value stands behind an equality sign: a truth value, a number or a text, or a list of
these.  A list of more than one item goes over several lines, so what stands around its
items has to be skipped as it is read.

## Main definitions

* `Toml.Simple`, `Toml.Inline` — what can stand behind an equality sign.

## Main results

* `Toml.Simple.reads` — a single value.
* `Toml.Inline.reads` — **a value is read as the value that was written.**
-/

namespace TaskAllocation.Toml

open Scanner

variable {rest w : List Char} {d : Document}

/-- A single value that is read as it was written. -/
inductive Simple : Document → Prop where
  /-- A truth value. -/
  | flag (b : Bool) : Simple (.flag b)
  /-- A whole number. -/
  | integer (n : Int) : Simple (.integer n)
  /-- A number in double precision. -/
  | number (x : Float) : Simple (.number x)
  /-- A text. -/
  | text (s : String) : Simple (.text s)

/-- A value that is written behind an equality sign. -/
inductive Inline : Document → Prop where
  /-- A single value. -/
  | single {d : Document} (h : Simple d) : Inline d
  /-- A list of single values. -/
  | list {items : List Document} (h : ∀ d ∈ items, Simple d) : Inline (.array items)

/-! ### Single values -/

/-- A single value is a text in quotation marks or a word. -/
theorem Simple.text_or_word (h : Simple d) :
    (∃ s, d = .text s) ∨
      ((writeValue d).toList ≠ [] ∧ (∀ c ∈ (writeValue d).toList, isBare c = true) ∧
        word? (writeValue d).toList = some d) := by
  cases h with
  | flag b => cases b <;> exact .inr ⟨by decide, List.all_eq_true.1 (by decide), rfl⟩
  | integer n =>
    rw [writeValue, toList_toString_int]
    refine .inr ⟨?_, fun c hc => isBare_of_mem_intDigits hc, word?_intDigits n⟩
    cases n <;> simp [intDigits]
  | number x =>
    have hx : word? (writeValue (.number x)).toList = some (.number x) := word?_render x
    refine .inr ⟨fun hnil => ?_, fun c hc => isBare_of_mem_render hc, hx⟩
    rw [hnil] at hx
    cases hx
  | text s => exact .inl ⟨s, rfl⟩

theorem Simple.exists_head (h : Simple d) :
    ∃ c cs, (writeValue d).toList = c :: cs ∧ isWordChar c = true := by
  obtain ⟨s, rfl⟩ | ⟨hne, hbare, -⟩ := h.text_or_word
  · obtain ⟨c, cs, hcs, hc⟩ := exists_head_quote s
    exact ⟨c, cs, hcs, by obtain rfl | rfl := hc <;> decide⟩
  · obtain ⟨c, cs, hcs⟩ := List.exists_cons_of_ne_nil hne
    have := hbare c (by simp [hcs])
    simp only [isBare, Bool.and_eq_true] at this
    exact ⟨c, cs, hcs, this.1.1⟩

theorem reads_quoted_none {c : Char} (h : isBare c = true) (cs : List Char) :
    Reads quoted? [] none (c :: cs) := by
  simp only [isBare, Bool.and_eq_true, decide_eq_true_eq] at h
  have hd : c ≠ '"' := h.1.2
  have hs : c ≠ '\x27' := h.2
  exact .refused (by simp [hd.symm]) (.refused (by simp [hs.symm])
    (.refused (by simp [hd.symm]) (.refused (by simp [hs.symm]) (.pure none _))))

theorem Simple.reads (h : Simple d) (hrest : ∀ c ∈ rest.head?, endsValue c = true)
    (levels : Nat) : Reads (value levels) (writeValue d).toList d rest := by
  have hlast : Reads (value 0) (writeValue d).toList d rest := by
    rw [value]
    obtain ⟨s, rfl⟩ | ⟨hne, hbare, hword⟩ := h.text_or_word
    · have hq : rest.head? ≠ some '"' ∧ rest.head? ≠ some '\x27' := by
        constructor <;> exact fun hc => absurd (hrest _ hc) (by decide)
      exact (reads_quoted s hq.1 hq.2).bind_all (.pure _ rest)
    · have hw := reads_word hne hbare hword hrest
      obtain ⟨c, cs, hcs⟩ := List.exists_cons_of_ne_nil hne
      have hc : isBare c = true := hbare c (by simp [hcs])
      rw [hcs] at hw ⊢
      refine (reads_quoted_none hc _).bind_nil ?_
      exact hw
  cases levels with
  | zero => exact hlast
  | succ levels =>
    obtain ⟨c, cs, hcs, hc⟩ := h.exists_head
    have hopen : c ≠ '[' ∧ c ≠ '\x7b' := by constructor <;> (rintro rfl; revert hc; decide)
    rw [value]
    rw [value] at hlast
    refine .refused ?_ (.refused ?_ hlast)
    · simp [hcs, hopen.1.symm]
    · simp [hcs, hopen.2.symm]

/-! ### Blank lines -/

/-- A character that neither blank lines nor comments begin with. -/
def isSolid (c : Char) : Bool := !isBlank c && c ≠ '#' && c ≠ '\n' && c ≠ '\r'

theorem isSolid_of_isWordChar {c : Char} (h : isWordChar c = true) : isSolid c = true := by
  simp only [isWordChar, Bool.not_eq_true', Bool.or_eq_false_iff, decide_eq_false_iff_not] at h
  simp [isSolid, h]

/-- The next blank line. -/
def blankLine? : Scanner (Option Unit) := do
  blanks
  comment
  let breaks ← lineBreak
  if breaks.isEmpty then return none else return some ()

theorem reads_comment_nil (h : ∀ c ∈ rest.head?, c ≠ '#') : Reads comment [] () rest := by
  have hno : ¬['#'] <+: [] ++ rest := by
    cases rest with
    | nil => simp
    | cons c rest => simp [(h c rfl).symm]
  exact .refused hno (.pure () rest)

theorem collects_blankLine (hrest : ∀ c ∈ rest.head?, isSolid c = true) :
    ∀ w bs : List Char, (∀ c ∈ bs, isBlank c = true) → (∀ c ∈ w, isBlank c = true ∨ c = '\n') →
      ∃ items, Collects blankLine? rest (bs ++ w) items
  | [], bs, hbs, _ => by
    simp only [isSolid, Bool.and_eq_true, Bool.not_eq_true', decide_eq_true_eq] at hrest
    rw [List.append_nil]
    refine ⟨[], .done ((Reads.skipWhile hbs fun c hc => (hrest c hc).1.1.1).bind_all ?_)⟩
    refine (reads_comment_nil fun c hc => (hrest c hc).1.1.2).bind_nil ?_
    refine (reads_lineBreak_nil fun c hc => ⟨(hrest c hc).1.2, (hrest c hc).2⟩).bind_nil ?_
    exact .pure none rest
  | c :: w, bs, hbs, hw => by
    have hw' : ∀ d ∈ w, isBlank d = true ∨ d = '\n' := fun d hd => hw d (by simp [hd])
    obtain hc | rfl := hw c (by simp)
    · have hbs' : ∀ d ∈ bs ++ [c], isBlank d = true := by
        simp only [List.mem_append, List.mem_singleton]
        rintro d (hd | rfl)
        · exact hbs d hd
        · exact hc
      simpa using collects_blankLine hrest w _ hbs' hw'
    · obtain ⟨items, h⟩ := collects_blankLine hrest w [] (by simp) hw'
      refine ⟨() :: items, ?_⟩
      rw [← List.singleton_append, ← List.append_assoc]
      refine .more (by simp) ?_ h
      refine (Reads.skipWhile hbs fun d hd => by cases hd; decide).bind ?_
      refine (reads_comment_nil fun d hd => by cases hd; decide).bind_nil ?_
      exact (reads_lineBreak _).bind_all (.pure (some ()) _)

/-- Blanks and line breaks are skipped up to something solid. -/
theorem reads_blankLines (hw : ∀ c ∈ w, isBlank c = true ∨ c = '\n')
    (hrest : ∀ c ∈ rest.head?, isSolid c = true) : Reads blankLines w () rest := by
  obtain ⟨items, h⟩ := collects_blankLine hrest w [] (by simp) hw
  exact h.reads.bind_all (.pure () rest)

/-! ### Lists -/

/-- The next item of a list, or its end. -/
def nextItem (levels : Nat) : Scanner (Option Document) := do
  blankLines
  if ← accept "," then
    blankLines
    if ← accept "]" then return none
    else return some (← value levels)
  else
    expect "]"
    return none

theorem separated_value_eq (levels : Nat) :
    separated (value levels) blankLines "]" true = (do
      blankLines
      if ← accept "]" then return []
      else
        let first ← value levels
        let others ← collect (nextItem levels)
        return first :: others) := rfl

theorem reads_blankLines_nil {c : Char} (h : isSolid c = true) (cs : List Char) :
    Reads blankLines [] () (c :: cs) :=
  reads_blankLines (by simp) fun d hd => by cases hd; exact h

/-- What is written behind the first of several items. -/
def otherItems (items : List Document) : List Char :=
  [',', '\n'] ++ (items.flatMap fun d =>
    [' ', ' ', ' ', ' '] ++ (writeValue d).toList ++ [',', '\n']) ++ [']']

theorem collects_nextItem (levels : Nat) : ∀ {items : List Document}, (∀ d ∈ items, Simple d) →
    Collects (nextItem levels) rest (otherItems items) items
  | [], _ => by
    have hend : Reads blankLines ['\n'] () ([']'] ++ rest) :=
      reads_blankLines (by simp) fun c hc => by cases hc; decide
    refine .done ((reads_blankLines_nil (by decide) _).bind_nil (.accepted "," ?_))
    exact hend.bind (.accepted "]" (.pure none rest))
  | d :: items, h => by
    have hd := h d (by simp)
    have hvalue : Reads (value levels) (writeValue d).toList d (otherItems items ++ rest) :=
      hd.reads (fun c hc => by cases hc; decide) levels
    obtain ⟨c, cs, hcs, hc⟩ := hd.exists_head
    have hclose : c ≠ ']' := by rintro rfl; revert hc; decide
    have hblank : Reads blankLines ['\n', ' ', ' ', ' ', ' '] ()
        ((writeValue d).toList ++ (otherItems items ++ rest)) :=
      reads_blankLines (by simp [isBlank]) fun e he => by
        rw [hcs] at he
        cases he
        exact isSolid_of_isWordChar hc
    have htext : otherItems (d :: items) = ([','] ++ (['\n', ' ', ' ', ' ', ' ']
        ++ (writeValue d).toList)) ++ otherItems items := by
      simp [otherItems]
    rw [htext]
    refine .more (by simp) ?_ (collects_nextItem levels fun e he => h e (by simp [he]))
    refine (reads_blankLines_nil (by decide) _).bind_nil (.accepted "," ?_)
    refine hblank.bind (.refused ?_ hvalue.map)
    simp [hcs, hclose.symm]

theorem writeItems_eq_map (items : List Document) : writeItems items = items.map writeValue := by
  induction items with
  | nil => rfl
  | cons d items ih => rw [writeItems, ih, List.map_cons]

theorem toList_many (d e : Document) (items : List Document) :
    (writeValue (.array (d :: e :: items))).toList
      = '[' :: (['\n', ' ', ' ', ' ', ' ']
        ++ ((writeValue d).toList ++ otherItems (e :: items))) := by
  simp [writeValue, writeItems_eq_map, otherItems, String.toList_append, String.toList_join,
    List.flatMap_map]

/-- The first item of a list, and then the others. -/
theorem reads_items (bs : List Char) {items : List Document} {levels : Nat} (hd : Simple d)
    (hbs : ∀ c ∈ bs, isBlank c = true ∨ c = '\n')
    (hw : ∀ c ∈ (w ++ rest).head?, endsValue c = true)
    (h : Collects (nextItem levels) rest w items) :
    Reads (separated (value levels) blankLines "]" true) (bs ++ ((writeValue d).toList ++ w))
      (d :: items) rest := by
  obtain ⟨c, cs, hcs, hc⟩ := hd.exists_head
  have hclose : c ≠ ']' := by rintro rfl; revert hc; decide
  have hblank : Reads blankLines bs () ((writeValue d).toList ++ w ++ rest) :=
    reads_blankLines hbs fun e he => by
      rw [hcs] at he
      cases he
      exact isSolid_of_isWordChar hc
  rw [separated_value_eq]
  refine hblank.bind (.refused (by simp [hcs, hclose.symm]) ?_)
  exact (hd.reads hw levels).bind h.reads.map

/-- A list is read as the list that was written, behind its opening bracket. -/
theorem exists_reads_items {items : List Document} (h : ∀ d ∈ items, Simple d) (levels : Nat)
    (rest : List Char) : ∃ w, (writeValue (.array items)).toList = '[' :: w ∧
      Reads (separated (value levels) blankLines "]" true) w items rest := by
  obtain _ | ⟨d, _ | ⟨e, items⟩⟩ := items
  · refine ⟨[']'], rfl, ?_⟩
    rw [separated_value_eq]
    exact (reads_blankLines_nil (by decide) _).bind_nil (.accepted "]" (.pure [] rest))
  · have hend : Collects (nextItem levels) rest [']'] [] :=
      .done ((reads_blankLines_nil (by decide) _).bind_nil (.refused (by simp)
        ((Reads.expect "]" rest).bind_all (.pure none rest))))
    refine ⟨_, ?_, reads_items [] (h d (by simp)) (by simp)
      (fun c hc => by cases hc; decide) hend⟩
    simp [writeValue, writeItems, String.toList_append]
  · exact ⟨_, toList_many d e items, reads_items _ (h d (by simp)) (by simp [isBlank])
      (fun c hc => by cases hc; decide) (collects_nextItem levels fun x hx => h x (by simp_all))⟩

/-- A value is read as the value that was written. -/
theorem Inline.reads (h : Inline d) (hrest : ∀ c ∈ rest.head?, endsValue c = true) (levels : Nat) :
    Reads (value (levels + 1)) (writeValue d).toList d rest := by
  cases h with
  | single h => exact h.reads hrest (levels + 1)
  | @list items h =>
    obtain ⟨w, hw, hsep⟩ := exists_reads_items h levels rest
    rw [value, hw]
    exact .accepted "[" hsep.map

/-- No value begins with a blank. -/
theorem Inline.exists_head (h : Inline d) :
    ∃ c cs, (writeValue d).toList = c :: cs ∧ isBlank c = false := by
  cases h with
  | single h =>
    obtain ⟨c, cs, hcs, hc⟩ := h.exists_head
    have := isSolid_of_isWordChar hc
    simp only [isSolid, Bool.and_eq_true, Bool.not_eq_true'] at this
    exact ⟨c, cs, hcs, this.1.1.1⟩
  | list h =>
    obtain ⟨w, hw, -⟩ := exists_reads_items h 0 []
    exact ⟨'[', w, hw, by decide⟩

end TaskAllocation.Toml
