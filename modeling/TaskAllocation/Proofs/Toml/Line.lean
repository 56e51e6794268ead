import TaskAllocation.Proofs.Toml.Value

/-!
# Lines are read as they were written

A written text has two kinds of lines: a name with its value, and a header with a path of
names between brackets.  Blank lines before either are taken with the line.  As the reader
allows blanks around names, dots and brackets, each of them has to be shown to stop where the
writer has put none.

## Main definitions

* `Toml.entryText`, `Toml.headerText` — the two kinds of lines.

## Main results

* `Toml.reads_dottedName` — names with dots between them.
* `Toml.reads_line_entry` — a line that gives a name a value.
* `Toml.reads_line_header` — a header.
-/

namespace TaskAllocation.Toml

open Scanner

variable {rest w bs : List Char} {name : String}

/-! ### Names -/

theorem writeName_cases (name : String) :
    ((writeName name).toList = name.toList ∧ name.toList ≠ [] ∧
      ∀ c ∈ name.toList, isNameChar c = true) ∨
    (writeName name).toList = '"' :: (escapeAll false 0 name.toList ++ ['"']) := by
  unfold writeName
  split
  · next h =>
    obtain ⟨hne, hall⟩ := h
    refine .inl ⟨rfl, by simpa [String.toList_eq_nil_iff] using hne, fun c hc => ?_⟩
    rw [String.all_prop_eq, List.all_eq_true] at hall
    simpa [isNameChar, or_assoc] using hall c hc
  · exact .inr (toList_basicText _)

theorem reads_simpleName (name : String) (hrest : ∀ c ∈ rest.head?, isNameChar c = false) :
    Reads simpleName (writeName name).toList name rest := by
  have hname : name = String.ofList name.toList := String.ofList_toList.symm
  obtain ⟨hw, hne, hall⟩ | hw := writeName_cases name
  · obtain ⟨c, cs, hcs⟩ := List.exists_cons_of_ne_nil hne
    have hc : isNameChar c = true := hall c (by simp [hcs])
    have hq : c ≠ '"' ∧ c ≠ '\x27' := by constructor <;> (rintro rfl; revert hc; decide)
    have htake : Reads (takeWhile isNameChar >>= fun cs =>
        if cs.isEmpty then stuck else pure (String.ofList cs)) name.toList name rest := by
      refine (Reads.takeWhile hall hrest).bind_all ?_
      rw [if_neg (by simpa using hne), ← hname]
      exact .pure name rest
    rw [hw]
    refine .refused ?_ (.refused ?_ htake)
    · simp [hcs, hq.1.symm]
    · simp [hcs, hq.2.symm]
  · rw [hw]
    have hbasic := (reads_basic 0 name.toList rest).map (f := String.ofList)
    rw [← hname] at hbasic
    exact .accepted _ hbasic

/-- Every name begins with a character of a name or a quotation mark. -/
theorem exists_head_writeName (name : String) :
    ∃ c cs, (writeName name).toList = c :: cs ∧ (isNameChar c = true ∨ c = '"') := by
  obtain ⟨hw, hne, hall⟩ | hw := writeName_cases name
  · obtain ⟨c, cs, hcs⟩ := List.exists_cons_of_ne_nil hne
    exact ⟨c, cs, hw.trans hcs, .inl (hall c (by simp [hcs]))⟩
  · exact ⟨_, _, hw, .inr rfl⟩

theorem toList_intercalate_cons (sep first : String) (others : List String) :
    (sep.intercalate (first :: others)).toList
      = first.toList ++ others.flatMap fun s => sep.toList ++ s.toList := by
  induction others generalizing first with
  | nil => simp
  | cons s others ih => simp [String.intercalate_cons_cons, ih, String.toList_append]

theorem toList_writePath (first : String) (others : List String) :
    (writePath (first :: others)).toList
      = (writeName first).toList ++ others.flatMap fun n => '.' :: (writeName n).toList := by
  rw [writePath, List.map_cons, toList_intercalate_cons, List.flatMap_map]
  rfl

/-- Names with dots between them begin as the first of them does. -/
theorem exists_head_writePath (path : List String) (name : String) :
    ∃ c cs, (writePath (path ++ [name])).toList = c :: cs ∧ (isNameChar c = true ∨ c = '"') := by
  obtain ⟨first, others, hnames⟩ := List.exists_cons_of_ne_nil (l := path ++ [name]) (by simp)
  obtain ⟨c, cs, hcs, hc⟩ := exists_head_writeName first
  rw [hnames, toList_writePath, hcs]
  exact ⟨c, _, rfl, hc⟩

theorem reads_blanks (hbs : ∀ c ∈ bs, isBlank c = true)
    (hrest : ∀ c ∈ rest.head?, isBlank c = false) : Reads blanks bs () rest :=
  .skipWhile hbs hrest

/-- The next of several names with dots between them. -/
def nextName : Scanner (Option String) := do
  blanks
  if ← accept "." then
    blanks
    return some (← simpleName)
  else return none

theorem isSolid_of_isNameChar {c : Char} (h : isNameChar c = true ∨ c = '"') :
    isSolid c = true := by
  simp only [isSolid, isBlank, Bool.and_eq_true, Bool.not_eq_true', Bool.or_eq_false_iff,
    decide_eq_true_eq, decide_eq_false_iff_not]
  refine ⟨⟨⟨⟨?_, ?_⟩, ?_⟩, ?_⟩, ?_⟩
  all_goals (rintro rfl; revert h; decide)

theorem isBlank_of_isNameChar {c : Char} (h : isNameChar c = true ∨ c = '"') :
    isBlank c = false := by
  have := isSolid_of_isNameChar h
  simp only [isSolid, Bool.and_eq_true, Bool.not_eq_true'] at this
  exact this.1.1.1

theorem reads_blanks_nil {c : Char} (h : isNameChar c = true ∨ c = '"') (cs : List Char) :
    Reads blanks [] () (c :: cs) :=
  reads_blanks (by simp) fun d hd => by cases hd; exact isBlank_of_isNameChar h

/-- Behind a name come more names, led in by a dot, or what follows all of them. -/
theorem not_isNameChar_head? (others : List String)
    (hnext : ∀ c ∈ w.head?, isNameChar c = false) :
    ∀ c ∈ ((others.flatMap fun n => '.' :: (writeName n).toList) ++ w).head?,
      isNameChar c = false := by
  cases others with
  | nil => exact hnext
  | cons n others => intro c hc; cases hc; decide

theorem collects_nextName (hbs : ∀ c ∈ bs, isBlank c = true)
    (hrest : ∀ c ∈ rest.head?, isBlank c = false ∧ c ≠ '.')
    (hnext : ∀ c ∈ (bs ++ rest).head?, isNameChar c = false) (others : List String) :
    Collects nextName rest ((others.flatMap fun n => '.' :: (writeName n).toList) ++ bs)
      others := by
  induction others with
  | nil =>
    have hno : ¬['.'] <+: [] ++ rest := by
      cases rest with
      | nil => simp
      | cons c rest => simp [(hrest c rfl).2.symm]
    exact .done ((reads_blanks hbs fun c hc => (hrest c hc).1).bind_all
      (.refused hno (.pure none rest)))
  | cons n others ih =>
    rw [List.flatMap_cons, List.append_assoc]
    refine .more (by simp) ?_ ih
    rw [List.append_assoc]
    have hname := reads_simpleName n (not_isNameChar_head? others hnext)
    have hdot (cs : List Char) : Reads blanks [] () ('.' :: cs) :=
      reads_blanks (by simp) fun d hd => by cases hd; decide
    obtain ⟨c, cs, hcs, hc⟩ := exists_head_writeName n
    refine (hdot _).bind_nil (.accepted "." (w := (writeName n).toList) ?_)
    rw [hcs] at hname ⊢
    exact (reads_blanks_nil hc _).bind_nil hname.map

/-- Names with dots between them, and blanks behind the last. -/
theorem reads_dottedName {path : List String} (hdepth : path.length < depthLimit)
    (hbs : ∀ c ∈ bs, isBlank c = true)
    (hrest : ∀ c ∈ rest.head?, isBlank c = false ∧ c ≠ '.' ∧ isNameChar c = false) :
    Reads dottedName ((writePath (path ++ [name])).toList ++ bs) (path, name) rest := by
  -- the names are read from the first, but it is the last one that is told from the path
  obtain ⟨first, others, hnames⟩ := List.exists_cons_of_ne_nil (l := path ++ [name]) (by simp)
  have hlen : others.length = path.length := by
    have := congrArg List.length hnames
    simpa using this.symm
  have hlast : (first :: others).dropLast = path ∧ (first :: others).getLastD first = name := by
    simp [← hnames]
  have hnext : ∀ c ∈ (bs ++ rest).head?, isNameChar c = false := by
    cases bs with
    | nil => exact fun c hc => (hrest c hc).2.2
    | cons b bs =>
      intro c hc
      cases hc
      exact Bool.eq_false_iff.2 fun h => by simpa [isBlank_of_isNameChar (.inl h)] using hbs b
  have hothers :=
    collects_nextName hbs (fun c hc => ⟨(hrest c hc).1, (hrest c hc).2.1⟩) hnext others
  rw [hnames, toList_writePath, List.append_assoc]
  refine (reads_simpleName first ?_).bind (hothers.reads.bind_all ?_)
  · rw [List.append_assoc]
    exact not_isNameChar_head? others hnext
  · rw [if_neg (by omega)]
    simp only [hlast]
    exact .pure _ rest

/-! ### Lines -/

theorem reads_lineEnd (rest : List Char) : Reads lineEnd ['\n'] () rest := by
  refine (reads_blanks (by simp) fun c hc => by cases hc; decide).bind_nil ?_
  refine (reads_comment_nil fun c hc => by cases hc; decide).bind_nil ?_
  refine (reads_lineBreak rest).bind_all ((Reads.peek? rest).bind_nil ?_)
  rw [if_neg (by simp)]
  exact .pure () rest

/-- The line of a field. -/
def entryText (name : String) (d : Document) : List Char :=
  (writeName name).toList ++ [' ', '=', ' '] ++ (writeValue d).toList ++ ['\n']

/-- The line of a header. -/
def headerText (path : List String) (name : String) (repeated : Bool) : List Char :=
  let names := (writePath (path ++ [name])).toList
  if repeated then ['[', '['] ++ names ++ [']', ']', '\n'] else ['['] ++ names ++ [']', '\n']

/-- A name and the value that it is given. -/
theorem reads_entry {d : Document} (hd : Inline d) (name : String) (rest : List Char) :
    Reads (entry blanks (value depthLimit))
      (((writeName name).toList ++ [' ']) ++ (['='] ++ ([' '] ++ (writeValue d).toList)))
      { path := [], name := name, value := d } ('\n' :: rest) := by
  obtain ⟨c, cs, hcs, hc⟩ := hd.exists_head
  have hname : Reads dottedName ((writePath ([] ++ [name])).toList ++ [' ']) ([], name)
      (['='] ++ ([' '] ++ (writeValue d).toList) ++ '\n' :: rest) :=
    reads_dottedName (by decide) (by simp [isBlank]) fun e he => by cases he; decide
  have hpath : writePath ([] ++ [name]) = writeName name := by simp [writePath]
  have hvalue : Reads (value depthLimit) (writeValue d).toList d ('\n' :: rest) :=
    hd.reads (fun e he => by cases he; decide) 79
  rw [hpath] at hname
  refine hname.bind ((reads_blanks (by simp) fun e he => by cases he; decide).bind_nil ?_)
  refine (Reads.expect "=" _).bind
    ((reads_blanks (by simp [isBlank]) fun e he => ?_).bind hvalue.map)
  rw [hcs] at he
  cases he
  exact hc

/-- A line that gives a name a value, with blank lines before it. -/
theorem reads_line_entry {d : Document} (hd : Inline d) (name : String) (bs : List Char)
    (hbs : ∀ c ∈ bs, isBlank c = true ∨ c = '\n') (rest : List Char) :
    Reads line? (bs ++ entryText name d) (some (.entry { path := [], name := name, value := d }))
      rest := by
  obtain ⟨c, cs, hcs, hc⟩ := exists_head_writeName name
  have hopen : c ≠ '[' := by rintro rfl; revert hc; decide
  have htext : entryText name d = ((writeName name).toList ++ [' '])
      ++ (['='] ++ ([' '] ++ (writeValue d).toList)) ++ ['\n'] := by simp [entryText]
  have hline : Reads (entry blanks (value depthLimit) >>= fun e =>
      lineEnd >>= fun _ => pure (some (Line.entry e))) (entryText name d)
      (some (.entry { path := [], name := name, value := d })) rest := by
    rw [htext]
    exact (reads_entry hd name rest).bind ((reads_lineEnd rest).bind_all (.pure _ rest))
  obtain ⟨cs', hcs'⟩ : ∃ cs', entryText name d = c :: cs' := by simp [entryText, hcs]
  rw [hcs'] at hline ⊢
  refine (reads_blankLines hbs fun e he => ?_).bind ((Reads.peek? _).bind_nil ?_)
  · cases he
    exact isSolid_of_isNameChar hc
  rw [if_neg (by simp)]
  -- neither bracket of a header is there
  exact .refused (by simp [hopen.symm]) (.refused (by simp [hopen.symm]) hline)

/-- What stands between the brackets of a header, and the rest of its line. -/
theorem reads_header {path : List String} (hdepth : path.length < depthLimit) (name : String)
    (repeated : Bool) {closing : String} (hclosing : closing.toList.head? = some ']')
    (rest : List Char) :
    Reads (do
      blanks
      let (path, name) ← dottedName
      blanks
      expect closing
      lineEnd
      return some (Line.header path name repeated))
      ((writePath (path ++ [name])).toList ++ (closing.toList ++ ['\n']))
      (some (.header path name repeated)) rest := by
  have hhead (w : List Char) : ∀ c ∈ (closing.toList ++ w).head?, c = ']' := by
    simp [List.head?_append, hclosing]
  have hname : Reads dottedName (writePath (path ++ [name])).toList (path, name)
      (closing.toList ++ ['\n'] ++ rest) := by
    rw [← List.append_nil (writePath (path ++ [name])).toList]
    refine reads_dottedName hdepth (by simp) fun c hc => ?_
    rw [List.append_assoc] at hc
    rw [hhead _ c hc]
    decide
  have hblanks : Reads blanks [] () ((writePath (path ++ [name])).toList
      ++ (closing.toList ++ ['\n']) ++ rest) := by
    obtain ⟨c, cs, hcs, hc⟩ := exists_head_writePath path name
    rw [hcs]
    exact reads_blanks_nil hc _
  have hend : Reads blanks [] () (closing.toList ++ ['\n'] ++ rest) := by
    refine reads_blanks (by simp) fun c hc => ?_
    rw [List.append_assoc] at hc
    rw [hhead _ c hc]
    decide
  refine hblanks.bind_nil (hname.bind (hend.bind_nil ?_))
  exact (Reads.expect closing _).bind ((reads_lineEnd rest).bind_all (.pure _ rest))

/-- A header, with blank lines before it. -/
theorem reads_line_header {path : List String} (hdepth : path.length < depthLimit) (name : String)
    (repeated : Bool) (bs : List Char) (hbs : ∀ c ∈ bs, isBlank c = true ∨ c = '\n')
    (rest : List Char) :
    Reads line? (bs ++ headerText path name repeated) (some (.header path name repeated)) rest := by
  refine (reads_blankLines hbs fun e he => ?_).bind ((Reads.peek? _).bind_nil ?_)
  · cases repeated <;> (cases he; decide)
  rw [if_neg (by cases repeated <;> simp [headerText])]
  cases repeated with
  | true =>
    have htext : headerText path name true
        = "[[".toList ++ ((writePath (path ++ [name])).toList ++ ("]]".toList ++ ['\n'])) := by
      simp [headerText]
    rw [htext]
    exact .accepted "[[" (reads_header hdepth name true rfl rest)
  | false =>
    have htext : headerText path name false
        = "[".toList ++ ((writePath (path ++ [name])).toList ++ ("]".toList ++ ['\n'])) := by
      simp [headerText]
    rw [htext]
    -- a name does not begin with a bracket, so the header is not taken for a repeated one
    refine .refused ?_ (.accepted "[" (reads_header hdepth name false rfl rest))
    obtain ⟨c, cs, hcs, hc⟩ := exists_head_writePath path name
    have hopen : c ≠ '[' := by rintro rfl; revert hc; decide
    simp [hcs, hopen.symm]

end TaskAllocation.Toml
