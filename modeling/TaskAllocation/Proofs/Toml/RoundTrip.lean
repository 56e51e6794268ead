import TaskAllocation.Proofs.Document.Omission
import TaskAllocation.Proofs.Toml.Line
import TaskAllocation.Proofs.Toml.Table

/-!
# A written table is read back

The text of a table is the text of its lines and sections, and each of these is read as what
it was written for; what has been read is put together to the table again, except that tables
come behind the other fields.  To what reads its values by name that makes no difference, nor
do fields that have been left out hinder the reading of the others.

## Main definitions

* `Toml.sectionText`, `Toml.tableText` — the text of a section and of a table.

## Main results

* `Toml.toList_write` — what is written is the text of the lines and sections.
* `Toml.Outlined.read_write` — **a written table is read back.**
* `Toml.Outlined.same` — what comes back has the same values under the same names.
* `Toml.Outlined.without` — fields can be left out of a table that can be written.
-/

namespace TaskAllocation.Toml

open Scanner

variable {w : List Char} {fields : List (String × Document)} {n : Nat}

/-! ### The text of a table -/

/-- The text of a section. -/
def sectionText (s : Section) : List Char :=
  headerText s.path s.name s.repeated ++ s.entries.flatMap fun e => entryText e.name e.value

theorem toList_writeLines (fields : List (String × Document)) :
    (writeLines fields).toList
      = (entriesOf fields).flatMap fun e => entryText e.name e.value := by
  simp [writeLines, entriesOf, plainFields, entryText, String.toList_join, String.toList_append,
    List.flatMap_map]

theorem toList_header (path : List String) (name : String) (fields : List (String × Document)) :
    ("[" ++ writePath (path ++ [name]) ++ "]\n" ++ writeLines fields).toList
      = sectionText ⟨path, name, false, entriesOf fields⟩ := by
  simp [sectionText, headerText, String.toList_append, toList_writeLines]

theorem toList_repeatedHeader (path : List String) (name : String)
    (fields : List (String × Document)) :
    ("[[" ++ writePath (path ++ [name]) ++ "]]\n" ++ writeLines fields).toList
      = sectionText ⟨path, name, true, entriesOf fields⟩ := by
  simp [sectionText, headerText, String.toList_append, toList_writeLines]

mutual

theorem toList_writeSections (path : List String) : ∀ fields : List (String × Document),
    (writeSections path fields).map String.toList = (sectionsOf path fields).map sectionText
  | [] => rfl
  | (name, d) :: rest => by
    rw [writeSections, sectionsOf, List.map_append, List.map_append,
      toList_writeSection path name d, toList_writeSections path rest]

theorem toList_writeSection (path : List String) (name : String) : ∀ d : Document,
    (writeSection (path ++ [name]) d).map String.toList = (sectionsAt path name d).map sectionText
  | .table fields => by
    rw [writeSection, sectionsAt, List.map_cons, List.map_cons, toList_header,
      toList_writeSections]
  | .array items => by
    rw [writeSection, sectionsAt]
    split
    · exact toList_writeTables path name items
    · rfl
  | .null | .flag _ | .integer _ | .number _ | .numeral _ | .text _ | .moment _ => rfl

theorem toList_writeTables (path : List String) (name : String) : ∀ items : List Document,
    (writeTables (path ++ [name]) items).map String.toList
      = (sectionsIn path name items).map sectionText
  | [] => rfl
  | .table fields :: rest => by
    rw [writeTables, sectionsIn, List.cons_append, List.cons_append, List.map_cons, List.map_cons,
      List.map_append, List.map_append, toList_repeatedHeader, toList_writeSections,
      toList_writeTables]
  | .null :: rest | .flag _ :: rest | .integer _ :: rest | .number _ :: rest | .numeral _ :: rest
  | .text _ :: rest | .moment _ :: rest | .array _ :: rest => by
    simpa only [writeTables, sectionsIn] using toList_writeTables path name rest

end

/-- The text of a table: the lines of its own, and its sections with a blank line before
each but the one that the text begins with. -/
def tableText : List Entry → List Section → List Char
  | [], [] => []
  | [], s :: ss => sectionText s ++ ss.flatMap fun s => '\n' :: sectionText s
  | e :: es, ss => ((e :: es).flatMap fun e => entryText e.name e.value)
      ++ ss.flatMap fun s => '\n' :: sectionText s

theorem flatMap_sections {texts : List String} {ss : List Section}
    (h : texts.map String.toList = ss.map sectionText) :
    (texts.flatMap fun s => "\n".toList ++ s.toList)
      = ss.flatMap fun s => '\n' :: sectionText s := by
  have := congrArg (List.flatMap fun l => '\n' :: l) h
  rwa [List.flatMap_map, List.flatMap_map] at this

theorem toList_write (fields : List (String × Document)) :
    (write fields).toList = tableText (entriesOf fields) (sectionsOf [] fields) := by
  have hlines := toList_writeLines fields
  have hsections := toList_writeSections [] fields
  simp only [write]
  -- the lines are left out of the text just if there are none, as no line is empty
  cases hes : entriesOf fields with
  | nil =>
    have hempty : (writeLines fields).isEmpty = true := by
      rw [hes, List.flatMap_nil, String.toList_eq_nil_iff] at hlines
      rw [hlines]
      rfl
    rw [if_pos hempty]
    cases hss : sectionsOf [] fields with
    | nil =>
      rw [hss, List.map_nil, List.map_eq_nil_iff] at hsections
      simp [hsections, tableText]
    | cons s ss =>
      rw [hss, List.map_cons] at hsections
      obtain ⟨text, texts, htexts, htext, hrest⟩ := List.map_eq_cons_iff.1 hsections
      rw [htexts, toList_intercalate_cons, htext, flatMap_sections hrest, tableText]
  | cons e es =>
    have hempty : (writeLines fields).isEmpty ≠ true := by
      intro h
      rw [String.isEmpty_iff] at h
      rw [h, hes] at hlines
      simp [entryText] at hlines
    rw [if_neg hempty, toList_intercalate_cons, flatMap_sections hsections, hlines, hes, tableText]

/-! ### The lines of a text -/

/-- A field with a line of its own that is read as it was written. -/
def IsLine (e : Entry) : Prop := e.path = [] ∧ Inline e.value

/-- A section that is read as it was written. -/
def IsSection (s : Section) : Prop := s.path.length < depthLimit ∧ ∀ e ∈ s.entries, IsLine e

/-- What the lines of a section say. -/
def linesOf (s : Section) : List Line :=
  .header s.path s.name s.repeated :: s.entries.map .entry

theorem collects_entries {lines : List Line} (h : Collects line? [] w lines) :
    ∀ {es : List Entry}, (∀ e ∈ es, IsLine e) →
      Collects line? [] ((es.flatMap fun e => entryText e.name e.value) ++ w)
        (es.map .entry ++ lines)
  | [], _ => h
  | ⟨path, name, d⟩ :: es, hes => by
    obtain ⟨rfl, hd⟩ := hes _ List.mem_cons_self
    have hrest := collects_entries h fun e he => hes e (List.mem_cons_of_mem _ he)
    have hne : entryText name d ≠ [] := by simp [entryText]
    rw [List.flatMap_cons, List.append_assoc]
    exact .more hne (reads_line_entry hd name [] (by simp) _) hrest

theorem collects_section {lines : List Line} (h : Collects line? [] w lines) {s : Section}
    (hs : IsSection s) (bs : List Char) (hbs : ∀ c ∈ bs, isBlank c = true ∨ c = '\n') :
    Collects line? [] (bs ++ sectionText s ++ w) (linesOf s ++ lines) := by
  have hrest := collects_entries h hs.2
  have hne : bs ++ headerText s.path s.name s.repeated ≠ [] := by
    cases hr : s.repeated <;> simp [headerText]
  have htext : bs ++ sectionText s ++ w = (bs ++ headerText s.path s.name s.repeated)
      ++ ((s.entries.flatMap fun e => entryText e.name e.value) ++ w) := by simp [sectionText]
  rw [htext]
  exact .more hne (reads_line_header hs.1 s.name s.repeated bs hbs _) hrest

theorem collects_sections : ∀ {ss : List Section}, (∀ s ∈ ss, IsSection s) →
    Collects line? [] (ss.flatMap fun s => '\n' :: sectionText s) (ss.flatMap linesOf)
  | [], _ => by
    have hblank : Reads blankLines [] () [] := reads_blankLines (by simp) (by simp)
    refine .done (hblank.bind_nil ((Reads.peek? []).bind_nil ?_))
    exact .pure none []
  | s :: ss, h => by
    have hrest := collects_sections fun t ht => h t (List.mem_cons_of_mem _ ht)
    exact collects_section hrest (h s List.mem_cons_self) ['\n'] (by simp)

theorem collects_tableText {es : List Entry} {ss : List Section} (hes : ∀ e ∈ es, IsLine e)
    (hss : ∀ s ∈ ss, IsSection s) :
    Collects line? [] (tableText es ss) (es.map .entry ++ ss.flatMap linesOf) := by
  obtain _ | ⟨e, es⟩ := es
  · obtain _ | ⟨s, ss⟩ := ss
    · exact collects_sections hss
    · exact collects_section (collects_sections fun t ht => hss t (List.mem_cons_of_mem _ ht))
        (hss s List.mem_cons_self) [] (by simp)
  · exact collects_entries (collects_sections hss) hes

/-- The lines of a text are sorted into the entries before the first header and the
sections. -/
theorem sections_eq (es : List Entry) (ss : List Section) :
    sections (es.map .entry ++ ss.flatMap linesOf) = (es, ss) := by
  have hentries (es : List Entry) (lines : List Line) :
      sections (es.map .entry ++ lines) = (es ++ (sections lines).1, (sections lines).2) := by
    induction es with
    | nil => rfl
    | cons e es ih => rw [List.map_cons, List.cons_append, sections, ih]; rfl
  have hsections : sections (ss.flatMap linesOf) = ([], ss) := by
    induction ss with
    | nil => rfl
    | cons s ss ih =>
      rw [List.flatMap_cons, linesOf, List.cons_append, sections, hentries, ih, List.append_nil]
  rw [hentries, hsections, List.append_nil]

/-! ### Reading what was written -/

theorem Outlined.inline_of_mem (h : Outlined n fields) {field : String × Document}
    (hmem : field ∈ fields) (hsec : hasSections field.2 = false) : Inline field.2 := by
  induction h with
  | nil => cases hmem
  | inline _ hd _ ih =>
    obtain rfl | hmem := List.mem_cons.1 hmem
    · exact hd
    · exact ih hmem
  | table _ _ _ _ ih =>
    obtain rfl | hmem := List.mem_cons.1 hmem
    · cases hsec
    · exact ih hmem
  | tables _ hne _ _ _ ih =>
    obtain rfl | hmem := List.mem_cons.1 hmem
    · rw [hasSections_tables hne] at hsec
      cases hsec
    · exact ih hmem

theorem Outlined.isLine (h : Outlined n fields) : ∀ e ∈ entriesOf fields, IsLine e := by
  intro e he
  obtain ⟨field, hfield, rfl⟩ := List.mem_map.1 he
  obtain ⟨hmem, hsec⟩ := List.mem_filter.1 hfield
  exact ⟨rfl, h.inline_of_mem hmem (by simpa using hsec)⟩

theorem mem_sectionsIn {path : List String} {name : String} {s : Section} :
    ∀ {items : List (List (String × Document))}, s ∈ sectionsIn path name (items.map .table) →
      ∃ fields ∈ items, s = ⟨path, name, true, entriesOf fields⟩ ∨
        s ∈ sectionsOf (path ++ [name]) fields
  | [], h => by cases h
  | fields :: items, h => by
    rw [List.map_cons, sectionsIn, List.mem_append, List.mem_cons] at h
    obtain h | h := h
    · exact ⟨fields, List.mem_cons_self, h⟩
    · obtain ⟨other, hother, hs⟩ := mem_sectionsIn h
      exact ⟨other, List.mem_cons_of_mem _ hother, hs⟩

theorem Outlined.isSection (h : Outlined n fields) : ∀ path : List String,
    path.length + n ≤ depthLimit → ∀ s ∈ sectionsOf path fields, IsSection s := by
  induction h with
  | nil => exact fun _ _ _ hs => by cases hs
  | inline _ hd _ ih =>
    intro path hpath s hs
    rw [sectionsOf, hd.sectionsAt, List.nil_append] at hs
    exact ih path hpath s hs
  | table _ h _ ih ihrest =>
    intro path hpath s hs
    rw [sectionsOf, sectionsAt, List.mem_append, List.mem_cons] at hs
    obtain (rfl | hs) | hs := hs
    · exact ⟨by simp only; omega, h.isLine⟩
    · exact ih _ (by rw [List.length_append, List.length_singleton]; omega) s hs
    · exact ihrest path hpath s hs
  | tables _ hne h _ ih ihrest =>
    intro path hpath s hs
    rw [sectionsOf, sectionsAt, if_pos (hasSections_tables hne), List.mem_append] at hs
    obtain hs | hs := hs
    · obtain ⟨fields, hfields, rfl | hs⟩ := mem_sectionsIn hs
      · exact ⟨by simp only; omega, (h fields hfields).isLine⟩
      · exact ih fields hfields _ (by rw [List.length_append, List.length_singleton]; omega) s hs
    · exact ihrest path hpath s hs

/-- A written text begins with a bracket or a name, and so with no byte order mark. -/
theorem not_mark_tableText (es : List Entry) (ss : List Section) :
    ¬"\ufeff".toList <+: tableText es ss := by
  obtain _ | ⟨e, es⟩ := es
  · obtain _ | ⟨s, ss⟩ := ss
    · simp [tableText]
    · cases hr : s.repeated <;> simp [tableText, sectionText, headerText, hr]
  · obtain ⟨c, cs, hcs, hc⟩ := exists_head_writeName e.name
    have hmark : c ≠ '\ufeff' := by rintro rfl; revert hc; decide
    simp [tableText, entryText, hcs, hmark.symm]

/-- A table is read as it was written, the fields with sections of their own last. -/
theorem Outlined.read_write (h : Outlined n fields) (hn : n ≤ depthLimit) :
    read (write fields) = .ok (arrangeFields fields) := by
  have hlines := collects_tableText h.isLine (h.isSection [] (by simpa using hn))
  have hmark := Reads.refuse (not_mark_tableText (entriesOf fields) (sectionsOf [] fields))
  rw [← toList_write] at hlines hmark
  have hrun : Scanner.run (accept "\ufeff" >>= fun _ => collect line?) (write fields) = .ok _ :=
    Reads.run_eq (Reads.bind_nil (by rwa [List.append_nil]) hlines.reads)
  change (Scanner.run (accept "\ufeff" >>= fun _ => collect line?) (write fields) >>= _) = _
  rw [hrun]
  change assemble _ _ = _
  rw [sections_eq]
  exact h.assemble_eq

/-! ### Fields in another order, and fields left out -/

open Document (Step Same lookup? without fieldsWithout itemsWithout)

theorem lookup?_arrangeFields (fields : List (String × Document)) (name : String) :
    lookup? (arrangeFields fields) name
      = (lookup? (plainFields fields) name).or (lookup? (arrangeSections fields) name) :=
  Document.lookup?_append _ _ _

theorem same_cons {name : String} {d : Document} {rest : List (String × Document)}
    (hname : name ∉ rest.map (·.1)) (hd : hasSections d = true → Same d (arrange d))
    (hrest : ∀ other, Option.Rel Same (lookup? rest other) (lookup? (arrangeFields rest) other))
    (other : String) :
    Option.Rel Same (lookup? ((name, d) :: rest) other)
      (lookup? (arrangeFields ((name, d) :: rest)) other) := by
  have hplain : lookup? (plainFields rest) name = none := by
    rw [Document.lookup?_eq_none]
    exact fun h => hname ((List.filter_sublist.map _).subset h)
  have hrest' := hrest other
  rw [lookup?_arrangeFields] at hrest' ⊢
  rw [plainFields] at hplain hrest' ⊢
  cases hsec : hasSections d
  · rw [List.filter_cons_of_pos (by simp [hsec]), arrangeSections, hsec]
    rw [Document.lookup?_cons, Document.lookup?_cons]
    split
    · exact .some (.refl d)
    · exact hrest'
  · rw [List.filter_cons_of_neg (by simp [hsec]), arrangeSections, if_pos hsec]
    rw [Document.lookup?_cons, Document.lookup?_cons]
    by_cases h : name = other
    · subst h
      rw [if_pos rfl, if_pos rfl, hplain]
      exact .some (hd hsec)
    · rw [if_neg h, if_neg h]
      exact hrest'

theorem Outlined.lookup?_arrangeFields (h : Outlined n fields) :
    ∀ name, Option.Rel Same (lookup? fields name) (lookup? (arrangeFields fields) name) := by
  induction h with
  | nil => exact fun _ => .none
  | inline hname hd _ ih =>
    exact same_cons hname (fun hsec => by rw [hd.hasSections] at hsec; cases hsec) ih
  | table hname _ _ ih ihrest => exact same_cons hname (fun _ => .table ih) ihrest
  | @tables n name items rest hname _ _ _ ih ihrest =>
    refine same_cons hname (fun _ => ?_) ihrest
    rw [arrange, arrangeItems_tables]
    refine .array (List.forall₂_map_left_iff.2 (List.forall₂_map_right_iff.2 ?_))
    exact List.forall₂_same.2 fun fields hfields => .table (ih fields hfields)

/-- The fields of a table come back with the values that they had. -/
theorem Outlined.same (h : Outlined n fields) :
    Same (.table fields) (.table (arrangeFields fields)) := .table h.lookup?_arrangeFields

/-! ### Tables with fields left out -/

variable {gone : List Step → Bool}

theorem Simple.without_eq {d : Document} (h : Simple d) (place : List Step) :
    without gone place d = d := by
  cases h <;> rfl

theorem Inline.without_eq {d : Document} (h : Inline d) (place : List Step) :
    without gone place d = d := by
  cases h with
  | single h => exact h.without_eq place
  | list h => rw [without, Document.itemsWithout_eq_self place 0 fun d hd => (h d hd).without_eq]

theorem names_fieldsWithout (place : List Step) : ∀ fields : List (String × Document),
    ((fieldsWithout gone place fields).map (·.1)).Sublist (fields.map (·.1))
  | [] => .slnil
  | (name, d) :: rest => by
    rw [fieldsWithout]
    split
    · exact (names_fieldsWithout place rest).cons _
    · exact (names_fieldsWithout place rest).cons_cons _

/-- Tables in a list stay tables. -/
theorem itemsWithout_tables (place : List Step) :
    ∀ (items : List (List (String × Document))) (index : Nat),
      ∃ others : List (List (String × Document)),
        itemsWithout gone place index (items.map .table) = others.map .table ∧
        others.length = items.length ∧
        ∀ fields ∈ others, ∃ whole ∈ items, ∃ place, fields = fieldsWithout gone place whole
  | [], _ => ⟨[], rfl, rfl, by simp⟩
  | fields :: items, index => by
    obtain ⟨others, hothers, hlen, hmem⟩ := itemsWithout_tables place items (index + 1)
    refine ⟨fieldsWithout gone (place ++ [.item index]) fields :: others, ?_, by simp [hlen], ?_⟩
    · rw [List.map_cons, itemsWithout, hothers, without, List.map_cons]
    · intro f hf
      obtain rfl | hf := List.mem_cons.1 hf
      · exact ⟨fields, by simp, _, rfl⟩
      · obtain ⟨whole, hwhole, h⟩ := hmem f hf
        exact ⟨whole, by simp [hwhole], h⟩

/-- A table that can be written still can without some of its fields. -/
theorem Outlined.without (h : Outlined n fields) (place : List Step) :
    Outlined n (fieldsWithout gone place fields) := by
  induction h generalizing place with
  | nil => exact .nil
  | inline hname hd _ ih =>
    rw [fieldsWithout]
    split
    · exact ih place
    · rw [hd.without_eq]
      exact .inline (fun h => hname ((names_fieldsWithout _ _).subset h)) hd (ih place)
  | table hname _ _ ih ihrest =>
    rw [fieldsWithout]
    split
    · exact ihrest place
    · exact .table (fun h => hname ((names_fieldsWithout _ _).subset h)) (ih _) (ihrest place)
  | @tables n name items rest hname hne _ _ ih ihrest =>
    rw [fieldsWithout]
    split
    · exact ihrest place
    · obtain ⟨others, hothers, hlen, hmem⟩ :=
        itemsWithout_tables (place ++ [.field name]) items 0
      rw [Document.without, hothers]
      refine .tables (fun h => hname ((names_fieldsWithout _ _).subset h)) ?_ ?_ (ihrest place)
      · rintro rfl
        exact hne (List.length_eq_zero_iff.1 hlen.symm)
      · intro f hf
        obtain ⟨whole, hwhole, inner, rfl⟩ := hmem f hf
        exact ih whole hwhole inner

end TaskAllocation.Toml
