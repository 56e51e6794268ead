import Mathlib.Data.List.Nodup
import TaskAllocation.Proofs.Toml.Value
import TaskAllocation.Toml.Table

/-!
# Tables are put together as they were taken apart

A table is written as its own lines and a section for every table in it, each of which names
the whole path to it.  Reading goes the other way and hangs section after section into the
table read so far.  A section whose path is known is put in where it belongs whatever stands
around it: `Hole` is that surrounding, and the induction over a table goes through all
surroundings at once.  Tables come behind the other fields of a table when it is written, so
it comes back in that order.

## Main definitions

* `Toml.entriesOf`, `Toml.sectionsOf` — the lines and the sections of a table.
* `Toml.arrange` — a value as it comes back.
* `Toml.Outlined` — a table that can be written.
* `Toml.Hole` — a table with a place in it.
* `Toml.Attaches` — the sections of a table are put in at every place.

## Main results

* `Toml.attach_table`, `Toml.attach_tables` — one section.
* `Toml.Outlined.attaches` — all the sections of a table.
* `Toml.Outlined.assemble_eq` — **a table is put together as it was taken apart.**
-/

namespace TaskAllocation.Toml

variable {name : String} {d : Document} {fields : List (String × Document)} {ns : Fields}
  {path : List String} {k : Fields → Fields}

/-! ### Fields -/

theorem Fields.get?_eq_none (h : name ∉ ns.map (·.1)) : ns.get? name = none := by
  simp only [Fields.get?, Option.map_eq_none_iff, List.find?_eq_none, beq_iff_eq]
  exact fun field hf hname => h (List.mem_map.2 ⟨field, hf, hname⟩)

theorem Fields.get?_append (h : name ∉ ns.map (·.1)) (node : Node) :
    Fields.get? (ns ++ [(name, node)]) name = some node := by
  have := Fields.get?_eq_none h
  simp only [Fields.get?, Option.map_eq_none_iff] at this
  simp [Fields.get?, this]

theorem Fields.set_eq_append (h : name ∉ ns.map (·.1)) (node : Node) :
    ns.set name node = ns ++ [(name, node)] := by
  induction ns with
  | nil => rfl
  | cons field ns ih =>
    simp only [List.map_cons, List.mem_cons, not_or] at h
    rw [Fields.set, if_neg (Ne.symm h.1), ih h.2, List.cons_append]

theorem Fields.set_append (h : name ∉ ns.map (·.1)) (old node : Node) :
    Fields.set (ns ++ [(name, old)]) name node = ns ++ [(name, node)] := by
  induction ns with
  | nil => simp [Fields.set]
  | cons field ns ih =>
    simp only [List.map_cons, List.mem_cons, not_or] at h
    rw [List.cons_append, Fields.set, if_neg (Ne.symm h.1), ih h.2, List.cons_append]

/-! ### Places in a table -/

theorem alter_append (dotted : Bool) (change : Origin → Fields → Except ReadError Fields)
    (p q : List String) (origin : Origin) (ns : Fields) :
    alter dotted change (p ++ q) origin ns
      = alter dotted (fun origin inner => alter dotted change q origin inner) p origin ns := by
  induction p generalizing origin ns with
  | nil => rfl
  | cons name p ih => simp only [List.cons_append, alter, ih]

/-- The table that is reached along `path` is what `k` is filled with, and has a header of
its own. -/
def Hole (path : List String) (k : Fields → Fields) : Prop :=
  ∀ (change : Origin → Fields → Except ReadError Fields) (ns : Fields),
    alter false change path .header (k ns) = (change .header ns).map k

theorem Hole.nil : Hole [] id := fun change ns => by
  rw [alter, id_eq]
  cases change .header ns <;> rfl

/-- A place within a table under a name that is new there. -/
theorem Hole.table (h : Hole path k) (hname : name ∉ ns.map (·.1)) :
    Hole (path ++ [name]) fun inner => k (ns ++ [(name, .table .header inner)]) := by
  intro change inner
  rw [alter_append, h]
  simp only [alter, Fields.get?_append hname, Fields.set_append hname]
  cases change .header inner <;> rfl

/-- A place within the last of several tables under a name that is new. -/
theorem Hole.tables (h : Hole path k) (hname : name ∉ ns.map (·.1)) (others : List Fields) :
    Hole (path ++ [name]) fun inner => k (ns ++ [(name, .tables (others ++ [inner]))]) := by
  intro change inner
  rw [alter_append, h]
  simp only [alter, Fields.get?_append hname, Fields.set_append hname, List.getLast?_concat,
    List.dropLast_concat]
  cases change .header inner <;> rfl

/-! ### Taking tables apart -/

/-- The fields that are written on lines of their own. -/
def plainFields (fields : List (String × Document)) : List (String × Document) :=
  fields.filter fun field => !hasSections field.2

/-- The lines of a table. -/
def entriesOf (fields : List (String × Document)) : List Entry :=
  (plainFields fields).map fun field => { path := [], name := field.1, value := field.2 }

mutual

/-- The sections of the fields of the table at a path. -/
def sectionsOf (path : List String) : List (String × Document) → List Section
  | [] => []
  | (name, d) :: rest => sectionsAt path name d ++ sectionsOf path rest

/-- The sections of the value under a name. -/
def sectionsAt (path : List String) (name : String) : Document → List Section
  | .table fields =>
    { path := path, name := name, repeated := false, entries := entriesOf fields }
      :: sectionsOf (path ++ [name]) fields
  | .array items => if hasSections (.array items) then sectionsIn path name items else []
  | _ => []

/-- The sections of a list of tables under a name. -/
def sectionsIn (path : List String) (name : String) : List Document → List Section
  | [] => []
  | .table fields :: rest =>
    { path := path, name := name, repeated := true, entries := entriesOf fields }
      :: sectionsOf (path ++ [name]) fields ++ sectionsIn path name rest
  | _ :: rest => sectionsIn path name rest

end

/-! ### The order of fields -/

mutual

/-- A value as it comes back: in every table the fields with sections of their own come
last, as they are written last. -/
def arrange : Document → Document
  | .table fields => .table (plainFields fields ++ arrangeSections fields)
  | .array items => .array (arrangeItems items)
  | d => d

/-- The fields that have sections of their own. -/
def arrangeSections : List (String × Document) → List (String × Document)
  | [] => []
  | (name, d) :: rest =>
    if hasSections d then (name, arrange d) :: arrangeSections rest else arrangeSections rest

/-- The items of a list. -/
def arrangeItems : List Document → List Document
  | [] => []
  | d :: rest => arrange d :: arrangeItems rest

end

/-- The fields of a table as they come back. -/
def arrangeFields (fields : List (String × Document)) : List (String × Document) :=
  plainFields fields ++ arrangeSections fields

/-! ### Tables that can be written -/

/-- The fields of a table that is read as it was written: its names are different, and each
value is written behind an equality sign, is a table, or is a list of tables.  There are
headers of at most `n` names below it. -/
inductive Outlined : (n : Nat) → List (String × Document) → Prop where
  /-- There are no fields. -/
  | nil {n : Nat} : Outlined n []
  /-- A field with a line of its own. -/
  | inline {n : Nat} {name : String} {d : Document} {rest : List (String × Document)}
      (hname : name ∉ rest.map (·.1)) (hd : Inline d) (hrest : Outlined n rest) :
      Outlined n ((name, d) :: rest)
  /-- A table. -/
  | table {n : Nat} {name : String} {fields rest : List (String × Document)}
      (hname : name ∉ rest.map (·.1)) (h : Outlined n fields) (hrest : Outlined (n + 1) rest) :
      Outlined (n + 1) ((name, .table fields) :: rest)
  /-- A list of tables. -/
  | tables {n : Nat} {name : String} {items : List (List (String × Document))}
      {rest : List (String × Document)} (hname : name ∉ rest.map (·.1)) (hne : items ≠ [])
      (h : ∀ fields ∈ items, Outlined n fields) (hrest : Outlined (n + 1) rest) :
      Outlined (n + 1) ((name, .array (items.map .table)) :: rest)

theorem Inline.hasSections (h : Inline d) : hasSections d = false := by
  cases h with
  | single h => cases h <;> rfl
  | @list items h =>
    cases items with
    | nil => rfl
    | cons d items =>
      have hd : d.isTable = false := by cases h d (by simp) <;> rfl
      simp [Toml.hasSections, hd]

theorem hasSections_tables {items : List (List (String × Document))} (hne : items ≠ []) :
    hasSections (.array (items.map .table)) = true := by
  simp [hasSections, hne, Document.isTable]

theorem Outlined.nodup {n : Nat} (h : Outlined n fields) : (fields.map (·.1)).Nodup := by
  induction h with
  | nil => simp
  | inline hname _ _ ih => exact List.nodup_cons.2 ⟨hname, ih⟩
  | table hname _ _ _ ih => exact List.nodup_cons.2 ⟨hname, ih⟩
  | tables hname _ _ _ _ ih => exact List.nodup_cons.2 ⟨hname, ih⟩

theorem names_arrangeSections (fields : List (String × Document)) :
    (arrangeSections fields).map (·.1)
      = (fields.filter fun field => hasSections field.2).map (·.1) := by
  induction fields with
  | nil => rfl
  | cons field rest ih =>
    rw [arrangeSections, List.filter_cons]
    split
    · rw [List.map_cons, List.map_cons, ih]
    · exact ih

/-- A name on a line of its own is not the name of a section. -/
theorem not_mem_plainFields (h : (fields.map (·.1)).Nodup)
    (hname : name ∈ (arrangeSections fields).map (·.1)) :
    name ∉ (plainFields fields).map (·.1) := by
  rw [names_arrangeSections] at hname
  rintro hplain
  obtain ⟨f, hf, rfl⟩ := List.mem_map.1 hname
  obtain ⟨g, hg, hfg⟩ := List.mem_map.1 hplain
  obtain ⟨hf, hsec⟩ := List.mem_filter.1 hf
  obtain ⟨hg, hno⟩ := List.mem_filter.1 hg
  rw [List.inj_on_of_nodup_map h hg hf hfg, hsec] at hno
  cases hno

/-! ### Putting the lines of a table together -/

/-- The lines of a table as they are put together. -/
def plainNodes (fields : List (String × Document)) : Fields :=
  (plainFields fields).map fun field => (field.1, .value field.2)

theorem names_plainNodes (fields : List (String × Document)) :
    (plainNodes fields).map (·.1) = (plainFields fields).map (·.1) := by
  simp [plainNodes]

theorem insert_new (hname : name ∉ ns.map (·.1)) (d : Document) :
    insert ns [] name d = .ok (ns ++ [(name, .value d)]) := by
  simp [insert, alter, Fields.get?_eq_none hname]

theorem insertAll_append : ∀ {fields : List (String × Document)} (ns : Fields),
    (fields.map (·.1)).Nodup → (∀ name ∈ fields.map (·.1), name ∉ ns.map (·.1)) →
    insertAll ns (fields.map fun field => { path := [], name := field.1, value := field.2 })
      = .ok (ns ++ fields.map fun field => (field.1, .value field.2))
  | [], ns, _, _ => by simp [insertAll]; rfl
  | (name, d) :: fields, ns, hnodup, hnew => by
    obtain ⟨hname, hnodup⟩ := List.nodup_cons.1 hnodup
    have hrest : ∀ other ∈ fields.map (·.1), other ∉ (ns ++ [(name, Node.value d)]).map (·.1) := by
      intro other hother
      have hne : other ≠ name := by rintro rfl; exact hname hother
      simpa [hne] using hnew other (List.mem_cons_of_mem _ hother)
    have ih := insertAll_append _ hnodup hrest
    simp only [insertAll, List.map_cons, List.foldlM_cons] at ih ⊢
    rw [insert_new (hnew name (by simp))]
    rw [List.append_assoc] at ih
    exact ih

theorem insertAll_entriesOf (h : (fields.map (·.1)).Nodup) :
    insertAll [] (entriesOf fields) = .ok (plainNodes fields) := by
  have hsub : ((plainFields fields).map (·.1)).Nodup :=
    h.sublist (List.filter_sublist.map _)
  exact insertAll_append [] hsub (by simp)

/-! ### Putting sections in their places -/

theorem finishFields_append (ns added : Fields) :
    finishFields (ns ++ added) = finishFields ns ++ finishFields added := by
  induction ns with
  | nil => rfl
  | cons field ns ih => rw [List.cons_append, finishFields, finishFields, ih, List.cons_append]

theorem finishFields_plainNodes (fields : List (String × Document)) :
    finishFields (plainNodes fields) = plainFields fields := by
  unfold plainNodes
  induction plainFields fields with
  | nil => rfl
  | cons field rest ih => rw [List.map_cons, finishFields, ih, Node.toDocument]

/-- A section whose name is new. -/
theorem attach_table (h : Hole path k) (hname : name ∉ ns.map (·.1))
    (hfields : (fields.map (·.1)).Nodup) :
    attach (k ns) { path := path, name := name, repeated := false, entries := entriesOf fields }
      = .ok (k (ns ++ [(name, .table .header (plainNodes fields))])) := by
  rw [attach, h]
  simp only [Bool.false_eq_true, if_false, Fields.get?_eq_none hname, insertAll_entriesOf hfields]
  change Except.ok (k (ns.set name _)) = _
  rw [Fields.set_eq_append hname]

/-- The tables that there are already under a repeated header. -/
def tablesSoFar (ns : Fields) (name : String) : List Fields → Fields
  | [] => ns
  | items => ns ++ [(name, .tables items)]

/-- A section whose header may be repeated. -/
theorem attach_tables (h : Hole path k) (hname : name ∉ ns.map (·.1))
    (hfields : (fields.map (·.1)).Nodup) (items : List Fields) :
    attach (k (tablesSoFar ns name items))
        { path := path, name := name, repeated := true, entries := entriesOf fields }
      = .ok (k (ns ++ [(name, .tables (items ++ [plainNodes fields]))])) := by
  cases items with
  | nil =>
    rw [tablesSoFar, attach, h]
    simp only [if_true, Fields.get?_eq_none hname, insertAll_entriesOf hfields]
    change Except.ok (k (ns.set name _)) = _
    rw [Fields.set_eq_append hname, List.nil_append]
  | cons first items =>
    rw [tablesSoFar, attach, h]
    · simp only [if_true, Fields.get?_append hname, insertAll_entriesOf hfields]
      change Except.ok (k (Fields.set _ name _)) = _
      rw [Fields.set_append hname]
    · simp

/-- The sections of a table are put in their places, wherever the table is. -/
def Attaches (fields : List (String × Document)) : Prop :=
  ∀ {path : List String} {k : Fields → Fields} {ns : Fields}, Hole path k →
    (∀ name ∈ (arrangeSections fields).map (·.1), name ∉ ns.map (·.1)) →
    ∃ added, (sectionsOf path fields).foldlM attach (k ns) = .ok (k (ns ++ added)) ∧
      finishFields added = arrangeSections fields

/-- The sections of a table whose lines are there already. -/
theorem Attaches.whole (h : Attaches fields) (hole : Hole path k)
    (hfields : (fields.map (·.1)).Nodup) :
    ∃ inner, (sectionsOf path fields).foldlM attach (k (plainNodes fields)) = .ok (k inner) ∧
      finishFields inner = arrangeFields fields := by
  obtain ⟨added, hadded, hfinish⟩ := h hole fun name hname => by
    rw [names_plainNodes]
    exact not_mem_plainFields hfields hname
  refine ⟨_, hadded, ?_⟩
  rw [finishFields_append, finishFields_plainNodes, hfinish, arrangeFields]

theorem tablesSoFar_concat (ns : Fields) (name : String) (items : List Fields) (last : Fields) :
    tablesSoFar ns name (items ++ [last]) = ns ++ [(name, .tables (items ++ [last]))] := by
  cases items <;> rfl

theorem attach_items (hole : Hole path k) (hname : name ∉ ns.map (·.1)) :
    ∀ items : List (List (String × Document)),
      (∀ fields ∈ items, (fields.map (·.1)).Nodup ∧ Attaches fields) → ∀ before : List Fields,
      ∃ added, (sectionsIn path name (items.map .table)).foldlM attach
          (k (tablesSoFar ns name before)) = .ok (k (tablesSoFar ns name (before ++ added))) ∧
        finishTables added = items.map fun fields => .table (arrangeFields fields)
  | [], _, before => ⟨[], by simp [sectionsIn]; rfl, rfl⟩
  | fields :: items, h, before => by
    obtain ⟨hnodup, hattach⟩ := h fields (by simp)
    obtain ⟨inner, hinner, hfinish⟩ := hattach.whole (hole.tables hname before) hnodup
    obtain ⟨added, hadded, hrest⟩ := attach_items hole hname items
      (fun other hother => h other (by simp [hother])) (before ++ [inner])
    refine ⟨inner :: added, ?_, by rw [finishTables, hfinish, hrest, List.map_cons]⟩
    rw [List.map_cons, sectionsIn, List.foldlM_append, List.foldlM_cons,
      attach_tables hole hname hnodup]
    rw [tablesSoFar_concat, List.append_assoc] at hadded
    change (List.foldlM attach _ (sectionsOf (path ++ [name]) fields) >>= _) = _
    rw [hinner]
    exact hadded

/-- The names that are left are new when one of them has been added. -/
theorem new_append {rest : List (String × Document)} (hname : name ∉ rest.map (·.1))
    (hnew : ∀ other ∈ (arrangeSections rest).map (·.1), other ∉ ns.map (·.1)) (node : Node) :
    ∀ other ∈ (arrangeSections rest).map (·.1), other ∉ (ns ++ [(name, node)]).map (·.1) := by
  intro other hother
  have hmem : other ∈ rest.map (·.1) := by
    rw [names_arrangeSections] at hother
    exact (List.filter_sublist.map _).subset hother
  have hne : other ≠ name := by rintro rfl; exact hname hmem
  simpa [hne] using hnew other hother

theorem Inline.sectionsAt (h : Inline d) (path : List String) (name : String) :
    sectionsAt path name d = [] := by
  have hsec := h.hasSections
  cases d with
  | table fields => cases hsec
  | array items => rw [Toml.sectionsAt, if_neg (by simp [hsec])]
  | _ => rfl

theorem arrangeItems_tables (items : List (List (String × Document))) :
    arrangeItems (items.map .table) = items.map fun fields => .table (arrangeFields fields) := by
  induction items with
  | nil => rfl
  | cons fields items ih =>
    rw [List.map_cons, arrangeItems, ih, arrange, List.map_cons, arrangeFields]

/-- The sections of every table that can be written are put in their places. -/
theorem Outlined.attaches {n : Nat} (h : Outlined n fields) : Attaches fields := by
  -- the surroundings vary: what is attached within a field has that field around it
  induction h with
  | nil => exact fun _ _ => ⟨[], by simp [sectionsOf]; rfl, rfl⟩
  | @inline n name d rest hname hd hrest ih =>
    intro path k ns hole hnew
    rw [arrangeSections, hd.hasSections] at hnew ⊢
    rw [sectionsOf, hd.sectionsAt, List.nil_append]
    exact ih hole hnew
  | @table n name fields rest hname h hrest ih ihrest =>
    intro path k ns hole hnew
    rw [arrangeSections, hasSections, if_pos rfl] at hnew ⊢
    obtain ⟨hnew, hothers⟩ := List.forall_mem_cons.1 hnew
    obtain ⟨inner, hinner, hfinish⟩ := ih.whole (hole.table hnew) h.nodup
    obtain ⟨added, hadded, hdone⟩ :=
      ihrest hole (new_append hname hothers (.table .header inner))
    refine ⟨(name, .table .header inner) :: added, ?_, ?_⟩
    · rw [List.append_assoc] at hadded
      rw [sectionsOf, Toml.sectionsAt, List.foldlM_append, List.foldlM_cons,
        attach_table hole hnew h.nodup]
      change (List.foldlM attach _ (sectionsOf (path ++ [name]) fields) >>= _) = _
      rw [hinner]
      exact hadded
    · rw [finishFields, hdone, Node.toDocument, hfinish, arrange, arrangeFields]
  | @tables n name items rest hname hne h hrest ih ihrest =>
    intro path k ns hole hnew
    rw [arrangeSections, hasSections_tables hne, if_pos rfl] at hnew ⊢
    obtain ⟨hnew, hothers⟩ := List.forall_mem_cons.1 hnew
    obtain ⟨done, hitems, hfinish⟩ := attach_items hole hnew items
      (fun fields hf => ⟨(h fields hf).nodup, ih fields hf⟩) []
    -- the list has a table, so the field is there by the time the rest is attached
    obtain _ | ⟨first, others⟩ := done
    · exact absurd (List.map_eq_nil_iff.1 hfinish.symm) hne
    obtain ⟨added, hadded, hdone⟩ :=
      ihrest hole (new_append hname hothers (.tables (first :: others)))
    refine ⟨(name, .tables (first :: others)) :: added, ?_, ?_⟩
    · rw [List.append_assoc] at hadded
      rw [tablesSoFar] at hitems
      rw [sectionsOf, Toml.sectionsAt, if_pos (hasSections_tables hne), List.foldlM_append, hitems]
      exact hadded
    · rw [finishFields, hdone, Node.toDocument, hfinish, arrange, arrangeItems_tables]

/-- A table is put together as it was taken apart, the fields with sections of their own
last. -/
theorem Outlined.assemble_eq {n : Nat} (h : Outlined n fields) :
    assemble (entriesOf fields) (sectionsOf [] fields) = .ok (arrangeFields fields) := by
  obtain ⟨inner, hinner, hfinish⟩ := Attaches.whole h.attaches Hole.nil h.nodup
  rw [assemble, insertAll_entriesOf h.nodup]
  change (List.foldlM attach (id (plainNodes fields)) (sectionsOf [] fields) >>= _) = _
  rw [hinner]
  change Except.ok (finishFields inner) = _
  rw [hfinish]

end TaskAllocation.Toml
