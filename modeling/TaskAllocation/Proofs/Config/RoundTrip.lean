import TaskAllocation.Config.Schema
import TaskAllocation.Proofs.Outcome
import TaskAllocation.Proofs.Toml.RoundTrip

/-!
# Configurations come back from their documents

A configuration is written with every field that has a value, and read with a default for
every field but the names of tasks.  The two agree whatever has been left out in between, as
long as it is what reading supplies: a field of the standard configuration, or of a task with
nothing but a name.  A list of tasks that is empty is not the one that is supplied, and so it
is written and cannot be left out.

Each part of a configuration has one lemma that reads it from any document with the same
values, and the whole is put together from these.  The text comes in last.  It may be in any
notation that is faithful to the tables of single values, lists, tables and lists of tables
which configurations are written as; TOML is one.

## Main definitions

* `Config.suppliedAt`, `Config.CanOmit` — what reading supplies, and what can be left out.
* `TextFormat.Faithful` — a table that has been written is read back.
* `Config.toTextWithout` — the text of a configuration with fields left out.

## Main results

* `Config.ofDocument_eq` — a configuration is read from every document that says the same.
* `Config.outlined_toFields` — its document can be written.
* `Config.ofText_toText` — **a configuration is read back from its text, with or without the
  fields that reading supplies.**
* `Config.ofToml_toToml` — TOML always has a text for it.
-/

namespace TaskAllocation

open Document

/-! ### Faithful notations -/

/-- A notation is faithful to tables of depth `n` if each that it has a text for is read back
from the text: with the same values under the same names, in whatever order. -/
def TextFormat.Faithful {ε : Type} (format : TextFormat ε) (n : Nat) : Prop :=
  ∀ fields text, Toml.Outlined n fields → format.write fields = .ok text →
    ∃ others, format.read text = .ok others ∧ Same (.table fields) (.table others)

/-- TOML is faithful as deep as it can be read. -/
theorem Toml.faithful_format {n : Nat} (hn : n ≤ depthLimit) : format.Faithful n := by
  intro fields text h hwrite
  obtain rfl : write fields = text := Except.ok.inj hwrite
  exact ⟨_, h.read_write hn, h.same⟩

namespace Config

variable {α : Type} {c : Config Float} {gone : List Step → Bool} {place : List Step}
  {fields standardFields others : List (String × Document)} {name : String}

/-! ### Single values -/

theorem field_number_eq (h : Keeps gone place fields others)
    (hs : Supplied gone place fields standardFields) {x default : Float}
    (hfield : lookup? fields name = some (.number x))
    (hdefault : lookup? standardFields name = some (.number default)) :
    field others name default asNumber = .ok x :=
  h.field_eq .number hs hfield hdefault (fun _ _ h => Document.number.inj h) fun d hd => by
    rw [Same.eq_of_isLeaf rfl hd]
    rfl

theorem field_flag_eq (h : Keeps gone place fields others)
    (hs : Supplied gone place fields standardFields) {b default : Bool}
    (hfield : lookup? fields name = some (.flag b))
    (hdefault : lookup? standardFields name = some (.flag default)) :
    field others name default asFlag = .ok b :=
  h.field_eq .flag hs hfield hdefault (fun _ _ h => Document.flag.inj h) fun d hd => by
    rw [Same.eq_of_isLeaf rfl hd]
    rfl

theorem name_injective {nameOf : α → String} {choices : List (String × α)}
    (h : ∀ a, named choices (nameOf a) = .ok a) : Function.Injective nameOf := by
  intro a b hab
  have hb := h a
  rw [hab, h b] at hb
  exact (Except.ok.inj hb).symm

/-- A choice is read from the name that is written for it. -/
theorem field_choice_eq (h : Keeps gone place fields others)
    (hs : Supplied gone place fields standardFields) {nameOf : α → String}
    {choices : List (String × α)} (hnames : ∀ a, named choices (nameOf a) = .ok a)
    (dialect : Dialect) {v default : α}
    (hfield : lookup? fields name = some (.text (nameOf v)))
    (hdefault : lookup? standardFields name = some (.text (nameOf default))) :
    field others name default (asChoice dialect choices) = .ok v := by
  have hinj : Function.Injective fun a => Document.text (nameOf a) := fun _ _ h =>
    name_injective hnames (Document.text.inj h)
  refine h.field_eq _ hs hfield hdefault hinj fun d hd => ?_
  rw [Same.eq_of_isLeaf rfl hd]
  exact hnames v

theorem named_allocation (p : AllocationPolicy) :
    named AllocationPolicy.names p.name = .ok p := by
  cases p <;> simp [named, AllocationPolicy.names, AllocationPolicy.name]

theorem named_focus (p : FocusPolicy) : named FocusPolicy.names p.name = .ok p := by
  cases p <;> simp [named, FocusPolicy.names, FocusPolicy.name]

theorem asWord_wordDocument (w : UInt64) : asWord (wordDocument w) = .ok w := by
  have hlt := w.toNat_lt_size
  have hrange : 0 ≤ (w.toNat : Int) ∧ (w.toNat : Int) < UInt64.size := by omega
  simp only [wordDocument, Document.ofNat, asWord]
  rw [if_pos hrange]
  simp

theorem optional_asWord_wordDocument (w : UInt64) :
    optional asWord (wordDocument w) = .ok (some w) := by
  change (asWord (wordDocument w)).map some = _
  rw [asWord_wordDocument]
  rfl

/-! ### Sections -/

theorem readCurve_eq {curve standard : Logistic Float} {d : Document}
    (hs : Supplied gone place (curveFields curve) (curveFields standard))
    (h : Same (without gone place (.table (curveFields curve))) d) (dialect : Dialect) :
    readCurve dialect standard d = .ok curve := by
  obtain ⟨others, rfl, hk⟩ := h.exists_keeps
  have hfields : fieldsOf dialect ["reactivity", "offset", "gamma"] (.table others) = .ok others :=
    hk.fieldsOf_eq dialect (by simp [curveFields])
  have hreactivity : field others "reactivity" standard.reactivity asNumber
      = .ok curve.reactivity :=
    field_number_eq hk hs (by simp [curveFields]) (by simp [curveFields])
  have hoffset : field others "offset" standard.offset asNumber = .ok curve.offset :=
    field_number_eq hk hs (by simp [curveFields]) (by simp [curveFields])
  have hgamma : field others "gamma" standard.gamma asNumber = .ok curve.gamma :=
    field_number_eq hk hs (by simp [curveFields]) (by simp [curveFields])
  simp only [readCurve, hfields, Except.ok_bind, hreactivity, hoffset, hgamma]
  rfl

theorem curveFields_injective :
    Function.Injective fun curve : Logistic Float => Document.table (curveFields curve) :=
  write_injective _ fun _ =>
    readCurve_eq (.nothing _ _ (curveFields Logistic.standard)) (.refl _) Toml.dialect

/-- The fields of the abort curve. -/
def abortFields (a : AbortCurve Float) : List (String × Document) :=
  curveFields a.curve ++ [("min_prob", .number a.minProb)]

theorem readAbort_eq {a : AbortCurve Float} {d : Document}
    (hs : Supplied gone place (abortFields a) (abortFields AbortCurve.standard))
    (h : Same (without gone place (.table (abortFields a))) d) (dialect : Dialect) :
    readAbort dialect d = .ok a := by
  obtain ⟨others, rfl, hk⟩ := h.exists_keeps
  have hfields : fieldsOf dialect ["reactivity", "offset", "gamma", "min_prob"] (.table others)
      = .ok others := hk.fieldsOf_eq dialect (by simp [abortFields, curveFields])
  have hreactivity : field others "reactivity" AbortCurve.standard.curve.reactivity asNumber
      = .ok a.curve.reactivity :=
    field_number_eq hk hs (by simp [abortFields, curveFields]) (by simp [abortFields, curveFields])
  have hoffset : field others "offset" AbortCurve.standard.curve.offset asNumber
      = .ok a.curve.offset :=
    field_number_eq hk hs (by simp [abortFields, curveFields]) (by simp [abortFields, curveFields])
  have hgamma : field others "gamma" AbortCurve.standard.curve.gamma asNumber
      = .ok a.curve.gamma :=
    field_number_eq hk hs (by simp [abortFields, curveFields]) (by simp [abortFields, curveFields])
  have hminProb : field others "min_prob" AbortCurve.standard.minProb asNumber = .ok a.minProb :=
    field_number_eq hk hs (by simp [abortFields, curveFields]) (by simp [abortFields, curveFields])
  simp only [readAbort, hfields, Except.ok_bind, hreactivity, hoffset, hgamma, hminProb]
  rfl

/-- The fields of how a member of a block is chosen. -/
def partitioningFields (p : Partitioning Float) : List (String × Document) := [
  ("sigmoid", .table (curveFields p.curve)),
  ("always_partition", .flag p.always),
  ("never_partition", .flag p.never),
  ("last_partition_bias", .number p.bias)]

theorem readPartitioning_eq {p : Partitioning Float} {d : Document}
    (hs : Supplied gone place (partitioningFields p) (partitioningFields Partitioning.standard))
    (hcurve : Supplied gone (place ++ [.field "sigmoid"]) (curveFields p.curve)
      (curveFields (Partitioning.standard : Partitioning Float).curve))
    (h : Same (without gone place (.table (partitioningFields p))) d) (dialect : Dialect) :
    readPartitioning dialect d = .ok p := by
  obtain ⟨others, rfl, hk⟩ := h.exists_keeps
  have hfields : fieldsOf dialect ["sigmoid", "always_partition", "never_partition",
      "last_partition_bias"] (.table others) = .ok others :=
    hk.fieldsOf_eq dialect (by simp [partitioningFields])
  have hsigmoid : field others "sigmoid" (Partitioning.standard : Partitioning Float).curve
      (readCurve dialect (Partitioning.standard : Partitioning Float).curve) = .ok p.curve :=
    hk.field_eq _ hs (by simp [partitioningFields]) (by simp [partitioningFields])
      curveFields_injective fun d hd => readCurve_eq hcurve hd dialect
  have halways : field others "always_partition"
      (Partitioning.standard : Partitioning Float).always asFlag = .ok p.always :=
    field_flag_eq hk hs (by simp [partitioningFields]) (by simp [partitioningFields])
  have hnever : field others "never_partition"
      (Partitioning.standard : Partitioning Float).never asFlag = .ok p.never :=
    field_flag_eq hk hs (by simp [partitioningFields]) (by simp [partitioningFields])
  have hbias : field others "last_partition_bias"
      (Partitioning.standard : Partitioning Float).bias asNumber = .ok p.bias :=
    field_number_eq hk hs (by simp [partitioningFields]) (by simp [partitioningFields])
  simp only [readPartitioning, hfields, Except.ok_bind, hsigmoid, halways, hnever, hbias]
  rfl

/-- The fields of the policies of the executive. -/
def policyFields (p : Policies) : List (String × Document) := [
  ("update_exec_ests", .flag p.learns),
  ("alloc_policy", .text p.allocation.name),
  ("tab_init_policy", .text p.focus.name)]

theorem readPolicies_eq {p : Policies} {d : Document}
    (hs : Supplied gone place (policyFields p) (policyFields standardPolicies))
    (h : Same (without gone place (.table (policyFields p))) d) (dialect : Dialect) :
    readPolicies dialect d = .ok p := by
  obtain ⟨others, rfl, hk⟩ := h.exists_keeps
  have hfields : fieldsOf dialect ["update_exec_ests", "alloc_policy", "tab_init_policy"]
      (.table others) = .ok others := hk.fieldsOf_eq dialect (by simp [policyFields])
  have hlearns : field others "update_exec_ests" standardPolicies.learns asFlag = .ok p.learns :=
    field_flag_eq hk hs (by simp [policyFields]) (by simp [policyFields])
  have hallocation : field others "alloc_policy" standardPolicies.allocation
      (asChoice dialect AllocationPolicy.names) = .ok p.allocation :=
    field_choice_eq hk hs named_allocation dialect (by simp [policyFields]) (by simp [policyFields])
  have hfocus : field others "tab_init_policy" standardPolicies.focus
      (asChoice dialect FocusPolicy.names) = .ok p.focus :=
    field_choice_eq hk hs named_focus dialect (by simp [policyFields]) (by simp [policyFields])
  simp only [readPolicies, hfields, Except.ok_bind, hlearns, hallocation, hfocus]
  rfl

theorem readAlpha_eq {x : Float} {d : Document}
    (hs : Supplied gone place [("alpha", .number x)]
      [("alpha", .number (standard : Config Float).alpha)])
    (h : Same (without gone place (.table [("alpha", .number x)])) d) (dialect : Dialect) :
    readAlpha dialect d = .ok x := by
  obtain ⟨others, rfl, hk⟩ := h.exists_keeps
  have hfields : fieldsOf dialect ["alpha"] (.table others) = .ok others :=
    hk.fieldsOf_eq dialect (by simp)
  simp only [readAlpha, hfields, Except.ok_bind]
  exact field_number_eq hk hs (by simp) (by simp)

/-! ### Tasks -/

/-- The fields of a task. -/
def entryFields (t : TaskEntry Float) : List (String × Document) :=
  [("name", .text t.name), ("children", .array (t.parts.map .text)),
    ("initial_estimate", .number t.initial)]
  ++ optionalField "alpha" t.alpha .number
  ++ optionalField "duration" t.duration wordDocument

theorem entryDocument_eq (t : TaskEntry Float) : entryDocument t = .table (entryFields t) := rfl

/-- What reading supplies for a task besides its name. -/
def entryDefaults : List (String × Document) :=
  [("children", .array []), ("initial_estimate", .number 0.0)]

theorem asList_asText_eq {texts : List String} {d : Document}
    (h : Same (without gone place (.array (texts.map .text))) d) :
    asList asText d = .ok texts := by
  rw [without, itemsWithout_eq_self place 0
    (List.forall_mem_map.2 fun s _ => without_of_isLeaf rfl gone)] at h
  obtain ⟨others, rfl, hsame⟩ := h.exists_items
  rw [asList, Except.mapM_eq_ok_iff]
  refine (List.forall₂_map_left_iff.1 hsame).flip.imp fun d s hd => ?_
  cases hd
  rfl

theorem lookup?_optionalField {value : Option α} {write : α → Document} (name other : String) :
    lookup? (optionalField name value write) other
      = if name = other then value.map write else none := by
  cases value <;> simp [optionalField]

theorem mem_optionalField {value : Option α} {write : α → Document} {field : String × Document}
    (h : field ∈ optionalField name value write) : ∃ a ∈ value, field = (name, write a) := by
  cases value with
  | none => cases h
  | some a => exact ⟨a, rfl, List.mem_singleton.1 h⟩

theorem readEntry_eq {t : TaskEntry Float} {d : Document}
    (hs : Supplied gone place (entryFields t) entryDefaults)
    (h : Same (without gone place (.table (entryFields t))) d) (dialect : Dialect) :
    readEntry dialect d = .ok t := by
  obtain ⟨others, rfl, hk⟩ := h.exists_keeps
  have hfields : fieldsOf dialect ["name", "children", "initial_estimate", "alpha", "duration"]
      (.table others) = .ok others := by
    refine hk.fieldsOf_eq dialect ?_
    cases halpha : t.alpha <;> cases hduration : t.duration <;>
      simp [entryFields, optionalField, halpha, hduration]
  have hname : required others "name" asText = .ok t.name :=
    hk.required_eq .text hs (by simp [entryFields]) (by simp [entryDefaults]) fun d hd => by
      rw [Same.eq_of_isLeaf rfl hd]
      rfl
  have hparts : field others "children" [] (asList asText) = .ok t.parts :=
    hk.field_eq (fun texts => .array (texts.map .text)) hs (by simp [entryFields])
      (by simp [entryDefaults])
      (write_injective _ fun _ => asList_asText_eq (.refl _)) fun d hd => asList_asText_eq hd
  have hinitial : field others "initial_estimate" 0.0 asNumber = .ok t.initial :=
    field_number_eq hk hs (by simp [entryFields]) (by simp [entryDefaults])
  have halpha : field others "alpha" none (optional asNumber) = .ok t.alpha :=
    hk.optionalField_eq .number hs
      (by simp [entryFields, lookup?_append, lookup?_optionalField]) (by simp [entryDefaults])
      fun x _ d hd => by
        rw [Same.eq_of_isLeaf rfl hd]
        rfl
  have hduration : field others "duration" none (optional asWord) = .ok t.duration :=
    hk.optionalField_eq wordDocument hs
      (by simp [entryFields, lookup?_append, lookup?_optionalField]) (by simp [entryDefaults])
      fun w _ d hd => by rw [Same.eq_of_isLeaf rfl hd, optional_asWord_wordDocument]
  simp only [readEntry, hfields, Except.ok_bind, hname, hparts, hinitial, halpha, hduration]
  rfl

/-- Tasks are read one by one; `index` is the number of the first. -/
theorem forall₂_readEntry (dialect : Dialect) : ∀ {tasks : List (TaskEntry Float)} {index : Nat}
    {others : List Document},
    (∀ i t, tasks[i]? = some t →
      Supplied gone (place ++ [.item (index + i)]) (entryFields t) entryDefaults) →
    List.Forall₂ Same (itemsWithout gone place index (tasks.map entryDocument)) others →
    List.Forall₂ (fun d t => readEntry dialect d = .ok t) others tasks
  | [], _, _, _, h => by
    cases h
    exact .nil
  | t :: tasks, index, _, hs, h => by
    rw [List.map_cons, itemsWithout] at h
    cases h with
    | cons hd hrest =>
      refine .cons (readEntry_eq (hs 0 t rfl) hd dialect) (forall₂_readEntry dialect ?_ hrest)
      intro i u hu
      have := hs (i + 1) u hu
      rwa [show index + (i + 1) = index + 1 + i by omega] at this

theorem readTasks_eq {tasks : List (TaskEntry Float)} {d : Document}
    (hs : ∀ i t, tasks[i]? = some t →
      Supplied gone (place ++ [.item i]) (entryFields t) entryDefaults)
    (h : Same (without gone place (.array (tasks.map entryDocument))) d) (dialect : Dialect) :
    asList (readEntry dialect) d = .ok tasks := by
  rw [without] at h
  obtain ⟨others, rfl, hsame⟩ := h.exists_items
  rw [asList, Except.mapM_eq_ok_iff]
  exact forall₂_readEntry dialect (by simpa using hs) hsame

/-! ### Whole configurations -/

/-- What reading supplies for what is not given at a place: the value of the standard
configuration, or in a task the value that a task has by default. -/
def suppliedAt : List Step → Option Document
  | .field _ :: .item _ :: place => at? place (.table entryDefaults)
  | place => at? place (standard : Config Float).toDocument

/-- The fields at the places that are `gone` can be left out of a configuration: each that it
has is what reading supplies. -/
def CanOmit (c : Config Float) (gone : List Step → Bool) : Prop :=
  ∀ place d, gone place = true → at? place c.toDocument = some d → suppliedAt place = some d

theorem CanOmit.supplied (h : c.CanOmit gone)
    (hfields : at? place c.toDocument = some (.table fields))
    (hstandard : ∀ name, suppliedAt (place ++ [.field name]) = lookup? standardFields name) :
    Supplied gone place fields standardFields := by
  intro name d hgone hd
  rw [← hstandard]
  refine h _ d hgone ?_
  rw [at?_concat, hfields, Option.bind_some, at?_field, hd]

/-- The policies of a configuration. -/
def policies (c : Config Float) : Policies where
  learns := c.learns
  allocation := c.allocation
  focus := c.focus

/-- The sections of a configuration. -/
def sectionFields (c : Config Float) : List (String × Document) := [
  ("executive", .table (policyFields c.policies)),
  ("estimation", .table [("alpha", .number c.alpha)]),
  ("abort", .table (abortFields c.abort)),
  ("partitioning", .table (partitioningFields c.partitioning)),
  ("tab_switch", .table (curveFields c.stay)),
  ("tasks", .array (c.tasks.map entryDocument))]

theorem toFields_eq (c : Config Float) :
    c.toFields = optionalField "seed" c.seed wordDocument ++ c.sectionFields := rfl

/-- The value of a section. -/
theorem lookup?_toFields (c : Config Float) (h : name ≠ "seed") :
    lookup? c.toFields name = lookup? c.sectionFields name := by
  rw [toFields_eq, lookup?_append, lookup?_optionalField, if_neg h.symm, Option.none_or]

/-- What is left out of a section of the configuration. -/
theorem CanOmit.supplied_section (h : c.CanOmit gone)
    {part : Config Float → List (String × Document)}
    (hpart : ∀ c : Config Float, lookup? c.toFields name = some (.table (part c))) :
    Supplied gone [.field name] (part c) (part standard) := by
  refine h.supplied ?_ fun other => ?_
  · rw [toDocument, at?_field, hpart]
  · change at? ([.field name] ++ [.field other]) (standard : Config Float).toDocument = _
    rw [at?_concat, toDocument, at?_field, hpart, Option.bind_some, at?_field]

theorem CanOmit.supplied_curve (h : c.CanOmit gone) :
    Supplied gone [.field "partitioning", .field "sigmoid"] (curveFields c.partitioning.curve)
      (curveFields (standard : Config Float).partitioning.curve) := by
  have hat (c : Config Float) : at? [.field "partitioning", .field "sigmoid"] c.toDocument
      = some (.table (curveFields c.partitioning.curve)) := by
    change at? ([.field "partitioning"] ++ [.field "sigmoid"]) _ = _
    rw [at?_concat, toDocument, at?_field, lookup?_toFields c (by simp)]
    simp [at?_field, sectionFields, partitioningFields]
  refine h.supplied (hat c) fun other => ?_
  change at? ([.field "partitioning", .field "sigmoid"] ++ [.field other])
    (standard : Config Float).toDocument = _
  rw [at?_concat, hat, Option.bind_some, at?_field]

theorem CanOmit.supplied_entry (h : c.CanOmit gone) {i : Nat} {t : TaskEntry Float}
    (ht : c.tasks[i]? = some t) :
    Supplied gone [.field "tasks", .item i] (entryFields t) entryDefaults := by
  refine h.supplied ?_ fun other => at?_field other entryDefaults
  change at? ([.field "tasks"] ++ [.item i]) _ = _
  rw [at?_concat, toDocument, at?_field, lookup?_toFields c (by simp)]
  simp [at?, sectionFields, ht, entryDocument_eq]

theorem supplied_toFields (h : c.CanOmit gone) :
    Supplied gone [] c.toFields (standard : Config Float).toFields :=
  h.supplied rfl fun other => at?_field other _

/-- A section is read as the part of the configuration that it was written for. -/
theorem CanOmit.field_section_eq (h : c.CanOmit gone) (hk : Keeps gone [] c.toFields others)
    (part : Config Float → α) (partFields : α → List (String × Document))
    {read : Document → Except SchemaError α}
    (hpart : ∀ c : Config Float, lookup? c.toFields name = some (.table (partFields (part c))))
    (hread : ∀ {gone : List Step → Bool} {place : List Step} {v : α} {d : Document},
      Supplied gone place (partFields v) (partFields (part standard)) →
        Same (without gone place (.table (partFields v))) d → read d = .ok v) :
    field others name (part standard) read = .ok (part c) :=
  hk.field_eq (fun v => .table (partFields v)) (supplied_toFields h) (hpart c) (hpart standard)
    (write_injective _ fun _ => hread (.nothing _ _ _) (.refl _))
    fun _ hd => hread (h.supplied_section hpart) hd

theorem CanOmit.field_partitioning_eq (h : c.CanOmit gone) (hk : Keeps gone [] c.toFields others)
    (dialect : Dialect) :
    field others "partitioning" (standard : Config Float).partitioning (readPartitioning dialect)
      = .ok c.partitioning := by
  have hpart (c : Config Float) : lookup? c.toFields "partitioning"
      = some (.table (partitioningFields c.partitioning)) := by
    simp [lookup?_toFields, sectionFields]
  exact hk.field_eq (fun p => .table (partitioningFields p)) (supplied_toFields h) (hpart c)
    (hpart standard)
    (write_injective _ fun _ =>
      readPartitioning_eq (.nothing _ _ _) (.nothing _ _ _) (.refl _) dialect)
    fun d hd => readPartitioning_eq (h.supplied_section hpart) h.supplied_curve hd dialect

theorem CanOmit.field_tasks_eq (h : c.CanOmit gone) (hk : Keeps gone [] c.toFields others)
    (dialect : Dialect) :
    field others "tasks" (standard : Config Float).tasks (asList (readEntry dialect))
      = .ok c.tasks := by
  have hpart (c : Config Float) : lookup? c.toFields "tasks"
      = some (.array (c.tasks.map entryDocument)) := by simp [lookup?_toFields, sectionFields]
  exact hk.field_eq (fun tasks => .array (tasks.map entryDocument)) (supplied_toFields h) (hpart c)
    (hpart standard)
    (write_injective _ fun _ => readTasks_eq (fun _ _ _ => .nothing _ _ _) (.refl _) dialect)
    fun d hd => readTasks_eq (fun _ _ ht => h.supplied_entry ht) hd dialect

theorem CanOmit.field_seed_eq (h : c.CanOmit gone) (hk : Keeps gone [] c.toFields others) :
    field others "seed" (standard : Config Float).seed (optional asWord) = .ok c.seed := by
  refine hk.optionalField_eq wordDocument (supplied_toFields h) ?_ rfl fun w _ d hd => ?_
  · rw [toFields_eq, lookup?_append, lookup?_optionalField, if_pos rfl]
    simp [sectionFields]
  · rw [Same.eq_of_isLeaf rfl hd, optional_asWord_wordDocument]

/-- A configuration is read from its document, in whatever order the fields of the tables
come and whatever is left out that reading supplies. -/
theorem ofDocument_eq (h : c.CanOmit gone) {d : Document}
    (hd : Same (without gone [] c.toDocument) d) (dialect : Dialect) :
    ofDocument dialect d = .ok c := by
  rw [toDocument] at hd
  obtain ⟨others, rfl, hk⟩ := hd.exists_keeps
  have hfields : fieldsOf dialect partNames (.table others) = .ok others := by
    refine hk.fieldsOf_eq dialect ?_
    cases hseed : c.seed <;> simp [toFields, optionalField, hseed, partNames]
  have hpolicies : field others "executive" standardPolicies (readPolicies dialect)
      = .ok c.policies :=
    h.field_section_eq hk policies policyFields
      (fun _ => by simp [lookup?_toFields, sectionFields])
      fun hs hd => readPolicies_eq hs hd dialect
  have halpha : field others "estimation" (standard : Config Float).alpha (readAlpha dialect)
      = .ok c.alpha :=
    h.field_section_eq hk Config.alpha (fun x => [("alpha", .number x)])
      (fun _ => by simp [lookup?_toFields, sectionFields]) fun hs hd => readAlpha_eq hs hd dialect
  have habort : field others "abort" (standard : Config Float).abort (readAbort dialect)
      = .ok c.abort :=
    h.field_section_eq hk abort abortFields
      (fun _ => by simp [lookup?_toFields, sectionFields]) fun hs hd => readAbort_eq hs hd dialect
  have hstay : field others "tab_switch" (standard : Config Float).stay
      (readCurve dialect Logistic.standard) = .ok c.stay :=
    h.field_section_eq hk stay curveFields
      (fun _ => by simp [lookup?_toFields, sectionFields]) fun hs hd => readCurve_eq hs hd dialect
  simp only [ofDocument, hfields, Except.ok_bind, h.field_seed_eq hk, hpolicies, halpha, habort,
    h.field_partitioning_eq hk dialect, hstay, h.field_tasks_eq hk dialect]
  rfl

/-! ### Texts -/

open Toml (Simple Inline Outlined)

theorem outlined_of_inline {n : Nat} : ∀ {fields : List (String × Document)},
    (fields.map (·.1)).Nodup → (∀ field ∈ fields, Inline field.2) → Outlined n fields
  | [], _, _ => .nil
  | (_, _) :: _, hnodup, h =>
    .inline (List.nodup_cons.1 hnodup).1 (h _ List.mem_cons_self)
      (outlined_of_inline (List.nodup_cons.1 hnodup).2 fun f hf => h f (List.mem_cons_of_mem _ hf))

theorem inline_curveFields (curve : Logistic Float) :
    ∀ field ∈ curveFields curve, Inline field.2 := by
  simp only [curveFields, List.forall_mem_cons]
  exact ⟨.single (.number _), .single (.number _), .single (.number _), by simp⟩

theorem outlined_curveFields {n : Nat} (curve : Logistic Float) : Outlined n (curveFields curve) :=
  outlined_of_inline (by simp [curveFields]) (inline_curveFields curve)

theorem outlined_entryFields {n : Nat} (t : TaskEntry Float) : Outlined n (entryFields t) := by
  have hparts : Inline (.array (t.parts.map .text)) :=
    .list (List.forall_mem_map.2 fun s _ => .text s)
  have hfields : ∀ field ∈ [("name", Document.text t.name),
      ("children", .array (t.parts.map .text)), ("initial_estimate", .number t.initial)],
      Inline field.2 := by
    simp only [List.forall_mem_cons]
    exact ⟨.single (.text _), hparts, .single (.number _), by simp⟩
  refine outlined_of_inline ?_ fun field hfield => ?_
  · cases ha : t.alpha <;> cases hd : t.duration <;> simp [entryFields, optionalField, ha, hd]
  · rw [entryFields, List.mem_append, List.mem_append] at hfield
    obtain (hfield | hfield) | hfield := hfield
    · exact hfields field hfield
    · obtain ⟨x, -, rfl⟩ := mem_optionalField hfield
      exact .single (.number x)
    · obtain ⟨w, -, rfl⟩ := mem_optionalField hfield
      exact .single (.integer _)

/-- The document of a configuration can be written. -/
theorem outlined_toFields (c : Config Float) : Outlined 2 c.toFields := by
  have hpolicies : Outlined 1 (policyFields c.policies) := by
    refine outlined_of_inline (by simp [policyFields]) ?_
    simp only [policyFields, List.forall_mem_cons]
    exact ⟨.single (.flag _), .single (.text _), .single (.text _), by simp⟩
  have hestimation : Outlined 1 [("alpha", Document.number c.alpha)] :=
    .inline (by simp) (.single (.number _)) .nil
  have habortFields : Outlined 1 (abortFields c.abort) := by
    refine outlined_of_inline (by simp [abortFields, curveFields]) ?_
    rw [abortFields, List.forall_mem_append, List.forall_mem_singleton]
    exact ⟨inline_curveFields _, .single (.number _)⟩
  have hpartitioning : Outlined 1 (partitioningFields c.partitioning) :=
    .table (by simp) (outlined_curveFields _) <| .inline (by simp) (.single (.flag _)) <|
      .inline (by simp) (.single (.flag _)) <| .inline (by simp) (.single (.number _)) .nil
  have htaskList : Outlined 2 [("tasks", Document.array (c.tasks.map entryDocument))] := by
    by_cases hnil : c.tasks = []
    · rw [hnil]
      exact .inline (by simp) (.list (by simp)) .nil
    · have hitems : c.tasks.map entryDocument = (c.tasks.map entryFields).map .table := by
        rw [List.map_map]
        rfl
      rw [hitems]
      exact .tables (by simp) (by simpa using hnil)
        (List.forall_mem_map.2 fun t _ => outlined_entryFields t) .nil
  have hsections : Outlined 2 c.sectionFields :=
    .table (by simp) hpolicies <| .table (by simp) hestimation <| .table (by simp) habortFields <|
      .table (by simp) hpartitioning <| .table (by simp) (outlined_curveFields _) htaskList
  rw [toFields_eq]
  cases hseed : c.seed with
  | none => exact hsections
  | some w => exact .inline (by simp [sectionFields]) (.single (.integer _)) hsections

variable {ε : Type} {format : TextFormat ε} {text : String}

/-- A text is read as a configuration if what it says is what the configuration is written as,
with or without the fields that reading supplies. -/
theorem ofText_eq (h : c.CanOmit gone) (hread : format.read text = .ok fields)
    (hsame : Same (without gone [] c.toDocument) (.table fields)) :
    ofText format text = .ok c := by
  rw [ofText, hread]
  change (ofDocument format.dialect (.table fields)).mapError ConfigTextError.schema = _
  rw [ofDocument_eq h hsame]
  rfl

/-- The text of a configuration without the fields that are gone. -/
def toTextWithout (format : TextFormat ε) (c : Config Float) (gone : List Step → Bool) :
    Except ε String :=
  format.write (fieldsWithout gone [] c.toFields)

theorem toTextWithout_nothing (format : TextFormat ε) (c : Config Float) :
    c.toTextWithout format (fun _ => false) = c.toText format := by
  rw [toTextWithout, fieldsWithout_nothing, toText]

theorem canOmit_nothing (c : Config Float) : c.CanOmit fun _ => false := fun _ _ h => by cases h

theorem ofText_toTextWithout (hformat : format.Faithful 2) (h : c.CanOmit gone)
    (htext : c.toTextWithout format gone = .ok text) : ofText format text = .ok c := by
  obtain ⟨others, hread, hsame⟩ := hformat _ _ ((outlined_toFields c).without []) htext
  exact ofText_eq h hread hsame

/-- A configuration is read back from its text in TOML. -/
theorem ofToml_toToml (c : Config Float) : ofToml c.toToml = .ok c := by
  have htext : c.toTextWithout Toml.format (fun _ => false) = .ok c.toToml := by
    rw [toTextWithout_nothing]
    rfl
  exact ofText_toTextWithout (Toml.faithful_format (by decide)) c.canOmit_nothing htext

/-- In a faithful notation a configuration is read back from the text that it is written as;
from the text without any of the fields that reading supplies, and from every other text that
says the same; and what has been read is written as the text that it was read from. -/
theorem ofText_toText (hformat : format.Faithful 2) (c : Config Float) :
    (∀ text, c.toText format = .ok text → ofText format text = .ok c) ∧
    (∀ gone text, c.CanOmit gone → c.toTextWithout format gone = .ok text →
      ofText format text = .ok c) ∧
    (∀ gone text fields, c.CanOmit gone → format.read text = .ok fields →
      Same (without gone [] c.toDocument) (.table fields) → ofText format text = .ok c) ∧
    (∀ text, c.toText format = .ok text →
      ∃ e, ofText format text = .ok e ∧ e.toText format = .ok text) := by
  have hwhole : ∀ text, c.toText format = .ok text → ofText format text = .ok c := by
    intro text htext
    rw [← toTextWithout_nothing] at htext
    exact ofText_toTextWithout hformat c.canOmit_nothing htext
  exact ⟨hwhole, fun gone text h => ofText_toTextWithout hformat h,
    fun gone text fields h hread hsame => ofText_eq h hread hsame,
    fun text htext => ⟨c, hwhole text htext, htext⟩⟩

/-- A configuration with one task, much of which is what reading supplies. -/
def oneTask : Config Float where
  seed := some 7
  learns := true
  allocation := .cheapest
  focus := .root
  alpha := 0.8
  abort := AbortCurve.standard
  partitioning := Partitioning.standard
  stay := { reactivity := 0.1, offset := 1.0, gamma := 1.0 }
  tasks := [{ name := "fetch 'it'", parts := [], initial := 0.0, alpha := some (0.0 / 0.0)
              duration := none }]

/-- Some of the places of `oneTask` with values that reading supplies. -/
def oneTaskGone (place : List Step) : Bool :=
  [[Step.field "executive", .field "tab_init_policy"], [.field "abort"],
    [.field "partitioning", .field "sigmoid"], [.field "tab_switch", .field "gamma"],
    [.field "tasks", .item 0, .field "children"],
    [.field "tasks", .item 0, .field "initial_estimate"]].contains place

theorem canOmit_oneTask : oneTask.CanOmit oneTaskGone := by
  intro place d hgone hat
  simp only [oneTaskGone, List.contains_iff_mem, List.mem_cons, List.not_mem_nil, or_false] at hgone
  obtain rfl | rfl | rfl | rfl | rfl | rfl := hgone
  all_goals
    rw [← hat]
    simp [suppliedAt, at?, toDocument, toFields, optionalField, oneTask, standard, entryDefaults,
      entryDocument, curveFields, Partitioning.standard, Logistic.standard]

theorem ofText_toText_one_task :
    Toml.format.Faithful 2 ∧ ofText Toml.format oneTask.toToml = .ok oneTask ∧
      ∃ text, oneTask.toTextWithout Toml.format oneTaskGone = .ok text ∧
        ofText Toml.format text = .ok oneTask := by
  have hformat : Toml.format.Faithful 2 := Toml.faithful_format (by decide)
  obtain ⟨hwhole, hpart, -⟩ := ofText_toText hformat oneTask
  exact ⟨hformat, hwhole _ rfl, _, rfl, hpart oneTaskGone _ canOmit_oneTask rfl⟩

end Config

end TaskAllocation
