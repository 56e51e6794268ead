import Mathlib.Data.List.Forall2
import Mathlib.Data.Option.Basic
import TaskAllocation.Document.Schema

/-!
# Leaving fields out of documents

A document stands for a structure by the values under its names, so that the order of the
fields does not matter, and a field may be left out where its value is the one that reading
supplies.

## Main definitions

* `Document.Step`, `Document.at?` — places in a document, and what is there.
* `Document.without` — a document without the fields at given places.
* `Document.Same` — the same values under the same names.
* `Document.Supplied` — what is left out of a table is what is supplied instead.

## Main results

* `Document.Keeps.fieldsOf_eq` — leaving fields out brings in no unknown name.
* `Document.Keeps.field_eq`, `Document.Keeps.optionalField_eq`,
  `Document.Keeps.required_eq` — the three ways in which a field is read give the value that
  was written, whether the field is there or what is supplied for it takes its place.
-/

namespace TaskAllocation.Document

variable {α : Type}

/-! ### Places -/

/-- One step into a document. -/
inductive Step where
  /-- To the value of a field. -/
  | field (name : String)
  /-- To an item of a list. -/
  | item (index : Nat)
  deriving Repr, DecidableEq, Inhabited

/-- What is at a place of a document. -/
def at? : List Step → Document → Option Document
  | [], d => some d
  | .field name :: place, .table fields => (lookup? fields name).bind (at? place)
  | .item index :: place, .array items => items[index]?.bind (at? place)
  | _, _ => none

mutual

/-- A document without the fields at the places that are `gone`; `place` is its own. -/
def without (gone : List Step → Bool) (place : List Step) : Document → Document
  | .table fields => .table (fieldsWithout gone place fields)
  | .array items => .array (itemsWithout gone place 0 items)
  | d => d

/-- The fields of a table without those that are gone. -/
def fieldsWithout (gone : List Step → Bool) (place : List Step) :
    List (String × Document) → List (String × Document)
  | [] => []
  | (name, d) :: rest =>
    if gone (place ++ [.field name]) then fieldsWithout gone place rest
    else (name, without gone (place ++ [.field name]) d) :: fieldsWithout gone place rest

/-- The items of a list, the first of which has the number `index`, without the fields that
are gone. -/
def itemsWithout (gone : List Step → Bool) (place : List Step) (index : Nat) :
    List Document → List Document
  | [] => []
  | d :: rest =>
    without gone (place ++ [.item index]) d :: itemsWithout gone place (index + 1) rest

end

/-! ### Documents that say the same -/

/-- The same values under the same names, whatever the order of the fields. -/
inductive Same : Document → Document → Prop where
  /-- Nothing differs. -/
  | refl (d : Document) : Same d d
  /-- Lists of values that are the same. -/
  | array {items others : List Document} (h : List.Forall₂ Same items others) :
      Same (.array items) (.array others)
  /-- Tables with the same value under every name. -/
  | table {fields others : List (String × Document)}
      (h : ∀ name, Option.Rel Same (lookup? fields name) (lookup? others name)) :
      Same (.table fields) (.table others)

mutual

/-- Where nothing is gone, everything is left. -/
theorem without_nothing (place : List Step) : ∀ d : Document, without (fun _ => false) place d = d
  | .table fields => by rw [without, fieldsWithout_nothing]
  | .array items => by rw [without, itemsWithout_nothing]
  | .null | .flag _ | .integer _ | .number _ | .numeral _ | .text _ | .moment _ => rfl

theorem fieldsWithout_nothing (place : List Step) : ∀ fields : List (String × Document),
    fieldsWithout (fun _ => false) place fields = fields
  | [] => rfl
  | (name, d) :: rest => by
    rw [fieldsWithout, if_neg Bool.false_ne_true, without_nothing, fieldsWithout_nothing]

theorem itemsWithout_nothing (place : List Step) (index : Nat) : ∀ items : List Document,
    itemsWithout (fun _ => false) place index items = items
  | [] => rfl
  | d :: rest => by rw [itemsWithout, without_nothing, itemsWithout_nothing]

end

/-- Whether a value has no others in it. -/
def isLeaf : Document → Bool
  | .table _ | .array _ => false
  | _ => true

/-- There is nothing to leave out of a value with no others in it. -/
theorem without_of_isLeaf {d : Document} (hd : d.isLeaf = true) (gone : List Step → Bool)
    (place : List Step) : without gone place d = d := by
  cases d with
  | table fields => cases hd
  | array items => cases hd
  | _ => rfl

theorem itemsWithout_eq_self {gone : List Step → Bool} : ∀ {items : List Document}
    (place : List Step) (index : Nat), (∀ d ∈ items, ∀ place, without gone place d = d) →
      itemsWithout gone place index items = items
  | [], _, _, _ => rfl
  | d :: items, place, index, h => by
    rw [itemsWithout, h d List.mem_cons_self,
      itemsWithout_eq_self place (index + 1) fun e he => h e (List.mem_cons_of_mem _ he)]

theorem Same.eq_of_isLeaf {gone : List Step → Bool} {place : List Step} {d other : Document}
    (hd : d.isLeaf = true) (h : Same (without gone place d) other) : other = d := by
  rw [without_of_isLeaf hd] at h
  cases h with
  | refl => rfl
  | array | table => cases hd

theorem Same.exists_fields {fields : List (String × Document)} {d : Document}
    (h : Same (.table fields) d) : ∃ others, d = .table others ∧
      ∀ name, Option.Rel Same (lookup? fields name) (lookup? others name) := by
  cases h with
  | refl =>
    refine ⟨fields, rfl, fun name => ?_⟩
    cases lookup? fields name with
    | none => exact .none
    | some d => exact .some (.refl d)
  | table h => exact ⟨_, rfl, h⟩

theorem Same.exists_items {items : List Document} {d : Document} (h : Same (.array items) d) :
    ∃ others, d = .array others ∧ List.Forall₂ Same items others := by
  cases h with
  | refl => exact ⟨items, rfl, List.forall₂_same.2 fun d _ => .refl d⟩
  | array h => exact ⟨_, rfl, h⟩

/-! ### Looking for what is left -/

variable {gone : List Step → Bool} {place : List Step}
  {fields standard others : List (String × Document)} {name : String}

@[simp]
theorem lookup?_nil (name : String) : lookup? [] name = none := rfl

@[simp]
theorem lookup?_cons (field : String × Document) (rest : List (String × Document))
    (name : String) :
    lookup? (field :: rest) name = if field.1 = name then some field.2 else lookup? rest name := by
  by_cases h : field.1 = name <;> simp [lookup?, h]

theorem lookup?_eq_none : lookup? fields name = none ↔ name ∉ fields.map (·.1) := by
  induction fields with
  | nil => simp
  | cons field rest ih =>
    rw [lookup?_cons]
    by_cases h : field.1 = name
    · simp [h]
    · simp [h, ih, Ne.symm h]

theorem lookup?_append (fields others : List (String × Document)) (name : String) :
    lookup? (fields ++ others) name = (lookup? fields name).or (lookup? others name) := by
  induction fields with
  | nil => simp
  | cons field rest ih =>
    rw [List.cons_append, lookup?_cons, lookup?_cons, ih]
    split <;> simp

/-- A field that is not gone still has its value, except for what is gone within it. -/
theorem lookup?_fieldsWithout : ∀ fields : List (String × Document),
    lookup? (fieldsWithout gone place fields) name =
      if gone (place ++ [.field name]) then none
      else (lookup? fields name).map (without gone (place ++ [.field name]))
  | [] => by simp [fieldsWithout]
  | (other, d) :: rest => by
    have ih := lookup?_fieldsWithout rest
    rw [fieldsWithout, lookup?_cons]
    by_cases hname : other = name
    · subst hname
      by_cases hgone : gone (place ++ [.field other]) = true
      · rw [if_pos hgone, ih, if_pos hgone, if_pos hgone]
      · simp [hgone, lookup?_cons]
    · by_cases hother : gone (place ++ [.field other]) = true
      · rw [if_pos hother, ih, if_neg hname]
      · rw [if_neg hother, lookup?_cons, if_neg hname, if_neg hname, ih]

/-- What is a step further. -/
theorem at?_concat (step : Step) : ∀ (place : List Step) (d : Document),
    at? (place ++ [step]) d = (at? place d).bind (at? [step])
  | [], d => rfl
  | .field other :: place, .table fields => by
    have ih := at?_concat step place
    simp only [List.cons_append, at?, Option.bind_assoc, funext ih]
  | .item index :: place, .array items => by
    have ih := at?_concat step place
    simp only [List.cons_append, at?, Option.bind_assoc, funext ih]
  | .field _ :: place, .null | .field _ :: place, .flag _ | .field _ :: place, .integer _
  | .field _ :: place, .number _ | .field _ :: place, .numeral _ | .field _ :: place, .text _
  | .field _ :: place, .moment _ | .field _ :: place, .array _
  | .item _ :: place, .null | .item _ :: place, .flag _ | .item _ :: place, .integer _
  | .item _ :: place, .number _ | .item _ :: place, .numeral _ | .item _ :: place, .text _
  | .item _ :: place, .moment _ | .item _ :: place, .table _ => rfl

theorem at?_field (name : String) (fields : List (String × Document)) :
    at? [.field name] (.table fields) = lookup? fields name := by
  cases h : lookup? fields name <;> simp [at?, h]

/-! ### Reading what is left -/

/-- The fields that are gone have the values that are supplied for them. -/
def Supplied (gone : List Step → Bool) (place : List Step)
    (fields standard : List (String × Document)) : Prop :=
  ∀ name d, gone (place ++ [.field name]) = true → lookup? fields name = some d →
    lookup? standard name = some d

/-- A table with all the fields that are not gone. -/
def Keeps (gone : List Step → Bool) (place : List Step)
    (fields others : List (String × Document)) : Prop :=
  ∀ name, Option.Rel Same (lookup? (fieldsWithout gone place fields) name) (lookup? others name)

theorem Same.exists_keeps {d : Document}
    (h : Same (without gone place (.table fields)) d) :
    ∃ others, d = .table others ∧ Keeps gone place fields others := by
  rw [without] at h
  exact h.exists_fields

/-- A field that is gone cannot be found, and one that is left has its value. -/
theorem Keeps.lookup?_cases (h : Keeps gone place fields others) {d : Document}
    (hd : lookup? fields name = some d) :
    (gone (place ++ [.field name]) = true ∧ lookup? others name = none) ∨
      ∃ d', lookup? others name = some d' ∧ Same (without gone (place ++ [.field name]) d) d' := by
  have hrel := h name
  rw [lookup?_fieldsWithout, hd] at hrel
  generalize lookup? others name = found at hrel ⊢
  by_cases hgone : gone (place ++ [.field name]) = true
  · rw [if_pos hgone] at hrel
    cases hrel
    exact .inl ⟨hgone, rfl⟩
  · rw [if_neg hgone, Option.map_some] at hrel
    cases hrel with
    | some hsame => exact .inr ⟨_, rfl, hsame⟩

theorem Keeps.lookup?_eq_none (h : Keeps gone place fields others)
    (hname : lookup? fields name = none) : lookup? others name = none := by
  have hrel := h name
  rw [lookup?_fieldsWithout, hname] at hrel
  generalize lookup? others name = found at hrel ⊢
  split at hrel <;> (cases hrel; rfl)

/-- A table with no other names than those of a structure is read field by field. -/
theorem Keeps.fieldsOf_eq (h : Keeps gone place fields others) (dialect : Dialect)
    {names : List String} (hnames : ∀ name ∈ fields.map (·.1), name ∈ names) :
    fieldsOf dialect names (.table others) = .ok others := by
  have hall : (others.all fun field => names.contains field.1 || field.2.isBounded) = true := by
    refine List.all_eq_true.2 fun field hfield => ?_
    have hmem : field.1 ∈ fields.map (·.1) := by
      by_contra hno
      have hnone := h.lookup?_eq_none (Document.lookup?_eq_none.2 hno)
      exact Document.lookup?_eq_none.1 hnone (List.mem_map_of_mem hfield)
    simp [hnames _ hmem]
  rw [fieldsOf]
  exact if_pos hall

section Field

variable {read : Document → Except SchemaError α} (write : α → Document)

/-- A field that may be left out if it has its default. -/
theorem Keeps.field_eq (h : Keeps gone place fields others)
    (hs : Supplied gone place fields standard) {v default : α}
    (hfield : lookup? fields name = some (write v))
    (hdefault : lookup? standard name = some (write default))
    (hinj : Function.Injective write)
    (hread : ∀ d, Same (without gone (place ++ [.field name]) (write v)) d → read d = .ok v) :
    field others name default read = .ok v := by
  obtain ⟨hgone, hnone⟩ | ⟨d, hd, hsame⟩ := h.lookup?_cases hfield
  · have hv : default = v := hinj (Option.some.inj (hdefault.symm.trans (hs _ _ hgone hfield)))
    simp only [field, hnone, hv]
  · simp only [field, hd, hread d hsame]

/-- A field that is only there if there is a value. -/
theorem Keeps.optionalField_eq (h : Keeps gone place fields others)
    (hs : Supplied gone place fields standard) {value : Option α}
    (hfield : lookup? fields name = value.map write) (hdefault : lookup? standard name = none)
    (hread : ∀ v ∈ value, ∀ d, Same (without gone (place ++ [.field name]) (write v)) d →
      optional read d = .ok (some v)) :
    field others name none (optional read) = .ok value := by
  cases value with
  | none => simp only [field, h.lookup?_eq_none hfield]
  | some v =>
    obtain ⟨hgone, -⟩ | ⟨d, hd, hsame⟩ := h.lookup?_cases hfield
    · rw [hs _ _ hgone hfield] at hdefault
      cases hdefault
    · simp only [field, hd, hread v rfl d hsame]

/-- A field that has no default. -/
theorem Keeps.required_eq (h : Keeps gone place fields others)
    (hs : Supplied gone place fields standard) {v : α}
    (hfield : lookup? fields name = some (write v)) (hdefault : lookup? standard name = none)
    (hread : ∀ d, Same (without gone (place ++ [.field name]) (write v)) d → read d = .ok v) :
    required others name read = .ok v := by
  obtain ⟨hgone, -⟩ | ⟨d, hd, hsame⟩ := h.lookup?_cases hfield
  · rw [hs _ _ hgone hfield] at hdefault
    cases hdefault
  · simp only [required, hd, hread d hsame]

/-- Values that are read back where nothing is gone are written differently. -/
theorem write_injective (h : ∀ v, read (without (fun _ => false) [] (write v)) = .ok v) :
    Function.Injective write := by
  intro a b hab
  have hb := h a
  rw [hab, h b] at hb
  exact (Except.ok.inj hb).symm

theorem Supplied.nothing (place : List Step) (fields standard : List (String × Document)) :
    Supplied (fun _ => false) place fields standard := fun _ _ h => by cases h

end Field

end TaskAllocation.Document
