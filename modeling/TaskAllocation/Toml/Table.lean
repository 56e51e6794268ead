import TaskAllocation.Document
import TaskAllocation.Document.Scanner

/-!
# Putting TOML tables together

A table of TOML may be spread over the text: a header opens it, dotted names reach into
it, and headers of its subtables may come before or after its own.  What may be added
later depends on how a table came about, so that is kept until the text is read.

## Main definitions

* `Toml.Node` — a value that is still being put together.
* `Toml.alter` — change the table at the end of a path.
* `Toml.insert` — put a value under a dotted name.
* `Toml.Section`, `Toml.attach` — a header with what stands under it.
* `Toml.assemble` — the whole table.
-/

namespace TaskAllocation.Toml

/-- How a table came about. -/
inductive Origin where
  /-- It has a header of its own, or is the whole document. -/
  | header
  /-- A longer header runs through it. -/
  | implied
  /-- A dotted name runs through it. -/
  | dotted
  deriving Repr, DecidableEq, Inhabited

/-- A value that is still being put together. -/
inductive Node where
  /-- A value that is complete. -/
  | value (d : Document)
  /-- A table. -/
  | table (origin : Origin) (fields : List (String × Node))
  /-- The tables under one header that is repeated. -/
  | tables (items : List (List (String × Node)))
  deriving Inhabited

/-- The fields of a table that is being put together. -/
abbrev Fields := List (String × Node)

/-! ### Fields -/

/-- The field of a given name. -/
def Fields.get? (fields : Fields) (name : String) : Option Node :=
  (fields.find? (·.1 == name)).map (·.2)

/-- Give a field a value; a new field goes to the end. -/
def Fields.set (fields : Fields) (name : String) (node : Node) : Fields :=
  match fields with
  | [] => [(name, node)]
  | (other, old) :: rest =>
    if other = name then (name, node) :: rest else (other, old) :: Fields.set rest name node

/-! ### Changing tables -/

/-- Change the table at the end of a path, making the tables on the way as needed.  Of
repeated tables the last one is meant.  A dotted name cannot run through a table that has
a header of its own. -/
def alter (dotted : Bool) (change : Origin → Fields → Except ReadError Fields) :
    (path : List String) → Origin → Fields → Except ReadError Fields
  | [], origin, fields => change origin fields
  | name :: path, _, fields =>
    match fields.get? name with
    | none => do
      let origin := if dotted then Origin.dotted else .implied
      return fields.set name (.table origin (← alter dotted change path origin []))
    | some (.table origin inner) =>
      if dotted ∧ origin = .header then .error (.duplicate name)
      else do return fields.set name (.table origin (← alter dotted change path origin inner))
    | some (.tables items) =>
      match items.getLast? with
      | some last => do
        return fields.set name
          (.tables (items.dropLast ++ [← alter dotted change path .header last]))
      | none => .error (.closed name)
    | some (.value _) => .error (.closed name)

/-- Put a value under a name that is new in the table at the end of a path of dotted
names.  That table must have come about through dotted names alone. -/
def insert (fields : Fields) (path : List String) (name : String) (d : Document) :
    Except ReadError Fields :=
  alter true (fun origin inner =>
    if (origin = .dotted) ↔ path = [] then .error (.duplicate name)
    else if (inner.get? name).isSome then .error (.duplicate name)
    else .ok (inner ++ [(name, .value d)])) path .header fields

/-! ### Sections -/

/-- A line that gives a name a value. -/
structure Entry where
  /-- The names before the last dot. -/
  path : List String
  /-- The last name. -/
  name : String
  /-- The value. -/
  value : Document
  deriving Inhabited

/-- A header with the lines under it. -/
structure Section where
  /-- The names before the last dot. -/
  path : List String
  /-- The last name. -/
  name : String
  /-- Whether the header may be repeated. -/
  repeated : Bool
  /-- The lines under it. -/
  entries : List Entry
  deriving Inhabited

/-- Put entries into a table. -/
def insertAll (fields : Fields) (entries : List Entry) : Except ReadError Fields :=
  entries.foldlM (fun fields e => insert fields e.path e.name e.value) fields

/-- Put the table of a section where its header says.  A table that longer headers have
run through is completed; every other name that is taken is refused. -/
def attach (fields : Fields) (s : Section) : Except ReadError Fields :=
  alter false (fun _ inner =>
    if s.repeated then
      match inner.get? s.name with
      | none => do return inner.set s.name (.tables [← insertAll [] s.entries])
      | some (.tables items) => do
        return inner.set s.name (.tables (items ++ [← insertAll [] s.entries]))
      | some _ => .error (.duplicate s.name)
    else
      match inner.get? s.name with
      | none => do return inner.set s.name (.table .header (← insertAll [] s.entries))
      | some (.table .implied started) => do
        return inner.set s.name (.table .header (← insertAll started s.entries))
      | some _ => .error (.duplicate s.name)) s.path .header fields

/-! ### Completed tables -/

mutual

/-- The finished value. -/
def Node.toDocument : Node → Document
  | .value d => d
  | .table _ fields => .table (finishFields fields)
  | .tables items => .array (finishTables items)

/-- The finished fields of a table. -/
def finishFields : List (String × Node) → List (String × Document)
  | [] => []
  | (name, node) :: rest => (name, node.toDocument) :: finishFields rest

/-- The finished tables under a repeated header. -/
def finishTables : List (List (String × Node)) → List Document
  | [] => []
  | fields :: rest => .table (finishFields fields) :: finishTables rest

end

/-- The table of a list of entries alone. -/
def tableOfEntries (entries : List Entry) : Except ReadError Document :=
  (insertAll [] entries).map fun fields => .table (finishFields fields)

/-- The table of entries without a header and the sections that follow them. -/
def assemble (entries : List Entry) (sections : List Section) :
    Except ReadError (List (String × Document)) := do
  let fields ← insertAll [] entries
  return finishFields (← sections.foldlM attach fields)

end TaskAllocation.Toml
