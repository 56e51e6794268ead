import TaskAllocation.Document

/-!
# Reading values out of documents

A structure is read from a table with a field for each of its parts, or from a list of
the parts in their order.  Parts that are not given take a default, and a value of the
wrong kind is an error.  Fields that mean nothing are skipped, but the numbers in them
have to be in bounds; superfluous items of a list are not looked at.

Notations differ in two points, which make up a `Dialect`: what stands for an empty value,
and whether a list may be longer than the structure has parts.  A `TextFormat` is a dialect
with a way to write tables as texts and to read them.

## Main definitions

* `SchemaError`, `Dialect`, `TextFormat`.
* `Document.asFlag`, `asNumber`, `asWord`, `asText`, `asList`, `optional` — single values.
* `Document.asChoice` — one of several names.
* `Document.fieldsOf`, `Document.field`, `Document.required` — the parts of a structure.
-/

namespace TaskAllocation

/-- Why a document is not what it should be. -/
inductive SchemaError where
  /-- A value is of another kind than expected. -/
  | mismatch (expected : String)
  /-- A part that has to be given is not. -/
  | missing (field : String)
  deriving Repr, DecidableEq, Inhabited

/-- The wording of an error. -/
def SchemaError.message : SchemaError → String
  | .mismatch expected => s!"expected {expected}"
  | .missing field => s!"missing field {field}"

/-- What is peculiar to a notation. -/
structure Dialect where
  /-- Whether a value stands for an empty one. -/
  isEmpty : Document → Bool
  /-- Whether a list may be longer than the structure that it gives has parts. -/
  surplus : Bool

/-- A notation for tables.  Neither writing nor reading needs to succeed. -/
structure TextFormat (ε : Type) where
  /-- What is peculiar to the notation. -/
  dialect : Dialect
  /-- Write a table. -/
  write : List (String × Document) → Except ε String
  /-- Read a text. -/
  read : String → Except ε (List (String × Document))

namespace Document

variable {α : Type}

/-! ### Single values -/

/-- A truth value. -/
def asFlag : Document → Except SchemaError Bool
  | .flag b => .ok b
  | _ => .error (.mismatch "a truth value")

/-- The number nearest to a whole number. -/
def numberOfInt (n : Int) : Float :=
  let magnitude := Decimal.toFloat ⟨n.natAbs, 0⟩
  if n < 0 then -magnitude else magnitude

/-- A number, which may be whole and then has to fit into 64 bits, with a sign or without. -/
def asNumber : Document → Except SchemaError Float
  | .number x => .ok x
  | .integer n =>
    if -(UInt64.size / 2) ≤ n ∧ n < UInt64.size then .ok (numberOfInt n)
    else .error (.mismatch "a number of 64 bits")
  | _ => .error (.mismatch "a number")

/-- A whole number of 64 bits without a sign. -/
def asWord : Document → Except SchemaError UInt64
  | .integer n =>
    if 0 ≤ n ∧ n < UInt64.size then .ok (UInt64.ofNat n.toNat)
    else .error (.mismatch "a number of 64 bits")
  | _ => .error (.mismatch "a whole number")

/-- A text. -/
def asText : Document → Except SchemaError String
  | .text s => .ok s
  | _ => .error (.mismatch "a text")

/-- A list of values. -/
def asList (item : Document → Except SchemaError α) : Document → Except SchemaError (List α)
  | .array items => items.mapM item
  | _ => .error (.mismatch "a list")

/-- A value that may be left empty. -/
def optional (read : Document → Except SchemaError α) : Document → Except SchemaError (Option α)
  | .null => .ok none
  | d => (read d).map some

/-- What a name stands for. -/
def named (choices : List (String × α)) (name : String) : Except SchemaError α :=
  match choices.find? (·.1 == name) with
  | some (_, a) => .ok a
  | none => .error (.mismatch "one of the known names")

/-- One of several names, either alone or as the only field of a table with an empty
value. -/
def asChoice (dialect : Dialect) (choices : List (String × α)) : Document → Except SchemaError α
  | .text name => named choices name
  | .table [(name, value)] =>
    if dialect.isEmpty value then named choices name else .error (.mismatch "an empty value")
  | _ => .error (.mismatch "a name")

/-! ### Structures -/

/-- The given parts of a structure under their names.  A moment has parts of its own, and
none of these. -/
def fieldsOf (dialect : Dialect) (names : List String) :
    Document → Except SchemaError (List (String × Document))
  | .table fields =>
    if fields.all fun (name, d) => names.contains name || d.isBounded then .ok fields
    else .error (.mismatch "numbers in bounds")
  | .array items =>
    if !dialect.surplus ∧ names.length < items.length then .error (.mismatch "a shorter list")
    else .ok (names.zip items)
  | .moment _ => .ok []
  | _ => .error (.mismatch "a table")

/-- A part of a structure, or its default if it is not given. -/
def field (fields : List (String × Document)) (name : String) (default : α)
    (read : Document → Except SchemaError α) : Except SchemaError α :=
  match lookup? fields name with
  | some d => read d
  | none => .ok default

/-- A part of a structure that has to be given. -/
def required (fields : List (String × Document)) (name : String)
    (read : Document → Except SchemaError α) : Except SchemaError α :=
  match lookup? fields name with
  | some d => read d
  | none => .error (.missing name)

end Document

end TaskAllocation
