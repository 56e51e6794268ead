import TaskAllocation.Decimal.Format

/-!
# Documents

The tree that structured text is read into and written from, whichever notation it is
in.  The fields of a table keep their order.  Whole numbers may have any size, and a
numeral that stands for no number in double precision is kept as it is written: whether it
can be used is decided only when it is looked at.

## Main definitions

* `Document` — the tree.
* `Document.ofNat`, `Document.ofOption` — documents of common values.
* `Document.isTable`, `Document.lookup?` — looking into it.
* `Document.isBounded` — whether all the numbers in it can be represented.
-/

namespace TaskAllocation

/-- A tree of values. -/
inductive Document where
  /-- No value. -/
  | null
  /-- A truth value. -/
  | flag (value : Bool)
  /-- A whole number. -/
  | integer (value : Int)
  /-- A number in double precision. -/
  | number (value : Float)
  /-- A numeral that stands for no number in double precision, as written. -/
  | numeral (value : String)
  /-- A text. -/
  | text (value : String)
  /-- A date, a time of day or both, as written. -/
  | moment (value : String)
  /-- A list of values. -/
  | array (items : List Document)
  /-- Values under names. -/
  | table (fields : List (String × Document))
  deriving Inhabited

namespace Document

/-- The document of a natural number. -/
def ofNat (n : Nat) : Document := .integer n

/-- The document of a value that may be missing. -/
def ofOption {α : Type} (write : α → Document) : Option α → Document
  | some a => write a
  | none => .null

/-- Whether a document is a table. -/
def isTable : Document → Bool
  | .table _ => true
  | _ => false

/-- The value of a field, if there is one of that name. -/
def lookup? (fields : List (String × Document)) (name : String) : Option Document :=
  (fields.find? (·.1 == name)).map (·.2)

/-! ### Numbers in bounds -/

/-- Whether a whole number has at most 128 binary digits, a sign counting as one of them. -/
def isWide (n : Int) : Bool :=
  -0x80000000000000000000000000000000 ≤ n ∧ n < 0x100000000000000000000000000000000

mutual

/-- Whether every number in a document can be represented: whole numbers within 128
binary digits, and others in double precision. -/
def isBounded : Document → Bool
  | .integer n => isWide n
  | .numeral _ => false
  | .array items => areBounded items
  | .table fields => areFieldsBounded fields
  | _ => true

/-- Whether every number in the items of a list can be represented. -/
def areBounded : List Document → Bool
  | [] => true
  | d :: rest => isBounded d && areBounded rest

/-- Whether every number in the fields of a table can be represented. -/
def areFieldsBounded : List (String × Document) → Bool
  | [] => true
  | (_, d) :: rest => isBounded d && areFieldsBounded rest

end

end Document

end TaskAllocation
