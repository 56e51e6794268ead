/-!
# Tables of names

A table lists values under names, in the order of the names.

## Main definitions

* `NameTable.enter` — enter a value under a name.
* `NameTable.ofList` — the table of a list of entries.
-/

namespace TaskAllocation

namespace NameTable

variable {α : Type}

/-- Enter a value under a name.  It takes the place of one that is there under the name. -/
def enter (name : String) (x : α) : List (String × α) → List (String × α)
  | [] => [(name, x)]
  | (other, y) :: table =>
    if name < other then (name, x) :: (other, y) :: table
    else if name = other then (name, x) :: table
    else (other, y) :: enter name x table

/-- The table of a list of entries, entered one after another. -/
def ofList (entries : List (String × α)) : List (String × α) :=
  entries.foldl (fun table p => enter p.1 p.2 table) []

end NameTable

end TaskAllocation
