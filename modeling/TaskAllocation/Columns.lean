/-!
# Lines and columns

Text for a screen of characters of one width.

## Main definitions

* `padEnd`, `padStart` — a text filled up with blanks.
* `listing` — two columns.
* `textOfLines` — lines put together.
-/

namespace TaskAllocation

/-- A text with blanks behind it, up to a width. -/
def padEnd (width : Nat) (s : String) : String := s ++ "".pushn ' ' (width - s.length)

/-- A text with blanks before it, up to a width. -/
def padStart (width : Nat) (s : String) : String := "".pushn ' ' (width - s.length) ++ s

/-- The lines of two columns, the left one as wide as its widest text. -/
def listing (rows : List (String × String)) : List String :=
  let width := rows.foldl (fun w r => max w r.1.length) 0
  rows.map fun (left, right) => "  " ++ padEnd width left ++ "  " ++ right

/-- The text of a list of lines. -/
def textOfLines (lines : List String) : String := String.join (lines.map (· ++ "\n"))

end TaskAllocation
