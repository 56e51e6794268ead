import TaskAllocation.CommandLine.Discovery

/-!
# Trees of files

A small tree of files and directories, for looking at a session without a machine.  Every
entry is known by the steps that lead to it from the top; the directories on the way to
an entry are there without being named.

## Main definitions

* `FileTree` — the tree.
* `FileTree.resolve` — where a path leads, from a given directory.
* `FileTree.inspect` — what a path leads to.
-/

namespace TaskAllocation.CommandLine

/-- A tree of files and directories. -/
structure FileTree where
  /-- The files, with their texts. -/
  files : List (List String × String)
  /-- Directories. -/
  directories : List (List String)
  deriving Repr, DecidableEq, Inhabited

namespace FileTree

/-- The steps of a path. -/
def steps (path : String) : List String := path.splitOn "/"

/-- Whether an entry is a directory. -/
def isDirectory (t : FileTree) (entry : List String) : Bool :=
  entry.isEmpty
    || t.directories.any (fun d => entry.isPrefixOf d)
    || t.files.any fun f => entry.isPrefixOf f.1 && entry ≠ f.1

/-- Take a step from a directory.  There are none from anything else. -/
def step (t : FileTree) (entry : List String) (name : String) : Option (List String) :=
  if !t.isDirectory entry then none
  else if name = "" ∨ name = "." then some entry
  else if name = ".." then some entry.dropLast
  else some (entry ++ [name])

/-- The greatest number of bytes of a path. -/
def longestPath : Nat := 4095

/-- Where a path leads, from a given directory or from the top.  One that is too long leads
nowhere. -/
def resolve (t : FileTree) (directory : List String) (path : String) : Option (List String) :=
  let start := if path.startsWith "/" then [] else directory
  if longestPath < path.utf8ByteSize then none
  else (steps path).foldlM t.step start

/-- What a path leads to, from a given directory. -/
def inspect (t : FileTree) (directory : List String) (path : String) : PathStatus :=
  match t.resolve directory path with
  | none => .missing
  | some entry =>
    match t.files.lookup entry with
    | some text => .file (some text)
    | none => if t.isDirectory entry then .directory else .missing

/-- Put a file into a tree, in place of one that is there. -/
def write (t : FileTree) (entry : List String) (text : String) : FileTree :=
  { t with files := (entry, text) :: t.files }

end FileTree

end TaskAllocation.CommandLine
