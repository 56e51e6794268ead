import TaskAllocation.Draw.Words

/-!
# Scripted words

A generator that hands out the words of a list and then zeros, for runs whose
draws are laid down beforehand.

## Main definitions

* `ScriptedWords` — the words still to come.
* `ScriptedWords.ofUnit` — the word from which a given scalar is drawn.
-/

namespace TaskAllocation

/-- The words still to come; zeros follow them. -/
structure ScriptedWords where
  /-- The words, next one first. -/
  words : List UInt64
  deriving Repr, Inhabited

namespace ScriptedWords

/-- The next word. -/
def next (s : ScriptedWords) : UInt64 × ScriptedWords :=
  match s.words with
  | [] => (0, s)
  | w :: rest => (w, { words := rest })

/-- A short word is the upper half of a long one. -/
instance : WordSource ScriptedWords where
  next32 s :=
    let (w, rest) := s.next
    ((w >>> 32).toUInt32, rest)
  next64 := next

/-- The word from which the draw `unit`, a number in `[0, 1)`, is made; what lies
beyond 53 bits is cut off. -/
def ofUnit (unit : Float) : UInt64 := (unit * 9007199254740992.0).toUInt64 <<< 11

end ScriptedWords

end TaskAllocation
