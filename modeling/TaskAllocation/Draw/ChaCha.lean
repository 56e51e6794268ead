import TaskAllocation.Draw.Words

/-!
# The ChaCha generator

The generator that simulations run on: the ChaCha stream cipher with twelve
rounds, its key spread out from a 64-bit seed by a linear congruential generator.
The keystream is one sequence of 32-bit words; a 64-bit word is two of them, the
low half first.

## Main definitions

* `ChaCha.block` — the sixteen words of one block of keystream.
* `ChaCha.ofSeed` — the generator of a seed.
-/

namespace TaskAllocation

/-- A ChaCha keystream and how far it has been read. -/
structure ChaCha where
  /-- The eight words of the key. -/
  key : Array UInt32
  /-- The words of the current block. -/
  words : Array UInt32
  /-- How many of these words have been read. -/
  used : Nat
  /-- The number of the next block. -/
  counter : UInt64
  deriving Repr, Inhabited

namespace ChaCha

/-! ### Blocks -/

/-- Rotate a word to the left, by at least one bit and less than all. -/
def rotate (x : UInt32) (bits : UInt32) : UInt32 := (x <<< bits) ||| (x >>> (32 - bits))

/-- Mix the words at four places. -/
def quarterRound (s : Array UInt32) (i j k l : Nat) : Array UInt32 :=
  let a := s.getD i 0
  let b := s.getD j 0
  let c := s.getD k 0
  let d := s.getD l 0
  let a := a + b
  let d := rotate (d ^^^ a) 16
  let c := c + d
  let b := rotate (b ^^^ c) 12
  let a := a + b
  let d := rotate (d ^^^ a) 8
  let c := c + d
  let b := rotate (b ^^^ c) 7
  (((s.setIfInBounds i a).setIfInBounds j b).setIfInBounds k c).setIfInBounds l d

/-- Mix the four columns and then the four diagonals. -/
def doubleRound (s : Array UInt32) : Array UInt32 :=
  let s := quarterRound s 0 4 8 12
  let s := quarterRound s 1 5 9 13
  let s := quarterRound s 2 6 10 14
  let s := quarterRound s 3 7 11 15
  let s := quarterRound s 0 5 10 15
  let s := quarterRound s 1 6 11 12
  let s := quarterRound s 2 7 8 13
  quarterRound s 3 4 9 14

/-- Twelve rounds, two at a time. -/
def rounds (s : Array UInt32) : Array UInt32 :=
  (List.range 6).foldl (fun s _ => doubleRound s) s

/-- The words that a block is mixed from: four constants, the key, the number of
the block and two zeros. -/
def initial (key : Array UInt32) (counter : UInt64) : Array UInt32 :=
  let constants : Array UInt32 := #[0x61707865, 0x3320646e, 0x79622d32, 0x6b206574]
  constants ++ key ++ #[counter.toUInt32, (counter >>> 32).toUInt32, 0, 0]

/-- One block of keystream. -/
def block (key : Array UInt32) (counter : UInt64) : Array UInt32 :=
  let start := initial key counter
  Array.zipWith (· + ·) (rounds start) start

/-! ### Seeds -/

/-- One step of the congruential generator. -/
def stretch (state : UInt64) : UInt64 := state * 6364136223846793005 + 11634580027462260723

/-- The word that a state of the congruential generator stands for: bits folded
together and rotated by its five upper bits. -/
def permuted (state : UInt64) : UInt32 :=
  let folded := (((state >>> 18) ^^^ state) >>> 27).toUInt32
  let turn := (state >>> 59).toUInt32
  (folded >>> turn) ||| (folded <<< ((32 - turn) % 32))

/-- The first `count` words that a state gives rise to. -/
def keyWords : (count : Nat) → (state : UInt64) → List UInt32
  | 0, _ => []
  | count + 1, state =>
    let state := stretch state
    permuted state :: keyWords count state

/-- The generator of a seed. -/
def ofSeed (seed : UInt64) : ChaCha where
  key := (keyWords 8 seed).toArray
  words := #[]
  used := 0
  counter := 0

/-! ### Reading the keystream -/

/-- The next word of the keystream. -/
def next (g : ChaCha) : UInt32 × ChaCha :=
  match g.words[g.used]? with
  | some w => (w, { g with used := g.used + 1 })
  | none =>
    let words := block g.key g.counter
    (words.getD 0 0, { g with words := words, used := 1, counter := g.counter + 1 })

instance : WordSource ChaCha where
  next32 := next
  next64 g :=
    let (low, g) := g.next
    let (high, g) := g.next
    (low.toUInt64 ||| (high.toUInt64 <<< 32), g)

end ChaCha

end TaskAllocation
