import TaskAllocation.Draw

/-!
# Draws made of random words

A generator of random words becomes a source of draws: a scalar is the upper 53
bits of a 64-bit word, divided by `2 ^ 53`, and an index below `n` is the integer
part of `n * w / 2 ^ 32` for a 32-bit word `w`.  Where a finer `w` could change that
integer part, a second word supplies 32 more of its bits.

## Main definitions

* `WordSource` — a generator of 32-bit and 64-bit words.
* `WordSource.unitCount` — a 64-bit word as a count of steps of `2 ^ -53`.
* `WordSource.indexBelow` — an index from one or two 32-bit words.
* `Counted` — a generator that counts the words asked of it.

## Main results

* `WordSource.indexBelow_lt` — an index is below its bound.
-/

namespace TaskAllocation

/-- A generator of random words. -/
class WordSource (R : Type) where
  /-- The next 32 bits. -/
  next32 : R → UInt32 × R
  /-- The next 64 bits. -/
  next64 : R → UInt64 × R

namespace WordSource

/-! ### Scalars -/

/-- The number of steps into which the unit interval is divided. -/
def unitSteps : Nat := 0x20000000000000

/-- A 64-bit word as a count of steps: its upper 53 bits. -/
def unitCount (w : UInt64) : Nat := w.toNat / 0x800

theorem unitCount_lt (w : UInt64) : unitCount w < unitSteps := by
  have h := w.toNat_lt
  unfold unitCount unitSteps
  omega

/-- Draw a scalar from `0` up to, but never equal to, `1`. -/
def uniform {R S : Type} [WordSource R] [Scalar S] (source : R) : S × R :=
  let (w, source) := next64 source
  (Scalar.ofNat (unitCount w) / Scalar.ofNat unitSteps, source)

/-! ### Indices -/

/-- The integer part of `n * w / 2 ^ 32`, where the 32 bits of `fine` follow those
of `w` behind the point. -/
def refined (n w fine : Nat) : Nat := (w * n + fine * n / UInt32.size) / UInt32.size

theorem refined_lt {n w fine : Nat} (hn : 0 < n) (hw : w < UInt32.size) (hf : fine < UInt32.size) :
    refined n w fine < n := by
  have hfine : fine * n / UInt32.size < n := by
    rw [Nat.div_lt_iff_lt_mul (by decide), Nat.mul_comm n]
    exact Nat.mul_lt_mul_of_pos_right hf hn
  have hword : w * n + n ≤ n * UInt32.size := by
    rw [← Nat.succ_mul, Nat.mul_comm n]
    exact Nat.mul_le_mul_right n hw
  unfold refined
  rw [Nat.div_lt_iff_lt_mul (by decide)]
  omega

/-- Draw an index below `n`.  The first word decides unless what it leaves behind
the point is so close below the next integer that a second word could carry
over. -/
def indexBelow {R : Type} [WordSource R] (n : Nat) (source : R) : Nat × R :=
  let (w, source) := next32 source
  if w.toNat * n % UInt32.size ≤ UInt32.size - n then (refined n w.toNat 0, source)
  else
    let (fine, source) := next32 source
    (refined n w.toNat fine.toNat, source)

theorem indexBelow_lt {R : Type} [WordSource R] {n : Nat} (source : R) (hn : 0 < n) :
    (indexBelow n source).1 < n := by
  unfold indexBelow
  simp only
  split
  · exact refined_lt hn (UInt32.toNat_lt _) (by decide)
  · exact refined_lt hn (UInt32.toNat_lt _) (UInt32.toNat_lt _)

instance {R : Type} [WordSource R] : IndexSource R where
  below := indexBelow
  below_lt := indexBelow_lt

instance {R S : Type} [WordSource R] [Scalar S] : UnitSource R S where
  uniform := uniform

end WordSource

/-! ### Counting -/

/-- A generator together with the number of words asked of it. -/
structure Counted (R : Type) where
  /-- The generator. -/
  source : R
  /-- The number of words asked of it so far, short and long ones alike. -/
  draws : Nat
  deriving Repr, Inhabited

instance {R : Type} [WordSource R] : WordSource (Counted R) where
  next32 c :=
    let (w, source) := WordSource.next32 c.source
    (w, { source := source, draws := c.draws + 1 })
  next64 c :=
    let (w, source) := WordSource.next64 c.source
    (w, { source := source, draws := c.draws + 1 })

end TaskAllocation
