import TaskAllocation.Proofs.Decomposition.Walk
import TaskAllocation.Proofs.Exact

/-!
# Choosing a member of a block

Choosing looks up the block and its three members, draws once or twice, and only then writes: the
probability of the whole task, that of the first part if it came to a second draw, and last of all
the active member, which may be refused.  Each of these can fail where it stands, and a failure of
the last would come after two draws and two writes.  In a decomposition that was built by calls
none of them does: the members of a block are tasks, and what is drawn is a member.

So the only failure is a number that is not that of a block, which is found before anything is
drawn; and what is written is written to one block.

## Main definitions

* `Decomposition.Drawing` — computations that change a decomposition step by step, and draw.
* `Partitioning.chooseInPlace` — choosing, one look, draw and change after another.
* `Decomposition.ChosenIn` — what choosing leaves of a decomposition.

## Main results

* `Partitioning.outcome_chooseInPlace` — choosing step by step is choosing at once.
* `Decomposition.chosenIn_setIfInBounds` — what is written, and what stays.
* `Partitioning.choose_exact` — **what choosing does, in all cases.**
-/

namespace TaskAllocation

variable {S R : Type}

namespace Decomposition

/-! ### One look, draw and change after another -/

/-- Computations that change a decomposition step by step, and draw.  One that fails leaves
behind what has been changed before, and the source as far as it has been drawn from. -/
abbrev Drawing (S R α : Type) := ExceptT TopologyError (StateM (Decomposition S × R)) α

namespace Drawing

variable {α β : Type} {d : Decomposition S} {k : BlockId} {b c : Block S} {source : R}

/-- What comes of a computation, the decomposition that it leaves behind, and the source. -/
def outcome (x : Drawing S R α) (d : Decomposition S) (source : R) :
    Except TopologyError α × Decomposition S × R :=
  x.run.run (d, source)

/-- Look at the decomposition as it stands, which may go wrong. -/
def look (read : Decomposition S → Except TopologyError α) : Drawing S R α := do
  read (← get).1

/-- Draw a scalar. -/
def uniform [UnitSource R S] : Drawing S R S :=
  modifyGet fun (d, source) =>
    let (u, source) := UnitSource.uniform source
    (u, d, source)

/-- Change one block as it stands, which may be refused. -/
def changeBlock (k : BlockId) (change : Block S → Except TopologyError (Block S)) :
    Drawing S R Unit := do
  let b ← look (·.block k)
  let b ← change b
  modify fun (d, source) => ({ d with blocks := d.blocks.setIfInBounds k b }, source)

/-- Write to one block as it stands. -/
def editBlock (k : BlockId) (edit : Block S → Block S) : Drawing S R Unit :=
  changeBlock k fun b => .ok (edit b)

theorem outcome_look_bind {read : Decomposition S → Except TopologyError α} {a : α}
    (h : read d = .ok a) (next : α → Drawing S R β) :
    (look read >>= next).outcome d source = (next a).outcome d source := by
  have hlook : (look read >>= next).outcome d source =
      (ExceptT.bindCont next (read d)).run (d, source) := rfl
  rw [hlook, h]
  rfl

/-- A look that goes wrong ends a computation. -/
theorem outcome_look_bind_error {read : Decomposition S → Except TopologyError α}
    {error : TopologyError} (h : read d = .error error) (next : α → Drawing S R β) :
    (look read >>= next).outcome d source = (.error error, d, source) := by
  have hlook : (look read >>= next).outcome d source =
      (ExceptT.bindCont next (read d)).run (d, source) := rfl
  rw [hlook, h]
  rfl

theorem outcome_uniform_bind [UnitSource R S] (next : S → Drawing S R β) :
    (uniform >>= next).outcome d source =
      (next (UnitSource.uniform source).1).outcome d (UnitSource.uniform source : S × R).2 :=
  rfl

theorem outcome_changeBlock_bind {change : Block S → Except TopologyError (Block S)}
    (hb : d.block? k = some b) (hc : change b = .ok c) (next : Unit → Drawing S R β) :
    (changeBlock k change >>= next).outcome d source =
      (next ()).outcome { d with blocks := d.blocks.setIfInBounds k c } source := by
  unfold changeBlock
  rw [bind_assoc, outcome_look_bind (block_eq_ok_iff.mpr hb), hc]
  rfl

/-- A block that has been changed can be changed again, and the second change is what stays. -/
theorem outcome_changeBlock_changed {change : Block S → Except TopologyError (Block S)}
    {b₀ : Block S} (hb : d.block? k = some b₀) (hc : change b = .ok c)
    (next : Unit → Drawing S R β) :
    (changeBlock k change >>= next).outcome { d with blocks := d.blocks.setIfInBounds k b } source =
      (next ()).outcome { d with blocks := d.blocks.setIfInBounds k c } source := by
  have hb' := (block?_setIfInBounds hb b k).trans (if_pos rfl)
  rw [outcome_changeBlock_bind hb' hc]
  simp only [Array.setIfInBounds_setIfInBounds]

theorem outcome_editBlock_bind (hb : d.block? k = some b) (edit : Block S → Block S)
    (next : Unit → Drawing S R β) :
    (editBlock k edit >>= next).outcome d source =
      (next ()).outcome { d with blocks := d.blocks.setIfInBounds k (edit b) } source := by
  refine outcome_changeBlock_bind hb ?_ next
  rfl

theorem outcome_editBlock_changed {b₀ : Block S} (hb : d.block? k = some b₀)
    (edit : Block S → Block S) (next : Unit → Drawing S R β) :
    (editBlock k edit >>= next).outcome { d with blocks := d.blocks.setIfInBounds k b } source =
      (next ()).outcome { d with blocks := d.blocks.setIfInBounds k (edit b) } source := by
  refine outcome_changeBlock_changed hb ?_ next
  rfl

end Drawing

/-! ### What choosing changes -/

/-- A member of block `b`, which is block `k`, has been chosen, and `e` has come of `d`. -/
structure ChosenIn (d : Decomposition S) (k : BlockId) (b : Block S)
    (c : Partitioning.Choice S) (e : Decomposition S) : Prop where
  /-- The block has the member active, remembers the one before, and keeps the probabilities that
  were used; that of the first part is the old one if it has not been used. -/
  block?_eq : e.block? k = some { b with
    active := some c.task
    last := b.active
    lastWholeProb := some c.wholeProb
    lastFirstProb := c.firstProb.or b.lastFirstProb }
  /-- All other blocks stay. -/
  other_eq : ∀ j, j ≠ k → e.block? j = d.block? j
  /-- None is opened or closed. -/
  size_eq : e.blocks.size = d.blocks.size
  /-- All tasks stay. -/
  forest_eq : e.forest = d.forest
  /-- The focus stays. -/
  focus_eq : e.focus = d.focus
  /-- What decides about the focus stays. -/
  stayCurve_eq : e.stayCurve = d.stayCurve
  /-- So do the probabilities that were used last for that. -/
  lastStay_eq : e.lastStay = d.lastStay

theorem chosenIn_setIfInBounds {d : Decomposition S} {k : BlockId} {b : Block S}
    (hb : d.block? k = some b) (c : Partitioning.Choice S) :
    d.ChosenIn k b c { d with blocks := d.blocks.setIfInBounds k (b.chosen c) } where
  block?_eq := (block?_setIfInBounds hb _ k).trans (if_pos rfl)
  other_eq j hj := (block?_setIfInBounds hb _ j).trans (if_neg hj)
  size_eq := Array.size_setIfInBounds
  forest_eq := rfl
  focus_eq := rfl
  stayCurve_eq := rfl
  lastStay_eq := rfl

end Decomposition

namespace Partitioning

open Decomposition Drawing

/-! ### Choosing step by step -/

/-- Keep the probability of the first part, if it came to a second draw. -/
def keepFirstProb (k : BlockId) : Option S → Drawing S R Unit
  | some firstProb => editBlock k fun b => { b with lastFirstProb := some firstProb }
  | none => pure ()

theorem outcome_keepFirstProb_bind {β : Type} {d : Decomposition S} {k : BlockId} {b₀ : Block S}
    (hb : d.block? k = some b₀) (b : Block S) (firstProb : Option S) (source : R)
    (next : Unit → Drawing S R β) :
    (keepFirstProb k firstProb >>= next).outcome
        { d with blocks := d.blocks.setIfInBounds k b } source =
      (next ()).outcome
        { d with
          blocks := d.blocks.setIfInBounds k
            { b with lastFirstProb := firstProb.or b.lastFirstProb } } source := by
  cases firstProb with
  | none => rfl
  | some firstProb => exact outcome_editBlock_changed hb _ next

variable [Scalar S] [UnitSource R S]

/-- Draw a member of a block: once for the whole task, and a second time for a part. -/
def pick (b : Block S) (wholeProb firstProb : S) : Drawing S R (Choice S) := do
  let u ← uniform
  if u < wholeProb then
    return { task := b.root, wholeProb := wholeProb, firstProb := none }
  let w ← uniform
  return {
    task := if w < firstProb then b.first else b.second
    wholeProb := wholeProb
    firstProb := some firstProb }

theorem outcome_pick_bind {β : Type} (b : Block S) (whole first : S) {d : Decomposition S}
    {source : R} (next : Choice S → Drawing S R β) :
    (pick b whole first >>= next).outcome d source =
      (next (draw b whole first source).1).outcome d (draw b whole first source).2 := by
  unfold pick draw
  rw [bind_assoc, outcome_uniform_bind]
  simp only
  split <;> rfl

/-- Choose a member of block `k` and make it active, one look, draw and change after another. -/
def chooseInPlace (p : Partitioning S) (k : BlockId) : Drawing S R TaskId := do
  let b ← look (·.block k)
  let root ← look (·.forest.task b.root)
  let first ← look (·.forest.task b.first)
  let second ← look (·.forest.task b.second)
  let parts := first.estimate.value + second.estimate.value
  let choice ← pick b (p.wholeProb parts root.estimate.value)
    (p.firstProb root.lastAborted b.first b.second)
  editBlock k fun b => { b with lastWholeProb := some choice.wholeProb }
  keepFirstProb k choice.firstProb
  changeBlock k (·.activate choice.task)
  return choice.task

variable {d : Decomposition S} {k : BlockId} {b : Block S}

/-- What is drawn in a block becomes active there, and the block keeps how it was drawn. -/
theorem choose_eq_draw (h : d.Coherent) (p : Partitioning S) (hb : d.block? k = some b)
    {whole first second : Task S} (hwhole : d.forest.task? b.root = some whole)
    (hfirst : d.forest.task? b.first = some first)
    (hsecond : d.forest.task? b.second = some second) (source : R) :
    let drawn := draw b
      (p.wholeProb (first.estimate.value + second.estimate.value) whole.estimate.value)
      (p.firstProb whole.lastAborted b.first b.second) source
    p.choose d k source = (.ok drawn.1.task,
      { d with blocks := d.blocks.setIfInBounds k (b.chosen drawn.1) }, drawn.2) := by
  obtain ⟨whole', hwhole', hchoose⟩ := h.choose_of_block p hb source
  cases hwhole.symm.trans hwhole'
  simpa only [drawFrom, Forest.estimate, hfirst, hsecond] using hchoose

/-- **Choosing step by step is choosing at once**: no look but the first goes wrong, and the last
change is not refused. -/
theorem outcome_chooseInPlace (h : d.Coherent) (p : Partitioning S) (k : BlockId) (source : R) :
    (p.chooseInPlace k).outcome d source = p.choose d k source := by
  unfold chooseInPlace
  rcases Nat.lt_or_ge k d.blocks.size with hlt | hge
  · obtain ⟨b, hb⟩ := exists_block? hlt
    obtain ⟨whole, first, second, hwhole, hfirst, hsecond⟩ := h.exists_members hb
    rw [outcome_look_bind (block_eq_ok_iff.mpr hb),
      outcome_look_bind (Forest.task_eq_ok_iff.mpr hwhole),
      outcome_look_bind (Forest.task_eq_ok_iff.mpr hfirst),
      outcome_look_bind (Forest.task_eq_ok_iff.mpr hsecond), outcome_pick_bind,
      outcome_editBlock_bind hb, outcome_keepFirstProb_bind hb,
      choose_eq_draw h p hb hwhole hfirst hsecond]
    -- what has been drawn is a member, so that it is made active
    refine outcome_changeBlock_changed hb ?_ _
    exact Block.activate_eq_ok_iff.mpr ⟨Coherent.contains_draw b _ _ source, rfl⟩
  · rw [outcome_look_bind_error (block_eq_error hge), Coherent.choose_of_size_le p hge]

/-! ### All cases -/

section Draw

variable {source : R} {whole first : S}

/-- A first draw below the probability of the whole task takes that. -/
theorem draw_of_lt (b : Block S) (first : S) (hu : (UnitSource.uniform source : S × R).1 < whole) :
    draw b whole first source = ({ task := b.root, wholeProb := whole, firstProb := none },
      (UnitSource.uniform source : S × R).2) := by
  simp only [draw, if_pos hu]

/-- Otherwise a second draw below its probability takes the first part. -/
theorem draw_of_not_lt_of_lt (b : Block S)
    (hu : ¬ (UnitSource.uniform source : S × R).1 < whole)
    (hw : (UnitSource.uniform (UnitSource.uniform source : S × R).2 : S × R).1 < first) :
    draw b whole first source = ({ task := b.first, wholeProb := whole, firstProb := some first },
      (UnitSource.uniform (UnitSource.uniform source : S × R).2 : S × R).2) := by
  simp only [draw, if_neg hu, if_pos hw]

/-- And any other second draw takes the second part. -/
theorem draw_of_not_lt_of_not_lt (b : Block S)
    (hu : ¬ (UnitSource.uniform source : S × R).1 < whole)
    (hw : ¬ (UnitSource.uniform (UnitSource.uniform source : S × R).2 : S × R).1 < first) :
    draw b whole first source = ({ task := b.second, wholeProb := whole, firstProb := some first },
      (UnitSource.uniform (UnitSource.uniform source : S × R).2 : S × R).2) := by
  simp only [draw, if_neg hu, if_neg hw]

end Draw

/-- **What choosing does, in all cases**, however the decomposition was built.  It fails for a
number that is not that of a block, with nothing changed and nothing drawn, and in no other case.
Otherwise a first draw below the probability of the whole task takes that; if it is not, there is
a second draw, which takes the first part below its probability and the second part otherwise.
Only the block itself is written to. -/
theorem choose_exact {R₀ : Type} [IndexSource R₀] [UnitSource R₀ S] (root : TaskSpec S)
    (curve : Logistic S) (calls : List (Call S R₀)) (hd : (single root curve).run calls = d)
    (p : Partitioning S) (k : BlockId) (source : R) :
    (p.chooseInPlace k).outcome d source = p.choose d k source ∧
      (d.blocks.size ≤ k → p.choose d k source = (.error (.unknownBlock k), d, source)) ∧
      (k < d.blocks.size → ∃ b whole first second prob firstProb u w rest rest',
        d.block? k = some b ∧ d.forest.task? b.root = some whole ∧
        d.forest.task? b.first = some first ∧ d.forest.task? b.second = some second ∧
        prob = p.wholeProb (first.estimate.value + second.estimate.value) whole.estimate.value ∧
        firstProb = p.firstProb whole.lastAborted b.first b.second ∧
        (UnitSource.uniform source : S × R) = (u, rest) ∧
        (UnitSource.uniform rest : S × R) = (w, rest') ∧
        (u < prob → ∃ e, p.choose d k source = (.ok b.root, e, rest) ∧
          d.ChosenIn k b { task := b.root, wholeProb := prob, firstProb := none } e) ∧
        (¬ u < prob → w < firstProb → ∃ e, p.choose d k source = (.ok b.first, e, rest') ∧
          d.ChosenIn k b { task := b.first, wholeProb := prob, firstProb := some firstProb } e) ∧
        (¬ u < prob → ¬ w < firstProb → ∃ e, p.choose d k source = (.ok b.second, e, rest') ∧
          d.ChosenIn k b
            { task := b.second, wholeProb := prob, firstProb := some firstProb } e)) := by
  have h : d.Coherent := hd ▸ Coherent.run (.single root curve) calls
  refine ⟨outcome_chooseInPlace h p k source, ?_, ?_⟩
  · intro hk
    exact Coherent.choose_of_size_le p hk source
  intro hk
  obtain ⟨b, hb⟩ := exists_block? hk
  obtain ⟨whole, first, second, hwhole, hfirst, hsecond⟩ := h.exists_members hb
  have hchoose := choose_eq_draw h p hb hwhole hfirst hsecond source
  refine ⟨b, whole, first, second, _, _, _, _, _, _, hb, hwhole, hfirst, hsecond, rfl, rfl, rfl,
    rfl, ?_, ?_, ?_⟩
  · intro hu
    rw [draw_of_lt b _ hu] at hchoose
    exact ⟨_, hchoose, chosenIn_setIfInBounds hb _⟩
  · intro hu hw
    rw [draw_of_not_lt_of_lt b hu hw] at hchoose
    exact ⟨_, hchoose, chosenIn_setIfInBounds hb _⟩
  · intro hu hw
    rw [draw_of_not_lt_of_not_lt b hu hw] at hchoose
    exact ⟨_, hchoose, chosenIn_setIfInBounds hb _⟩

section Example

attribute [local instance] Scalar.rational

/-- A first draw close to one, and a second that is zero. -/
def highThenLow : ScriptedWords := ⟨[0xffffffffffffffff, 0]⟩

/-- The first part of the root is chosen after two draws, and the block keeps both
probabilities. -/
theorem choose_exact_three_levels :
    ∃ e whole first, (standard.choose (threeLevels []) 0 highThenLow) = (.ok 1, e, ⟨[]⟩) ∧
      (threeLevels []).ChosenIn 0 (.new 0 1 2)
        { task := 1, wholeProb := whole, firstProb := some first } e := by
  obtain ⟨-, -, hcases⟩ := choose_exact ⟨"root", 0.5, 4⟩ ⟨1.5, 1.0, 1.0⟩ threeLevelCalls
    (show _ = threeLevels [] from rfl) standard 0 highThenLow
  obtain ⟨b, whole, first, second, prob, firstProb, u, w, rest, rest', hb, -, -, -, -, -, hu, hw,
    hroot, hfirst, hsecond⟩ := hcases (by decide +kernel)
  have hnew : (threeLevels []).block? 0 = some (.new 0 1 2) := by decide +kernel
  cases hnew.symm.trans hb
  cases hu
  cases hw
  have htask : (standard.choose (threeLevels []) 0 highThenLow).1 = .ok 1 := by decide +kernel
  by_cases hu : (UnitSource.uniform highThenLow : ℚ × ScriptedWords).1 < prob
  · obtain ⟨e, hchoose, -⟩ := hroot hu
    rw [hchoose] at htask
    cases htask
  · by_cases hw : (UnitSource.uniform (UnitSource.uniform highThenLow : ℚ × ScriptedWords).2 :
        ℚ × ScriptedWords).1 < firstProb
    · obtain ⟨e, hchoose, hinto⟩ := hfirst hu hw
      exact ⟨e, prob, firstProb, hchoose, hinto⟩
    · obtain ⟨e, hchoose, -⟩ := hsecond hu hw
      rw [hchoose] at htask
      cases htask

end Example

end Partitioning

end TaskAllocation
