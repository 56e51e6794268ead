import TaskAllocation.Proofs.Decomposition.Neighbourhood
import TaskAllocation.Proofs.Exact

/-!
# Where the focus goes

After a task has run, the focus moves by one level or stays.  There is nothing to decide, and
nothing is drawn, if no block has the focus, if the task is no member of the block that has it,
and if no way is open.  Otherwise one draw is made and weighed against the head of the block and
the head of the block above, and every way that the draw can open is there: a part after which a
way is open is split, so that it heads a block.  That is why moving never fails halfway, with
the draw made and the probabilities kept.

## Main definitions

* `Decomposition.counterpart` — the task that the head of a block is weighed against.
* `Decomposition.landing` — the block that an open way leads to, given a draw.

## Main results

* `Decomposition.Coherent.counterpart_eq_parent` — what a head is weighed against is its parent.
* `Decomposition.Coherent.destination_eq_landing` — an open way leads where it should.
* `Decomposition.moveFocus_exact` — **what moving the focus does, in all cases.**
-/

namespace TaskAllocation

namespace Decomposition

variable {S R : Type} {d : Decomposition S} {k j : BlockId} {b : Block S} {t : TaskId}
  {above : Option BlockId}

/-- The task that the head of block `b` is weighed against: the head of the block above, and
itself at the top. -/
def counterpart (d : Decomposition S) (b : Block S) (above : Option BlockId) : TaskId :=
  (d.headOf? above).getD b.root

/-- The block that the way after task `t` leads to from block `k`, given a draw: the block
above, the block that `t` heads, or `k` if the draw is below the probability of staying. -/
def landing [Scalar S] (d : Decomposition S) (k : BlockId) (b : Block S)
    (above : Option BlockId) (t : TaskId) (stay : StayProbs S) (draw : S) : BlockId :=
  if t = b.root then if stay.up ≤ draw then above.getD k else k
  else if stay.down ≤ draw then (d.blockOf? t).getD k else k

namespace Coherent

/-- What the head of a block is weighed against is its parent, which is itself at the top. -/
theorem counterpart_eq_parent (h : d.Coherent) (hb : d.block? k = some b)
    (habove : d.above k = .ok above) : d.counterpart b above = d.forest.parent b.root := by
  unfold counterpart headOf?
  by_cases htop : d.forest.parent b.root = b.root
  · cases habove.symm.trans (h.above_of_top hb htop)
    exact htop.symm
  · obtain ⟨j, c, hsome, hc, hroot⟩ := h.exists_above_of_parent_ne hb htop
    cases habove.symm.trans hsome
    simp only [Option.bind_some, hc, Option.map_some, Option.getD_some, hroot]

variable [Scalar S]

/-- The head of a block is weighed against its counterpart. -/
theorem stayProbs_eq (h : d.Coherent) (hb : d.block? k = some b)
    (habove : d.above k = .ok above) :
    d.stayProbs k above =
      { up := stayProb d.stayCurve (d.forest.estimate b.root)
          (d.forest.estimate (d.counterpart b above))
        down := stayProb d.stayCurve (d.forest.estimate (d.counterpart b above))
          (d.forest.estimate b.root) } := by
  unfold stayProbs counterpart headOf?
  cases above with
  | none => simp only [blockEstimate, hb]; rfl
  | some j =>
    -- the block above is there, so that its estimate is not made up
    obtain ⟨c, hc⟩ := exists_block? (h.lt_size_of_above hb habove)
    simp only [blockEstimate, hb, hc, Option.bind_some, Option.map_some, Option.getD_some]

/-- **An open way leads where it should.**  Upwards it may lead nowhere; downwards it leads to
the block of a part that is split, and so has one. -/
theorem destination_eq_landing (h : d.Coherent) (hb : d.block? k = some b)
    (ht : b.contains t = true) (hopen : ¬ d.IsSettled b t) (stay : StayProbs S) (draw : S) :
    d.destination k t { upward := b.isRoot t, above := above, stay := stay } draw =
      .ok (d.landing k b above t stay draw) := by
  unfold destination landing
  by_cases hroot : t = b.root
  · have hup : b.isRoot t = true := (b.isRoot_iff t).mpr hroot
    simp only [hup, if_true, if_pos hroot]
    cases above with
    | none => simp only [Option.getD_none, ite_self]
    | some j => rfl
  · have hdown : b.isRoot t = false := by rwa [Bool.eq_false_iff, ne_eq, b.isRoot_iff]
    have hpart : b.isPart t = true := by simpa [Block.contains, hdown] using ht
    simp only [hdown, Bool.false_eq_true, if_false, if_neg hroot]
    by_cases hdraw : stay.down ≤ draw
    · -- a part with a way open is split, and heads a block
      obtain ⟨j, hj, hof⟩ := h.exists_below hb hpart (isSome_parts?_of_isPart hpart hopen)
      simp only [if_pos hdraw, hj, hof, Option.getD_some]
    · simp only [if_neg hdraw]

variable [UnitSource R S]

/-- After a member with a way open, one draw decides. -/
theorem moveFocus_eq_landing (h : d.Coherent) (hfocus : d.focus = some k)
    (hb : d.block? k = some b) (ht : b.contains t = true) (hopen : ¬ d.IsSettled b t)
    (habove : d.above k = .ok above) (source : R) :
    d.moveFocus t source = (.ok (),
      { d with
        focus := some (d.landing k b above t (d.stayProbs k above)
          (UnitSource.uniform source : S × R).1)
        lastStay := some (d.stayProbs k above) },
      (UnitSource.uniform source : S × R).2) := by
  obtain ⟨_, target, habove', -, hdest, hmove⟩ :=
    h.moveFocus_of_open hfocus hb ht hopen source
  cases habove.symm.trans habove'
  cases (h.destination_eq_landing hb ht hopen _ _).symm.trans hdest
  exact hmove

end Coherent

/-- **What moving the focus does, in all cases**, however the decomposition was built.  It fails
after a task that is no member of the block with the focus, with nothing changed and nothing
drawn, and in no other case.  After a member with a way open one draw is made, and only the focus
and the probabilities of staying are written. -/
theorem moveFocus_exact [Scalar S] {R₀ : Type} [IndexSource R₀] [UnitSource R₀ S]
    [UnitSource R S] (root : TaskSpec S) (curve : Logistic S) (calls : List (Call S R₀))
    (hd : (single root curve).run calls = d) (t : TaskId) (source : R) :
    (d.focus = none → d.moveFocus t source = (.ok (), d, source)) ∧
      (∀ k, d.focus = some k → ∃ b above, d.block? k = some b ∧ d.above k = .ok above ∧
        (b.contains t = false → d.moveFocus t source =
          (.error (if t < d.forest.size then .notInBlock k t else .unknownTask t), d, source)) ∧
        (b.contains t = true → d.IsSettled b t → d.moveFocus t source = (.ok (), d, source)) ∧
        (b.contains t = true → ¬ d.IsSettled b t →
          (t ≠ b.root → ∃ j, d.blockOf? t = some j) ∧
          ∃ stay draw rest, (UnitSource.uniform source : S × R) = (draw, rest) ∧
            stay.up = stayProb d.stayCurve (d.forest.estimate b.root)
              (d.forest.estimate (d.counterpart b above)) ∧
            stay.down = stayProb d.stayCurve (d.forest.estimate (d.counterpart b above))
              (d.forest.estimate b.root) ∧
            d.moveFocus t source = (.ok (),
              { d with
                focus := some (d.landing k b above t stay draw)
                lastStay := some stay }, rest))) ∧
      ∀ error, (d.moveFocus t source).1 = .error error →
        error = .unknownTask t ∨ ∃ k, error = .notInBlock k t := by
  have h : d.Coherent := hd ▸ Coherent.run (.single root curve) calls
  refine ⟨fun hfocus => ?_, fun k hfocus => ?_, fun error herror => ?_⟩
  · simp only [moveFocus, hfocus]
  · obtain ⟨b, hb⟩ := exists_block? (h.focus_lt k hfocus)
    obtain ⟨above, habove, -⟩ := h.exists_above hb
    refine ⟨b, above, hb, habove, fun ht => ?_, fun ht hsettled => ?_, fun ht hopen => ?_⟩
    · exact Coherent.moveFocus_of_notMem hfocus hb ht source
    · exact h.moveFocus_of_settled hfocus hb ht hsettled source
    · constructor
      · intro hne
        have hpart : b.isPart t = true := by
          rcases (b.contains_iff t).mp ht with heq | hpart
          · exact absurd heq hne
          · exact (b.isPart_iff t).mpr hpart
        exact h.exists_blockOf? (Coherent.isSome_parts?_of_isPart hpart hopen)
      · refine ⟨d.stayProbs k above, _, _, rfl, ?_, ?_, ?_⟩
        · rw [h.stayProbs_eq hb habove]
        · rw [h.stayProbs_eq hb habove]
        · exact h.moveFocus_eq_landing hfocus hb ht hopen habove source
  · cases hfocus : d.focus with
    | none =>
      simp only [moveFocus, hfocus] at herror
      cases herror
    | some k =>
      obtain ⟨b, hb⟩ := exists_block? (h.focus_lt k hfocus)
      cases ht : b.contains t with
      | false =>
        rw [Coherent.moveFocus_of_notMem hfocus hb ht source] at herror
        cases herror
        unfold strayError
        split
        · exact .inr ⟨k, rfl⟩
        · exact .inl rfl
      | true =>
        obtain ⟨_, _, _, _, hmove, -⟩ := h.moveFocus_of_contains hfocus hb ht source
        rw [hmove] at herror
        cases herror

section Example

attribute [local instance] Scalar.rational

/-- The block of the third level has the focus. -/
def atThirdLevel : Decomposition ℚ := threeLevels [.initFocus .deepest ⟨[]⟩]

/-- After its head, a draw close to one leads to the block above. -/
theorem moveFocus_exact_three_levels :
    ∃ stay rest, atThirdLevel.moveFocus 3 (⟨[18446744073709551615]⟩ : ScriptedWords) =
      (.ok (), { atThirdLevel with focus := some 1, lastStay := some stay }, rest) := by
  obtain ⟨-, hmoves, -⟩ := moveFocus_exact ⟨"root", 0.5, 4⟩ ⟨1.5, 1.0, 1.0⟩
    (threeLevelCalls ++ [.initFocus .deepest ⟨[]⟩]) (show _ = atThirdLevel from rfl) 3
    (⟨[18446744073709551615]⟩ : ScriptedWords)
  obtain ⟨b, above, hb, -, -, -, hopen⟩ := hmoves 2 (by decide +kernel)
  have hblock : atThirdLevel.block? 2 = some (.new 3 5 6) := by decide +kernel
  cases hblock.symm.trans hb
  have hunsettled : ¬ atThirdLevel.IsSettled (.new 3 5 6) 3 := by
    rintro (⟨-, hroot⟩ | ⟨hpart, -⟩)
    · exact absurd hroot (by decide)
    · exact absurd hpart (by decide)
  obtain ⟨-, stay, draw, rest, -, -, -, hmove⟩ := hopen (by decide) hunsettled
  have hfocus : (atThirdLevel.moveFocus 3 (⟨[18446744073709551615]⟩ : ScriptedWords)).2.1.focus =
      some 1 := by decide +kernel
  rw [hmove] at hfocus
  exact ⟨stay, rest, hmove.trans (by rw [Option.some.inj hfocus])⟩

end Example

end Decomposition

end TaskAllocation
