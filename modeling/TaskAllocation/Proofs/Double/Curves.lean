import TaskAllocation.Estimate
import TaskAllocation.Partitioning
import TaskAllocation.Proofs.Config.Validation
import TaskAllocation.Proofs.Double.Arithmetic

/-!
# Curves in double precision

The height of a logistic curve is a probability where its exponent is a number: the exponential is
then finite and not negative, and what the height is divided by is at least one.  Only a flat
curve at an infinite ratio has no exponent, and ratios are numbers themselves: they are formed
over estimates, which stay finite whatever is measured.

The exponential itself is not worked out.  It is any function with the two properties of it that
curves rely on.

## Main definitions

* `Scalar.double` — double precision numbers with a given exponential.
* `Double.Exponential` — what is asked of it.
* `Logistic.Proper`, `Partitioning.Proper` — curves whose heights are probabilities.
* `Estimate.Finite` — an estimate that stays finite.

## Main results

* `Logistic.Proper.isProbability_eval` — **the height of a proper curve is a probability.**
* `AbortCurve.isProbability_prob`, `Partitioning.Proper.isProbability_wholeProb`,
  `Logistic.Proper.isProbability_stayProb` — so is what the three decisions go by.
* `Estimate.Finite.update` — **estimates stay finite.**
-/

namespace TaskAllocation

open Double

/-- Double precision numbers, `exp` taking the place of the exponential. -/
@[reducible]
def Scalar.double (exp : Float → Float) : Scalar Float :=
  { (inferInstance : Scalar Float) with exp := exp }

example : (inferInstance : Scalar Float) = Scalar.double Float.exp := rfl

/-- What is asked of the exponential: it is finite and not negative where curves go by it, and it
makes no number of what is none. -/
structure Double.Exponential (exp : Float → Float) : Prop where
  of_bounded : ∀ x, -700.0 ≤ x → x ≤ 700.0 → 0.0 ≤ exp x ∧ (exp x).isFinite = true
  isNumber_of : ∀ x, exp x ≤ exp x → x ≤ x

/-- A step function through the exponential at zero and at 24. -/
def Double.stepExp (x : Float) : Float :=
  if x < 24.0 then 1.0 else if 24.0 ≤ x then 26489122129.84347 else x

theorem Double.exponential_stepExp : Exponential stepExp where
  of_bounded x hlow _ := by
    unfold stepExp
    split
    · decide +kernel
    next hlt =>
      have hx := isNumber_of_le_right hlow
      rw [if_pos (Double.le_of_not_lt hx (by decide +kernel) hlt)]
      decide +kernel
  isNumber_of x h := by
    unfold stepExp at h
    split at h
    next hlt => exact isNumber_of_le_left (Double.le_of_lt hlt)
    next =>
      split at h
      next hle => exact isNumber_of_le_right hle
      next => exact h

/-- A number between zero and one. -/
def IsProbability (p : Float) : Prop := 0.0 ≤ p ∧ p ≤ 1.0

/-- A curve that climbs or falls, to a height between zero and one. -/
structure Logistic.Proper (c : Logistic Float) : Prop where
  steep : c.reactivity < 0.0 ∨ 0.0 < c.reactivity
  gamma_nonneg : 0.0 ≤ c.gamma
  gamma_le : c.gamma ≤ 1.0

variable {exp : Float → Float} {c : Logistic Float} {x y : Float}

/-- Whether parameters are finite has nothing to do with the exponential. -/
theorem Logistic.Finite.of_double (h : @Logistic.Finite Float (Scalar.double exp) c) :
    c.Finite := by
  obtain ⟨hreactivity, hoffset, hgamma⟩ := h
  exact ⟨hreactivity, hoffset, hgamma⟩

/-! ### Ratios -/

theorem exists_stands_leastTime :
    ∃ r : ℚ, Stands 1e-6 ((r : ℝ) : EReal) ∧ 0 < r := by
  have hleast : (1e-6 : Float).toModel.unpack
      = .finite .positive 4722366482869645 (-72) (by decide) := rfl
  refine ⟨4722366482869645 * 2 ^ (-72 : ℤ), ?_, by positivity⟩
  rw [Stands, hleast]
  simp only [place?, signed]
  norm_num

/-- The greater of two is one of them, and the first only if it is more than the second. -/
theorem max_cases (exp : Float → Float) (x : Float) (hy : y ≤ y) : letI := Scalar.double exp
    (y < x ∧ Scalar.max x y = x) ∨ (¬ y < x ∧ Scalar.max x y = y) := by
  let _ := Scalar.double exp
  by_cases hlt : y < x
  · exact .inl ⟨hlt, if_pos (.inl hlt)⟩
  · exact .inr ⟨hlt, if_neg (not_or.mpr ⟨hlt, not_not.mpr hy⟩)⟩

/-- **A ratio is a number** whenever its base is finite, though it may be infinite. -/
theorem isNumber_timeRatio (x : Float) (hy : y.isFinite = true) : letI := Scalar.double exp
    Scalar.IsNumber (timeRatio x y) := by
  let _ := Scalar.double exp
  obtain ⟨least, hleast, hpos⟩ := exists_stands_leastTime
  have hnumerator : Scalar.max x 1e-6 ≤ Scalar.max x 1e-6 := by
    rcases max_cases exp x hleast.isNumber with ⟨hlt, hmax⟩ | ⟨-, hmax⟩
    · rw [hmax]
      exact isNumber_of_le_right (Double.le_of_lt hlt)
    · rw [hmax]
      exact hleast.isNumber
  -- the base is raised above zero, and so it is divided by a finite number that is not zero
  obtain ⟨base, hbase, hne⟩ : ∃ r : ℚ, Stands (Scalar.max y 1e-6) ((r : ℝ) : EReal) ∧ r ≠ 0 := by
    rcases max_cases exp y hleast.isNumber with ⟨hlt, hmax⟩ | ⟨-, hmax⟩
    · obtain ⟨r, hr⟩ := isFinite_iff.mp hy
      rw [hmax]
      refine ⟨r, hr, ne_of_gt (hpos.trans ?_)⟩
      rwa [hleast.lt_iff hr, EReal.coe_lt_coe_iff, Rat.cast_lt] at hlt
    · rw [hmax]
      exact ⟨least, hleast, hpos.ne'⟩
  exact hbase.isNumber_div hne hnumerator

/-! ### Heights -/

/-- What is brought into a range is one of its ends, or was there before. -/
theorem clamp_cases (exp : Float → Float) (low high x : Float) : letI := Scalar.double exp
    Scalar.clamp low high x = low ∨ Scalar.clamp low high x = high ∨
      (Scalar.clamp low high x = x ∧ ¬ x < low ∧ ¬ high < x) := by
  unfold Scalar.clamp
  dsimp only
  by_cases hlow : x < low
  · rw [if_pos hlow]
    split
    · exact .inr (.inl rfl)
    · exact .inl rfl
  · rw [if_neg hlow]
    split
    · exact .inr (.inl rfl)
    next hhigh => exact .inr (.inr ⟨rfl, hlow, hhigh⟩)

/-- What is brought into a range is in it, unless it is no number. -/
theorem clamp_bounds (exp : Float → Float) {low high : Float} (x : Float) (h : low ≤ high) :
    letI := Scalar.double exp
    Scalar.IsNumber (Scalar.clamp low high x) →
      low ≤ Scalar.clamp low high x ∧ Scalar.clamp low high x ≤ high := by
  let _ := Scalar.double exp
  intro hnumber
  have hlow := isNumber_of_le_left h
  have hhigh := isNumber_of_le_right h
  rcases clamp_cases exp low high x with heq | heq | ⟨heq, hge, hle⟩
  · rw [heq]
    exact ⟨hlow, h⟩
  · rw [heq]
    exact ⟨h, hhigh⟩
  · rw [heq] at hnumber ⊢
    exact ⟨Double.le_of_not_lt hnumber hlow hge, Double.le_of_not_lt hhigh hnumber hle⟩

theorem isNumber_clamp (exp : Float → Float) {low high : Float} (h : low ≤ high) (hx : x ≤ x) :
    letI := Scalar.double exp
    Scalar.IsNumber (Scalar.clamp low high x) := by
  let _ := Scalar.double exp
  rcases clamp_cases exp low high x with heq | heq | ⟨heq, -, -⟩
  · rw [heq]
    exact isNumber_of_le_left h
  · rw [heq]
    exact isNumber_of_le_right h
  · rw [heq]
    exact hx

namespace Logistic

theorem range_exponent : (-700.0 : Float) ≤ 700.0 := by decide +kernel

/-- Where the curve is not flat, the exponent is a number. -/
theorem Proper.isNumber_exponent (hc : c.Proper) (hfinite : c.Finite) (hx : x ≤ x) :
    letI := Scalar.double exp
    Scalar.IsNumber (c.exponent x) := by
  obtain ⟨a, ha⟩ := isFinite_iff.mp hfinite.reactivity
  obtain ⟨b, hb⟩ := isFinite_iff.mp hfinite.offset
  have hsteep : a ≠ 0 := by
    have hlt := hc.steep
    rw [ha.lt_iff stands_zero, stands_zero.lt_iff ha, EReal.coe_lt_coe_iff, EReal.coe_lt_coe_iff,
      Rat.cast_lt, Rat.cast_lt] at hlt
    exact hlt.elim (fun h => h.ne) fun h => h.ne'
  exact isNumber_clamp exp range_exponent (ha.isNumber_mul hsteep (hb.isNumber_sub hx))

/-- The divisor of a height is finite and at least one, unless the exponent is no number. -/
theorem exists_stands_divisor (hexp : Exponential exp) (c : Logistic Float) (x : Float) :
    letI := Scalar.double exp
    Scalar.IsNumber (c.exponent x) →
      ∃ r : ℚ, Stands (1.0 + exp (c.exponent x)) ((r : ℝ) : EReal) ∧ 1 ≤ r := by
  let _ := Scalar.double exp
  intro hnumber
  obtain ⟨hlow, hhigh⟩ := clamp_bounds exp _ range_exponent hnumber
  obtain ⟨hnonneg, hfinite⟩ := hexp.of_bounded _ hlow hhigh
  obtain ⟨q, hq⟩ := isFinite_iff.mp hfinite
  rw [stands_zero.le_iff hq, EReal.coe_le_coe_iff, Rat.cast_le] at hnonneg
  have hsum := stands_one.add hq
  have hone : 1 ≤ 1 + q := by linarith
  obtain ⟨r, hr⟩ := isFinite_iff.mp
    (stands_one.isFinite_add hq zero_le_one (one_le_pow₀ one_le_two) hnonneg)
  refine ⟨r, hr, ?_⟩
  have hge := hsum.ge stands_one hone
  rwa [stands_one.le_iff hr, EReal.coe_le_coe_iff, Rat.cast_le] at hge

section Height

variable (hexp : Exponential exp) (hfinite : c.Finite)
include hexp hfinite

/-- A height is no greater than one if the curve climbs no higher. -/
theorem eval_le_one (hle : c.gamma ≤ 1.0) : letI := Scalar.double exp
    Scalar.IsNumber (c.exponent x) → c.eval x ≤ 1.0 := by
  obtain ⟨g, hg⟩ := isFinite_iff.mp hfinite.gamma
  let _ := Scalar.double exp
  intro hnumber
  obtain ⟨r, hr, hone⟩ := exists_stands_divisor hexp c x hnumber
  rw [hg.le_iff stands_one, EReal.coe_le_coe_iff, Rat.cast_le] at hle
  refine (hg.div hr (by positivity)).le stands_one ?_
  rw [div_le_one (by linarith)]
  exact hle.trans hone

/-- A height is not negative if the curve does not go below zero. -/
theorem eval_nonneg (hge : 0.0 ≤ c.gamma) : letI := Scalar.double exp
    Scalar.IsNumber (c.exponent x) → 0.0 ≤ c.eval x := by
  obtain ⟨g, hg⟩ := isFinite_iff.mp hfinite.gamma
  let _ := Scalar.double exp
  intro hnumber
  obtain ⟨r, hr, hone⟩ := exists_stands_divisor hexp c x hnumber
  rw [stands_zero.le_iff hg, EReal.coe_le_coe_iff, Rat.cast_le] at hge
  exact (hg.div hr (by positivity)).ge stands_zero (div_nonneg hge (by linarith))

end Height

/-- What is no number has no height that is one. -/
theorem isNumber_exponent_of_eval (hexp : Exponential exp) (c : Logistic Float) (x : Float) :
    letI := Scalar.double exp
    Scalar.IsNumber (c.eval x) → Scalar.IsNumber (c.exponent x) :=
  fun h => hexp.isNumber_of _ (isNumber_of_add (isNumber_of_div h))

/-- **The height of a proper curve is a probability.** -/
theorem Proper.isProbability_eval (hexp : Exponential exp) (hc : c.Proper) (hfinite : c.Finite)
    (hx : x ≤ x) : letI := Scalar.double exp
    IsProbability (c.eval x) :=
  ⟨eval_nonneg hexp hfinite hc.gamma_nonneg (hc.isNumber_exponent hfinite hx),
    eval_le_one hexp hfinite hc.gamma_le (hc.isNumber_exponent hfinite hx)⟩

end Logistic

/-! ### Probabilities -/

theorem isProbability_zero : IsProbability 0.0 := ⟨stands_zero.isNumber, by decide +kernel⟩

theorem isProbability_one : IsProbability 1.0 := ⟨by decide +kernel, stands_one.isNumber⟩

/-- **The probability of giving up** is one, whatever the times, for a curve that climbs no higher
than one. -/
theorem AbortCurve.isProbability_prob (hexp : Exponential exp) {c : AbortCurve Float}
    (hc : c.curve.Finite) (hle : c.curve.gamma ≤ 1.0) (hpos : 0.0 < c.minProb)
    (hlt : c.minProb < 1.0) (elapsed estimate : Float) : letI := Scalar.double exp
    IsProbability (c.prob elapsed estimate) := by
  let _ := Scalar.double exp
  have hmin : c.minProb ≤ c.minProb := isNumber_of_le_left (Double.le_of_lt hlt)
  rcases max_cases exp (c.curve.eval (timeRatio elapsed estimate)) hmin with
    ⟨hless, hmax⟩ | ⟨-, hmax⟩
  · -- what is more than the floor is a number, and so was everything that it came from
    rw [AbortCurve.prob, hmax]
    have hnumber := isNumber_of_le_right (Double.le_of_lt hless)
    exact ⟨Double.le_trans (Double.le_of_lt hpos) (Double.le_of_lt hless),
      Logistic.eval_le_one hexp hc hle (Logistic.isNumber_exponent_of_eval hexp _ _ hnumber)⟩
  · rw [AbortCurve.prob, hmax]
    exact ⟨Double.le_of_lt hpos, Double.le_of_lt hlt⟩

/-- **The probability of staying** is one for a proper curve and a task to leave whose estimate is
finite. -/
theorem Logistic.Proper.isProbability_stayProb (hexp : Exponential exp) (hc : c.Proper)
    (hfinite : c.Finite) (target : Float) (hx : x.isFinite = true) : letI := Scalar.double exp
    IsProbability (stayProb c x target) :=
  hc.isProbability_eval hexp hfinite (isNumber_timeRatio target hx)

/-- A choice between whole and parts that is laid down or goes by a proper curve. -/
def Partitioning.Proper (p : Partitioning Float) : Prop :=
  p.always = true ∨ p.never = true ∨ p.curve.Proper

/-- **The probability of the whole task** is one for a proper choice and a finite estimate of the
whole. -/
theorem Partitioning.Proper.isProbability_wholeProb (hexp : Exponential exp)
    {p : Partitioning Float} (hp : p.Proper) (hfinite : p.curve.Finite) (parts : Float)
    (hx : x.isFinite = true) : letI := Scalar.double exp
    IsProbability (p.wholeProb parts x) := by
  let _ := Scalar.double exp
  unfold Partitioning.wholeProb
  split
  · exact isProbability_zero
  next halways =>
    split
    · exact isProbability_one
    next hnever =>
      have hcurve := (hp.resolve_left halways).resolve_left hnever
      exact hcurve.isProbability_eval hexp hfinite (isNumber_timeRatio parts hx)

/-! ### Estimates -/

/-- An estimate that is finite and not negative, and goes on to be: its weight is between zero
and one. -/
structure Estimate.Finite (e : Estimate Float) : Prop where
  alpha_nonneg : 0.0 ≤ e.alpha
  alpha_le : e.alpha ≤ 1.0
  finite : e.value.isFinite = true
  nonneg : 0.0 ≤ e.value

/-- **An estimate starts finite** if its first value is, and its weight is a number. -/
theorem Estimate.finite_start (exp : Float → Float) {alpha initial : Float} (halpha : alpha ≤ alpha)
    (hfinite : initial.isFinite = true) : letI := Scalar.double exp
    (Estimate.start alpha initial).Finite := by
  let _ := Scalar.double exp
  have hunit : (0.0 : Float) ≤ 1.0 := isProbability_zero.2
  have hweight := clamp_bounds exp alpha hunit (isNumber_clamp exp hunit halpha)
  have hvalue : (Scalar.max initial 0.0).isFinite = true ∧ 0.0 ≤ Scalar.max initial 0.0 := by
    rcases max_cases exp initial stands_zero.isNumber with ⟨hlt, h⟩ | ⟨-, h⟩
    · rw [h]
      exact ⟨hfinite, Double.le_of_lt hlt⟩
    · rw [h]
      exact ⟨isFinite_iff.mpr ⟨0, stands_zero⟩, stands_zero.isNumber⟩
  exact ⟨hweight.1, hweight.2, hvalue.1, hvalue.2⟩

/-- **A measurement keeps an estimate finite**: it counts timesteps, and there are few of them
beside the greatest finite number. -/
theorem Estimate.Finite.update {e : Estimate Float} (he : e.Finite) {n : ℕ} (hn : n < 2 ^ 64) :
    letI := Scalar.double exp
    (e.update (Scalar.ofNat n)).Finite := by
  let _ := Scalar.double exp
  obtain ⟨a, ha, ha0, ha1⟩ :=
    exists_stands_of_between stands_zero stands_one he.alpha_nonneg he.alpha_le
  obtain ⟨v, hv⟩ := isFinite_iff.mp he.finite
  have hv0 := he.nonneg
  rw [stands_zero.le_iff hv, EReal.coe_le_coe_iff, Rat.cast_le] at hv0
  -- the new share is small, and the old one no more than the value was: rounding keeps both so
  obtain ⟨m, hm, hm0, hm1⟩ := exists_stands_ofNat hn
  obtain ⟨new, hnew, hnew0, hnew1⟩ := (ha.mul hm).exists_stands stands_zero stands_wordCount
    (mul_nonneg ha0 hm0) ((mul_le_of_le_one_left hm0 ha1).trans hm1)
  obtain ⟨b, hb, hb0, hb1⟩ := (stands_one.sub ha).exists_stands stands_zero stands_one
    (sub_nonneg.mpr ha1) (sub_le_self 1 ha0)
  obtain ⟨old, hold, hold0, -⟩ := (hb.mul hv).exists_stands stands_zero hv
    (mul_nonneg hb0 hv0) (mul_le_of_le_one_left hv0 hb1)
  exact ⟨he.alpha_nonneg, he.alpha_le, hnew.isFinite_add hold hnew0 hnew1 hold0,
    (hnew.add hold).ge stands_zero (add_nonneg hnew0 hold0)⟩

end TaskAllocation
