import Mathlib.Analysis.SpecialFunctions.Exp
import TaskAllocation.Likelihood
import TaskAllocation.Proofs.Exact

/-!
# The direction of curves

Whether a curve climbs or falls is decided by its steepness and its height together: the exponent
falls where the steepness is positive, and the more the exponent is, the less is left of a positive
height.  A curve that climbs gives each of the three decisions its direction, by which of two times
stands above the other in the ratio that the curve is read at.  Giving up gets likelier with the
time that has passed, running the whole with what the parts take, and staying with what the target
takes.

That times are raised and exponents are kept within bounds makes these functions constant in
places, but turns none of them.  Of the exponential nothing else is used than that it is positive
and does not fall.

## Main results

* `Logistic.monotone_eval`, `Logistic.antitone_eval` — **where a curve climbs, and where it falls.**
* `monotone_timeRatio`, `antitone_timeRatio` — a ratio grows with the one time and falls with the
  other.
* `direction_of_curves` — **the direction of the three decisions.**
-/

namespace TaskAllocation

variable {K : Type} [Field K] [LinearOrder K] {exp : K → K}

/-! ### Exact arithmetic -/

theorem timeRatio_exact (exp : K → K) (time base : K) :
    @timeRatio K (Scalar.exact exp) time base = max time 1e-6 / max base 1e-6 := by
  let _ := Scalar.exact exp
  rw [timeRatio, Scalar.max_exact exp, Scalar.max_exact exp, leastTime]

theorem AbortCurve.prob_exact (exp : K → K) (c : AbortCurve K) (elapsed estimate : K) :
    @AbortCurve.prob K (Scalar.exact exp) c elapsed estimate =
      max (@Logistic.eval K (Scalar.exact exp) c.curve
        (@timeRatio K (Scalar.exact exp) elapsed estimate)) c.minProb :=
  Scalar.max_exact exp _ _

variable [IsStrictOrderedRing K]

/-! ### Curves -/

namespace Logistic

variable {c : Logistic K}

theorem exponent_exact (exp : K → K) (c : Logistic K) (x : K) :
    @exponent K (Scalar.exact exp) c x =
      min 700 (max (-700) (c.reactivity * (c.offset - x))) := by
  let _ := Scalar.exact exp
  have hbound : (700.0 : K) = 700 := by norm_num
  rw [exponent, hbound, Scalar.clamp_exact exp _ (by norm_num)]

theorem eval_exact (exp : K → K) (c : Logistic K) (x : K) :
    @eval K (Scalar.exact exp) c x =
      c.gamma / (1 + exp (@exponent K (Scalar.exact exp) c x)) := by
  let _ := Scalar.exact exp
  have hone : (1.0 : K) = 1 := by norm_num
  rw [eval, hone]
  rfl

/-- The exponent of a curve with positive steepness falls. -/
theorem antitone_exponent (h : 0 ≤ c.reactivity) :
    Antitone (@exponent K (Scalar.exact exp) c) := by
  intro x y hxy
  have hle : c.reactivity * (c.offset - y) ≤ c.reactivity * (c.offset - x) :=
    mul_le_mul_of_nonneg_left (sub_le_sub_left hxy _) h
  rw [exponent_exact, exponent_exact]
  exact min_le_min_left _ (max_le_max_left _ hle)

theorem monotone_exponent (h : c.reactivity ≤ 0) :
    Monotone (@exponent K (Scalar.exact exp) c) := by
  intro x y hxy
  have hle : c.reactivity * (c.offset - x) ≤ c.reactivity * (c.offset - y) :=
    mul_le_mul_of_nonpos_left (sub_le_sub_left hxy _) h
  rw [exponent_exact, exponent_exact]
  exact min_le_min_left _ (max_le_max_left _ hle)

section Exponential

variable (hpos : ∀ x, 0 < exp x) (hmono : Monotone exp)
include hpos hmono

/-- The more the exponent is, the less is left of a positive height. -/
theorem antitone_height {gamma : K} (h : 0 ≤ gamma) :
    Antitone fun exponent => gamma / (1 + exp exponent) := by
  intro s t hst
  have hdenominator : 1 + exp s ≤ 1 + exp t := by
    have := hmono hst
    gcongr
  exact div_le_div_of_nonneg_left h (add_pos one_pos (hpos s)) hdenominator

theorem monotone_height {gamma : K} (h : gamma ≤ 0) :
    Monotone fun exponent => gamma / (1 + exp exponent) := by
  intro s t hst
  have hneg := antitone_height hpos hmono (neg_nonneg.mpr h) hst
  simp only [neg_div] at hneg
  exact neg_le_neg_iff.mp hneg

/-- **A curve climbs** if its steepness and its height have the same sign, or one of them is
zero. -/
theorem monotone_eval (h : 0 ≤ c.reactivity * c.gamma) :
    Monotone (@eval K (Scalar.exact exp) c) := by
  rw [funext (eval_exact exp c)]
  rcases mul_nonneg_iff.mp h with ⟨hreactivity, hgamma⟩ | ⟨hreactivity, hgamma⟩
  · exact (antitone_height hpos hmono hgamma).comp (antitone_exponent hreactivity)
  · exact (monotone_height hpos hmono hgamma).comp (monotone_exponent hreactivity)

/-- **A curve falls** if their signs differ. -/
theorem antitone_eval (h : c.reactivity * c.gamma ≤ 0) :
    Antitone (@eval K (Scalar.exact exp) c) := by
  rw [funext (eval_exact exp c)]
  rcases mul_nonpos_iff.mp h with ⟨hreactivity, hgamma⟩ | ⟨hreactivity, hgamma⟩
  · exact (monotone_height hpos hmono hgamma).comp_antitone (antitone_exponent hreactivity)
  · exact (antitone_height hpos hmono hgamma).comp_monotone (monotone_exponent hreactivity)

end Exponential

end Logistic

/-! ### Ratios -/

theorem leastTime_pos (base : K) : 0 < max base 1e-6 :=
  lt_max_of_lt_right (by norm_num)

theorem monotone_timeRatio (exp : K → K) (base : K) :
    Monotone fun time => @timeRatio K (Scalar.exact exp) time base := by
  intro s t hst
  simp only [timeRatio_exact]
  exact div_le_div_of_nonneg_right (max_le_max_right _ hst) (leastTime_pos base).le

theorem antitone_timeRatio (exp : K → K) (time : K) :
    Antitone fun base => @timeRatio K (Scalar.exact exp) time base := by
  intro s t hst
  simp only [timeRatio_exact]
  exact div_le_div_of_nonneg_left (leastTime_pos time).le (leastTime_pos s)
    (max_le_max_right _ hst)

/-- Of two times the ratio of the greater to the lesser is the greater one. -/
theorem timeRatio_le_timeRatio (exp : K → K) {s t : K} (h : s ≤ t) :
    @timeRatio K (Scalar.exact exp) s t ≤ @timeRatio K (Scalar.exact exp) t s :=
  (monotone_timeRatio exp t h).trans (antitone_timeRatio exp t h)

/-! ### Decisions -/

section Decisions

variable (hpos : ∀ x, 0 < exp x) (hmono : Monotone exp) {c : Logistic K}
  (hclimbs : 0 ≤ c.reactivity * c.gamma)
include hpos hmono hclimbs

/-- Giving up a task gets likelier the longer it has run. -/
theorem AbortCurve.monotone_prob (minProb estimate : K) :
    Monotone fun elapsed =>
      @AbortCurve.prob K (Scalar.exact exp) { curve := c, minProb := minProb } elapsed
        estimate := by
  simp only [prob_exact]
  exact ((Logistic.monotone_eval hpos hmono hclimbs).comp (monotone_timeRatio exp estimate)).max
    monotone_const

/-- It gets less likely the longer the task is thought to take. -/
theorem AbortCurve.antitone_prob (minProb elapsed : K) :
    Antitone fun estimate =>
      @AbortCurve.prob K (Scalar.exact exp) { curve := c, minProb := minProb } elapsed
        estimate := by
  simp only [prob_exact]
  exact ((Logistic.monotone_eval hpos hmono hclimbs).comp_antitone
    (antitone_timeRatio exp elapsed)).max antitone_const

end Decisions

/-- **The direction of the three decisions.**  A curve climbs or falls as the signs of its
steepness and its height tell.  Where neither is negative, giving up gets likelier with the time
that has passed and less likely with the estimate, and is never less likely than laid down; running
the whole gets likelier with the estimates of the parts and less likely with that of the whole; and
staying gets less likely with the estimate of the source and likelier with that of the target, so
that of the ways between two tasks the one to the longer task is the less likely to be gone. -/
theorem direction_of_curves (hpos : ∀ x, 0 < exp x) (hmono : Monotone exp) (c : Logistic K) :
    letI := Scalar.exact exp
    (0 ≤ c.reactivity * c.gamma → Monotone c.eval) ∧
      (c.reactivity * c.gamma ≤ 0 → Antitone c.eval) ∧
      (0 ≤ c.reactivity → 0 ≤ c.gamma →
        (∀ minProb,
          let abort : AbortCurve K := { curve := c, minProb := minProb }
          (∀ estimate, Monotone fun elapsed => abort.prob elapsed estimate) ∧
            (∀ elapsed, Antitone fun estimate => abort.prob elapsed estimate) ∧
            ∀ elapsed estimate, minProb ≤ abort.prob elapsed estimate) ∧
          (∀ whole, Monotone fun parts => wholeProb c parts whole) ∧
          (∀ parts, Antitone fun whole => wholeProb c parts whole) ∧
          (∀ target, Antitone fun source => stayProb c source target) ∧
          (∀ source, Monotone fun target => stayProb c source target) ∧
          ∀ a p, (a ≤ p → stayProb c p a ≤ stayProb c a p) ∧
            (p ≤ a → stayProb c a p ≤ stayProb c p a)) := by
  refine ⟨Logistic.monotone_eval hpos hmono, Logistic.antitone_eval hpos hmono, ?_⟩
  intro hreactivity hgamma
  have hclimbs : 0 ≤ c.reactivity * c.gamma := mul_nonneg hreactivity hgamma
  have hmonotone := Logistic.monotone_eval hpos hmono hclimbs
  refine ⟨fun minProb => ⟨AbortCurve.monotone_prob hpos hmono hclimbs minProb,
    AbortCurve.antitone_prob hpos hmono hclimbs minProb, ?_⟩, ?_, ?_, ?_, ?_, ?_⟩
  · intro elapsed estimate
    rw [AbortCurve.prob_exact]
    exact le_max_right _ _
  · exact fun whole => hmonotone.comp (monotone_timeRatio exp whole)
  · exact fun parts => hmonotone.comp_antitone (antitone_timeRatio exp parts)
  · exact fun target => hmonotone.comp_antitone (antitone_timeRatio exp target)
  · exact fun source => hmonotone.comp (monotone_timeRatio exp source)
  · exact fun a p => ⟨fun h => hmonotone (timeRatio_le_timeRatio exp h),
      fun h => hmonotone (timeRatio_le_timeRatio exp h)⟩

/-- With the exponential of the reals and the curves that are used where nothing else is asked
for: giving up a task that is estimated at 10 is likelier after 20 than after 2, and one that is
estimated at nothing is given up at least as likely as laid down; staying is likelier where the
way leads from 2 to 4 than where it leads back; and a curve that is turned around falls. -/
theorem direction_of_curves_standard :
    letI := Scalar.exact Real.exp
    AbortCurve.standard.prob (2 : ℝ) 10 ≤ AbortCurve.standard.prob 20 10 ∧
      (0.0001 : ℝ) ≤ AbortCurve.standard.prob (-1) 0 ∧
      stayProb Logistic.standard (4 : ℝ) 2 ≤ stayProb Logistic.standard 2 4 ∧
      Antitone ({ reactivity := -1.5, offset := 1, gamma := 1 } : Logistic ℝ).eval := by
  let _ := Scalar.exact Real.exp
  obtain ⟨-, -, habort⟩ := direction_of_curves Real.exp_pos Real.exp_monotone
    (AbortCurve.standard (S := ℝ)).curve
  obtain ⟨-, -, hstandard⟩ := direction_of_curves Real.exp_pos Real.exp_monotone
    (Logistic.standard (S := ℝ))
  obtain ⟨-, hfalls, -⟩ := direction_of_curves Real.exp_pos Real.exp_monotone
    { reactivity := -1.5, offset := 1, gamma := 1 }
  obtain ⟨hprob, -⟩ :=
    habort (by norm_num [AbortCurve.standard]) (by norm_num [AbortCurve.standard])
  obtain ⟨-, -, -, -, -, hways⟩ :=
    hstandard (by norm_num [Logistic.standard]) (by norm_num [Logistic.standard])
  obtain ⟨hmonotone, -, hfloor⟩ := hprob 0.0001
  refine ⟨hmonotone 10 (by norm_num), hfloor (-1) 0, (hways 2 4).1 (by norm_num), hfalls ?_⟩
  norm_num

end TaskAllocation
