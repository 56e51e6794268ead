import Mathlib
import TaskAllocation.Decimal

/-!
# Rounding to double precision

An operation in double precision works out a mantissa with two more bits: the digit behind it,
and whether anything follows.  That places the exact result between two multiples of half a unit,
and it is all that rounding to the nearest number asks for.  Seen from the number that comes out,
the results that are rounded to it fill an interval, whose ends belong to it if its mantissa is
even.  The interval is narrower below a power of two, where the smaller numbers are closer to
each other.

## Main definitions

* `Double.Locates` — what a mantissa with two more bits tells of the exact result.
* `Double.Nearest` — the nearest whole number.
* `Dyadic.Fits` — the positive numbers that double precision can hold.
* `Dyadic.Near` — the interval around a number.

## Main results

* `Dyadic.Fits.roundWithAccuracy_eq` — what lies in the interval around a number is rounded to it.
* `Dyadic.Fits.mul_eq`, `Dyadic.Fits.div_eq` — a product or a quotient in the interval around a
  number is that number.
-/

namespace TaskAllocation.Double

open Float.Model Float.Model.UnpackedFloat

variable {em : ExtendedMantissa} {x v : ℚ} {m k : ℕ} {e q : ℤ} {acc : Accuracy} {sign : Sign}

/-! ### Mantissas with two more bits -/

/-- The exact magnitude in units of the last digit of a mantissa, as far as the round bit
and the sticky bit behind it tell. -/
def Locates (em : ExtendedMantissa) (x : ℚ) : Prop :=
  let low : ℚ := em.mantissa + if em.roundBit then 1 / 2 else 0
  if em.stickyBit then low < x ∧ x < low + 1 / 2 else x = low

theorem Locates.exact (m : ℕ) :
    Locates (ExtendedMantissa.ofMantissaAndAccuracy m .exact) m := by
  simp [Locates, ExtendedMantissa.ofMantissaAndAccuracy]

theorem Locates.le (h : Locates em x) : (em.mantissa : ℚ) ≤ x := by
  obtain ⟨m, r, s⟩ := em
  cases r <;> cases s <;> simp only [Locates, if_true, if_false, Bool.false_eq_true] at h ⊢ <;>
    linarith

theorem Locates.lt (h : Locates em x) : x < em.mantissa + 1 := by
  obtain ⟨m, r, s⟩ := em
  cases r <;> cases s <;> simp only [Locates, if_true, if_false, Bool.false_eq_true] at h ⊢ <;>
    linarith

/-- Without its last digit a mantissa still tells the same, in units twice as large. -/
theorem Locates.shiftRightOne (h : Locates em x) : Locates em.shiftRightOne (x / 2) := by
  obtain ⟨m, r, s⟩ := em
  obtain ⟨k, rfl | rfl⟩ : ∃ k, m = 2 * k ∨ m = 2 * k + 1 := ⟨m / 2, by omega⟩
  · have hdiv : 2 * k / 2 = k := by omega
    cases r <;> cases s <;>
      simp [Locates, ExtendedMantissa.shiftRightOne, hdiv] at h ⊢ <;>
      first | (constructor <;> linarith) | linarith
  · have hdiv : (2 * k + 1) / 2 = k := by omega
    have hmod : (2 * k + 1) % 2 = 1 := by omega
    cases r <;> cases s <;>
      simp [Locates, ExtendedMantissa.shiftRightOne, hdiv, hmod] at h ⊢ <;>
      first | (constructor <;> linarith) | linarith

theorem Locates.shiftRight (h : Locates em x) (n : ℕ) : Locates (em >>> n) (x / 2 ^ n) := by
  change Locates (n.repeat ExtendedMantissa.shiftRightOne em) _
  induction n with
  | zero => simpa [Nat.repeat] using h
  | succ n ih =>
    rw [Nat.repeat, pow_succ, ← div_div]
    exact ih.shiftRightOne

/-! ### The nearest whole number -/

/-- `k` is the whole number nearest to `x`, and the even one of two that are equally near. -/
def Nearest (x : ℚ) (k : ℕ) : Prop :=
  if k % 2 = 0 then k - 1 / 2 ≤ x ∧ x ≤ k + 1 / 2 else k - 1 / 2 < x ∧ x < k + 1 / 2

theorem Nearest.bounds (h : Nearest x k) : k - 1 / 2 ≤ x ∧ x ≤ k + 1 / 2 := by
  unfold Nearest at h
  split at h
  · exact h
  · exact ⟨h.1.le, h.2.le⟩

/-- The mantissa is rounded to the nearest whole number. -/
theorem roundedMantissa_eq (h : Locates em x) (hk : Nearest x k) : em.roundedMantissa = k := by
  obtain ⟨hlow, hhigh⟩ := hk.bounds
  obtain ⟨m, r, s⟩ := em
  have hnat {a b : ℕ} (hab : (a : ℚ) < b + 1) : a ≤ b := by
    have : a < b + 1 := by exact_mod_cast hab
    omega
  cases r <;> cases s <;>
    simp only [Locates, ExtendedMantissa.roundedMantissa, ExtendedMantissa.accuracy,
      Accuracy.roundToNearestEven, if_true, if_false, Bool.false_eq_true] at h ⊢
  · exact le_antisymm (hnat (by linarith)) (hnat (by linarith))
  · exact le_antisymm (hnat (by linarith)) (hnat (by linarith))
  · -- halfway between two whole numbers: the odd one of them is not nearest
    have hle : m ≤ k := hnat (by linarith)
    have hge : k ≤ m + 1 := hnat (by push_cast; linarith)
    have heven : k % 2 = 0 := by
      by_contra hodd
      rw [Nearest, if_neg hodd] at hk
      obtain rfl | rfl : k = m ∨ k = m + 1 := by omega
      · linarith
      · push_cast at hk; linarith
    omega
  · exact le_antisymm (hnat (by push_cast; linarith)) (hnat (by push_cast; linarith))

/-! ### Exponents -/

/-- The exponent that a number of a given magnitude is rounded to. -/
def target (m : ℕ) (e : ℤ) : ℤ := max (m.log2 + 1 + e - 53) (-1074)

theorem shiftToTargetExponent_eq (m : ℕ) (e : ℤ) (acc : Accuracy) :
    shiftToTargetExponent .binary64 m e acc
      = (ExtendedMantissa.ofMantissaAndAccuracy m acc >>> (target m e - e).toNat,
          e + (target m e - e).toNat) := rfl

theorem mantissa_ofMantissaAndAccuracy (m : ℕ) (acc : Accuracy) :
    (ExtendedMantissa.ofMantissaAndAccuracy m acc).mantissa = m := by
  cases acc with
  | exact => rfl
  | inexact o => cases o <;> rfl

theorem lt_two_zpow (hx : Locates (ExtendedMantissa.ofMantissaAndAccuracy m acc) x) (e : ℤ) :
    x * 2 ^ e < 2 ^ (m.log2 + 1 + e : ℤ) := by
  have hlt := hx.lt
  rw [mantissa_ofMantissaAndAccuracy] at hlt
  have hm : (m : ℚ) + 1 ≤ 2 ^ (m.log2 + 1) := by exact_mod_cast Nat.lt_log2_self
  rw [zpow_add₀ two_ne_zero]
  refine mul_lt_mul_of_pos_right (hlt.trans_le ?_) (by positivity)
  exact_mod_cast hm

theorem two_zpow_le (hx : Locates (ExtendedMantissa.ofMantissaAndAccuracy m acc) x) (hm : m ≠ 0)
    (e : ℤ) : 2 ^ (m.log2 + e : ℤ) ≤ x * 2 ^ e := by
  have hle := hx.le
  rw [mantissa_ofMantissaAndAccuracy] at hle
  have hlog : (2 : ℚ) ^ m.log2 ≤ m := by exact_mod_cast Nat.log2_self_le hm
  rw [zpow_add₀ two_ne_zero]
  refine mul_le_mul_of_nonneg_right (le_trans ?_ hle) (by positivity)
  exact_mod_cast hlog

/-- A number below the binade of `q` is not rounded to a greater exponent. -/
theorem target_le (hx : Locates (ExtendedMantissa.ofMantissaAndAccuracy m acc) x)
    (he : e ≤ target m e) (hq : -1074 ≤ q) (h : x * 2 ^ e < 2 ^ (53 + q)) : target m e ≤ q := by
  by_cases hm : m = 0
  · subst hm
    simp only [target, Nat.log2_zero] at he ⊢
    omega
  · have := (zpow_lt_zpow_iff_right₀ one_lt_two).1 ((two_zpow_le hx hm e).trans_lt h)
    simp only [target]
    omega

/-- A number in the binade of `q` or above is not rounded to a smaller exponent. -/
theorem le_target (hx : Locates (ExtendedMantissa.ofMantissaAndAccuracy m acc) x)
    (h : 2 ^ (52 + q) ≤ x * 2 ^ e) : q ≤ target m e := by
  have := (zpow_lt_zpow_iff_right₀ one_lt_two).1 (h.trans_lt (lt_two_zpow hx e))
  simp only [target]
  omega

/-! ### Rounding -/

/-- A mantissa that fits is left as it is. -/
theorem shiftToTargetExponent_of_lt (hk : k < 2 ^ 53) (hq : -1074 ≤ q) :
    shiftToTargetExponent .binary64 k q .exact
      = (ExtendedMantissa.ofMantissaAndAccuracy k .exact, q) := by
  have hlog : k.log2 < 53 := by
    by_cases hz : k = 0
    · simp [hz]
    · exact (Nat.log2_lt hz).2 hk
  have hshift : (target k q - q).toNat = 0 := by
    simp only [target]
    omega
  rw [shiftToTargetExponent_eq, hshift]
  simp [HShiftRight.hShiftRight, Nat.repeat]

/-- A mantissa that is one unit too large takes the next exponent. -/
theorem shiftToTargetExponent_of_eq (hq : -1074 ≤ q) :
    shiftToTargetExponent .binary64 (2 ^ 53) q .exact
      = (ExtendedMantissa.ofMantissaAndAccuracy (2 ^ 52) .exact, q + 1) := by
  have hshift : (target (2 ^ 53) q - q).toNat = 1 := by
    simp only [target, Nat.log2_two_pow]
    omega
  rw [shiftToTargetExponent_eq, hshift]
  rfl

/-- Rounding, when the exponent `q` and the nearest whole number of units are known. -/
theorem roundWithAccuracy_of_nearest
    (hx : Locates (ExtendedMantissa.ofMantissaAndAccuracy m acc) x) (he : e ≤ target m e)
    (h : Nearest (x * 2 ^ e / 2 ^ target m e) k) {k' : ℕ} {q' : ℤ} (hk' : 0 < k')
    (hshift : shiftToTargetExponent .binary64 k (target m e) .exact
      = (ExtendedMantissa.ofMantissaAndAccuracy k' .exact, q')) :
    roundWithAccuracy .binary64 sign m e acc = .finite sign k' q' hk' := by
  have hscale : x * 2 ^ e / 2 ^ target m e = x / 2 ^ (target m e - e).toNat := by
    have hcast : (2 : ℚ) ^ (target m e - e).toNat = 2 ^ target m e / 2 ^ e := by
      rw [← zpow_natCast, Int.toNat_of_nonneg (by omega), zpow_sub₀ two_ne_zero]
    rw [hcast]
    field_simp
  rw [hscale] at h
  have hrounded := roundedMantissa_eq (hx.shiftRight _) h
  have hexponent : e + (target m e - e).toNat = target m e := by omega
  simp only [roundWithAccuracy, shiftToTargetExponent_eq m e acc, hrounded, hexponent, hshift]
  exact dif_neg hk'.ne'

end TaskAllocation.Double

namespace TaskAllocation.Dyadic

open Float.Model Float.Model.UnpackedFloat Double

/-! ### Intervals -/

/-- The number that the digits stand for. -/
def value (d : Dyadic) : ℚ := d.mantissa * 2 ^ d.exponent

/-- A positive number that double precision can hold. -/
structure Fits (d : Dyadic) : Prop where
  pos : 0 < d.mantissa
  lt : d.mantissa < 2 ^ 53
  le_exponent : -1074 ≤ d.exponent
  exponent_le : d.exponent ≤ 971
  /-- Only the numbers with the least exponent may have fewer than 53 digits. -/
  normal : 2 ^ 52 ≤ d.mantissa ∨ d.exponent = -1074
  /-- The next smaller number is nearer where the exponent changes. -/
  narrow : d.narrowBelow = true ↔ d.mantissa = 2 ^ 52 ∧ -1074 < d.exponent

/-- The numbers that are rounded to `d`: those between the ends of its interval, and the ends
if the mantissa is even. -/
def Near (d : Dyadic) (v : ℚ) : Prop :=
  let y := 4 * v / 2 ^ d.exponent
  if d.mantissa % 2 = 0 then d.lowerEnd ≤ y ∧ y ≤ d.upperEnd else d.lowerEnd < y ∧ y < d.upperEnd

variable {d : Dyadic} {v x : ℚ} {m : ℕ} {e : ℤ} {acc : Accuracy}

theorem Near.bounds (h : d.Near v) :
    d.lowerEnd ≤ 4 * v / 2 ^ d.exponent ∧ 4 * v / 2 ^ d.exponent ≤ d.upperEnd := by
  simp only [Near] at h
  split at h
  · exact h
  · exact ⟨h.1.le, h.2.le⟩

/-- The lower end is at most half a unit below the number. -/
theorem lowerEnd_ge (h : 0 < d.mantissa) : (4 * d.mantissa - 2 : ℚ) ≤ d.lowerEnd := by
  have : 4 * d.mantissa ≤ d.lowerEnd + 2 := by
    unfold lowerEnd
    split <;> omega
  have : (4 * d.mantissa : ℚ) ≤ d.lowerEnd + 2 := by exact_mod_cast this
  linarith

theorem upperEnd_eq (d : Dyadic) : (d.upperEnd : ℚ) = 4 * d.mantissa + 2 := by
  simp [upperEnd]

/-- A number in the interval of `d` is less than the first one with a greater exponent. -/
theorem Fits.lt_of_near (h : d.Fits) (hv : d.Near v) : v < 2 ^ (53 + d.exponent) := by
  have hmax : (d.mantissa : ℚ) + 1 ≤ 2 ^ 53 := by exact_mod_cast h.lt
  have hhigh := hv.bounds.2
  rw [upperEnd_eq, div_le_iff₀ (by positivity)] at hhigh
  have hunit : (0 : ℚ) < 2 ^ d.exponent := by positivity
  rw [zpow_add₀ two_ne_zero, show (2 : ℚ) ^ (53 : ℤ) = 2 ^ 53 from rfl]
  nlinarith

/-- In units of the last digit of `d`, it is the whole number nearest to what lies in its
interval. -/
theorem Near.nearest (h : 0 < d.mantissa) (hv : d.Near v) :
    Nearest (v / 2 ^ d.exponent) d.mantissa := by
  have hend := lowerEnd_ge h
  have hup := upperEnd_eq d
  simp only [Near, mul_div_assoc] at hv
  simp only [Nearest]
  split at hv
  · rw [if_pos ‹_›]
    constructor <;> linarith [hv.1, hv.2]
  · rw [if_neg ‹_›]
    constructor <;> linarith [hv.1, hv.2]

/-- Below the least mantissa with an exponent of its own, what lies in the interval is nearest
to a whole number of smaller units, and that is one unit too many for a mantissa. -/
theorem Fits.nearest_of_lt (h : d.Fits) (hv : d.Near v) (hq : -1074 < d.exponent)
    (hlt : v < 2 ^ (52 + d.exponent)) :
    d.mantissa = 2 ^ 52 ∧ 2 ^ (52 + (d.exponent - 1)) ≤ v ∧
      Nearest (v / 2 ^ (d.exponent - 1)) (2 ^ 53) := by
  have hunit : (0 : ℚ) < 2 ^ d.exponent := by positivity
  obtain ⟨hlow, -⟩ := hv.bounds
  have hy : v / 2 ^ d.exponent < 2 ^ 52 := by
    rw [div_lt_iff₀ hunit]
    rwa [zpow_add₀ two_ne_zero] at hlt
  rw [mul_div_assoc] at hlow
  have hmantissa : d.mantissa = 2 ^ 52 := by
    have hge : 2 ^ 52 ≤ d.mantissa := h.normal.resolve_right (by omega)
    have hle : (d.mantissa : ℚ) < 2 ^ 52 + 1 := by linarith [lowerEnd_ge h.pos]
    have : d.mantissa < 2 ^ 52 + 1 := by exact_mod_cast hle
    omega
  have hend : (d.lowerEnd : ℚ) = 2 ^ 54 - 1 := by
    have : d.lowerEnd + 1 = 2 ^ 54 := by
      rw [lowerEnd, if_pos (h.narrow.2 ⟨hmantissa, hq⟩), hmantissa]
      norm_num
    have : (d.lowerEnd : ℚ) + 1 = 2 ^ 54 := by exact_mod_cast this
    linarith
  have hhalf : v / 2 ^ (d.exponent - 1) = 2 * (v / 2 ^ d.exponent) := by
    rw [zpow_sub₀ two_ne_zero]
    field_simp
  refine ⟨hmantissa, ?_, ?_⟩
  · rw [zpow_add₀ two_ne_zero, ← le_div_iff₀ (by positivity), hhalf]
    have : (2 : ℚ) ^ (52 : ℤ) = 2 ^ 52 := rfl
    linarith
  · rw [hhalf, Nearest, if_pos (by decide)]
    push_cast
    constructor <;> linarith

/-- **What lies in the interval around a number is rounded to it.** -/
theorem Fits.roundWithAccuracy_eq (h : d.Fits) (sign : Sign)
    (hx : Locates (ExtendedMantissa.ofMantissaAndAccuracy m acc) x) (he : e ≤ target m e)
    (hv : d.Near (x * 2 ^ e)) :
    roundWithAccuracy .binary64 sign m e acc = .finite sign d.mantissa d.exponent h.pos := by
  obtain heq | hless := (target_le hx he h.le_exponent (h.lt_of_near hv)).eq_or_lt
  · refine roundWithAccuracy_of_nearest hx he (k := d.mantissa) ?_ h.pos ?_
    · rw [heq]
      exact hv.nearest h.pos
    · rw [heq]
      exact shiftToTargetExponent_of_lt h.lt h.le_exponent
  · -- the number lies below the binade of `d`, and so has an exponent less by one
    have hmin : -1074 ≤ target m e := le_max_right _ _
    have hlt : x * 2 ^ e < 2 ^ (52 + d.exponent) := by
      by_contra hge
      exact absurd (le_target hx (not_lt.1 hge)) (by omega)
    obtain ⟨hmantissa, hge, hnearest⟩ := h.nearest_of_lt hv (by omega) hlt
    have heq : target m e = d.exponent - 1 := by
      have := le_target hx hge
      omega
    have hshift : shiftToTargetExponent .binary64 (2 ^ 53) (target m e) .exact
        = (ExtendedMantissa.ofMantissaAndAccuracy d.mantissa .exact, d.exponent) := by
      rw [shiftToTargetExponent_of_eq hmin, hmantissa, heq, sub_add_cancel]
    refine roundWithAccuracy_of_nearest hx he ?_ h.pos hshift
    rw [heq]
    exact hnearest

/-! ### Products and quotients -/

variable {k₁ k₂ : ℕ} {e₁ e₂ : ℤ}

/-- A product with enough digits. -/
theorem Fits.mul_eq (h : d.Fits) (s₁ s₂ : Sign) (h₁ : 0 < k₁) (h₂ : 0 < k₂) (hk : 2 ^ 52 ≤ k₁ * k₂)
    (hv : d.Near (k₁ * 2 ^ e₁ * (k₂ * 2 ^ e₂))) :
    UnpackedFloat.mul .binary64 (.finite s₁ k₁ e₁ h₁) (.finite s₂ k₂ e₂ h₂)
      = .finite (s₁ * s₂) d.mantissa d.exponent h.pos := by
  have hlog : 52 ≤ (k₁ * k₂).log2 := (Nat.le_log2 (by positivity)).2 hk
  refine h.roundWithAccuracy_eq (s₁ * s₂) (Locates.exact (k₁ * k₂)) ?_ ?_
  · simp only [target]
    omega
  · rw [zpow_add₀ two_ne_zero, Nat.cast_mul, mul_mul_mul_comm]
    exact hv

/-- What is left of a quotient is told by its accuracy. -/
theorem locates_div (n : ℕ) {k : ℕ} (hk : 0 < k) :
    Locates (ExtendedMantissa.ofMantissaAndAccuracy (n / k) (accuracyOfFraction (n % k) k))
      (n / k) := by
  have hk' : (0 : ℚ) < k := by exact_mod_cast hk
  have hquotient : (n : ℚ) / k = (n / k : ℕ) + (n % k : ℕ) / k := by
    have : (n : ℚ) = k * (n / k : ℕ) + (n % k : ℕ) := by exact_mod_cast (Nat.div_add_mod n k).symm
    rw [this]
    field_simp
  have hlt : ((n % k : ℕ) : ℚ) < k := by exact_mod_cast Nat.mod_lt n hk
  rw [hquotient]
  generalize n % k = r at hlt
  have hone : (r : ℚ) / k < 1 := (div_lt_one hk').2 hlt
  unfold accuracyOfFraction
  split
  · next hr => simp [Locates, ExtendedMantissa.ofMantissaAndAccuracy, hr]
  · next hr =>
    have hpos : 0 < (r : ℚ) / k := div_pos (by exact_mod_cast Nat.pos_of_ne_zero hr) hk'
    cases hcompare : compare (2 * r) k with
    | lt =>
      have : (2 * r : ℚ) < k := by exact_mod_cast Nat.compare_eq_lt.1 hcompare
      have hhalf : (r : ℚ) / k < 1 / 2 := by
        rw [div_lt_iff₀ hk']
        linarith
      simp [Locates, ExtendedMantissa.ofMantissaAndAccuracy]
      constructor <;> linarith
    | eq =>
      have : (2 * r : ℚ) = k := by exact_mod_cast Nat.compare_eq_eq.1 hcompare
      have hhalf : (r : ℚ) / k = 1 / 2 := by
        rw [div_eq_iff hk'.ne']
        linarith
      simp [Locates, ExtendedMantissa.ofMantissaAndAccuracy, hhalf]
    | gt =>
      have : (k : ℚ) < 2 * r := by exact_mod_cast Nat.compare_eq_gt.1 hcompare
      have hhalf : 1 / 2 < (r : ℚ) / k := by
        rw [lt_div_iff₀ hk']
        linarith
      simp [Locates, ExtendedMantissa.ofMantissaAndAccuracy]
      constructor <;> linarith

/-- The exponent of a quotient before it is rounded. -/
def quotientExponent (k₁ : ℕ) (e₁ : ℤ) (k₂ : ℕ) (e₂ : ℤ) : ℤ :=
  min (e₁ - e₂) (max (k₁.log2 + 1 + e₁ - (k₂.log2 + 1 + e₂) - 53) (-1074))

/-- A quotient is worked out to enough digits. -/
theorem quotientExponent_le (h₁ : 0 < k₁) (h₂ : 0 < k₂) {t : ℤ}
    (ht : t = quotientExponent k₁ e₁ k₂ e₂) :
    t ≤ target (k₁ <<< (e₁ - e₂ - t).toNat / k₂) t := by
  simp only [target, quotientExponent] at ht ⊢
  by_cases hmin : t ≤ -1074
  · omega
  · have hlog : 52 ≤ (k₁ <<< (e₁ - e₂ - t).toNat / k₂).log2 := by
      have hle : 2 ^ 52 ≤ k₁ <<< (e₁ - e₂ - t).toNat / k₂ := by
        rw [Nat.le_div_iff_mul_le h₂, Nat.shiftLeft_eq]
        have hexp : 52 + (k₂.log2 + 1) ≤ k₁.log2 + (e₁ - e₂ - t).toNat := by omega
        calc 2 ^ 52 * k₂ ≤ 2 ^ 52 * 2 ^ (k₂.log2 + 1) :=
              Nat.mul_le_mul_left _ Nat.lt_log2_self.le
          _ = 2 ^ (52 + (k₂.log2 + 1)) := (Nat.pow_add _ _ _).symm
          _ ≤ 2 ^ (k₁.log2 + (e₁ - e₂ - t).toNat) := Nat.pow_le_pow_right two_pos hexp
          _ = 2 ^ k₁.log2 * 2 ^ (e₁ - e₂ - t).toNat := Nat.pow_add _ _ _
          _ ≤ k₁ * 2 ^ (e₁ - e₂ - t).toNat :=
              Nat.mul_le_mul_right _ (Nat.log2_self_le h₁.ne')
      exact (Nat.le_log2 (by omega)).2 hle
    omega

/-- What a quotient is worked out to tells the exact one. -/
theorem exists_locates_divCore (h₁ : 0 < k₁) (h₂ : 0 < k₂) (e₁ e₂ : ℤ) : ∃ m t acc x,
    divCore .binary64 k₁ e₁ k₂ e₂ = (m, t, acc) ∧
      Locates (ExtendedMantissa.ofMantissaAndAccuracy m acc) x ∧ t ≤ target m t ∧
        x * 2 ^ t = k₁ * 2 ^ e₁ / (k₂ * 2 ^ e₂) := by
  obtain ⟨t, ht⟩ : ∃ t, t = quotientExponent k₁ e₁ k₂ e₂ := ⟨_, rfl⟩
  refine ⟨_, t, _, _, ?_, locates_div (k₁ <<< (e₁ - e₂ - t).toNat) h₂,
    quotientExponent_le h₁ h₂ ht, ?_⟩
  · subst ht
    rfl
  · have hle : t ≤ e₁ - e₂ := ht.trans_le (min_le_left _ _)
    have hk₂ : (k₂ : ℚ) ≠ 0 := by exact_mod_cast h₂.ne'
    rw [Nat.shiftLeft_eq, Nat.cast_mul, Nat.cast_pow, Nat.cast_ofNat, ← zpow_natCast,
      Int.toNat_of_nonneg (by omega), zpow_sub₀ two_ne_zero, zpow_sub₀ two_ne_zero]
    field_simp

/-- A quotient. -/
theorem Fits.div_eq (h : d.Fits) (s₁ s₂ : Sign) (h₁ : 0 < k₁) (h₂ : 0 < k₂)
    (hv : d.Near (k₁ * 2 ^ e₁ / (k₂ * 2 ^ e₂))) :
    UnpackedFloat.div .binary64 (.finite s₁ k₁ e₁ h₁) (.finite s₂ k₂ e₂ h₂)
      = .finite (s₁ / s₂) d.mantissa d.exponent h.pos := by
  obtain ⟨m, t, acc, x, hdiv, hx, ht, hvalue⟩ := exists_locates_divCore h₁ h₂ e₁ e₂
  simp only [UnpackedFloat.div, hdiv]
  refine h.roundWithAccuracy_eq (s₁ / s₂) hx ht ?_
  rwa [hvalue]

end TaskAllocation.Dyadic
