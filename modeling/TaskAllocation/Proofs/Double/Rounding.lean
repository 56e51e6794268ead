import TaskAllocation.Proofs.Double.Order

/-!
# Rounding keeps the order

An operation in double precision rounds its exact result, and rounding keeps the order: a number
that is no greater than the exact result is no greater than the rounded one, and a number that is
no less is no less.  That is all that bounds on results ask for, at whatever end of the scale;
only the bound to the finite numbers needs to know where rounding goes over to infinity.

## Main definitions

* `Double.rounded` — the mantissa that is rounded to.
* `Double.Held` — rational numbers that double precision can hold.
* `Double.Rounds` — a place that an exact result is rounded to.

## Main results

* `Double.Locates.nearest_roundedMantissa` — the rounded mantissa is the nearest whole number.
* `Double.rounds_roundWithAccuracy` — **rounding keeps the order.**
-/

namespace TaskAllocation.Double

open Float.Model Float.Model.UnpackedFloat

variable {em : ExtendedMantissa} {x v r : ℚ} {m k n : ℕ} {e q : ℤ} {acc : Accuracy} {s : Sign}
  {p : EReal} {c d : Dyadic}

/-! ### Rounded mantissas -/

/-- **The rounded mantissa is the nearest whole number.** -/
theorem Locates.nearest_roundedMantissa (h : Locates em x) : Nearest x em.roundedMantissa := by
  obtain ⟨m, r, s⟩ := em
  have hinside (k : ℕ) (hlow : (k : ℚ) - 1 / 2 < x) (hhigh : x < k + 1 / 2) : Nearest x k := by
    unfold Nearest
    split
    · exact ⟨hlow.le, hhigh.le⟩
    · exact ⟨hlow, hhigh⟩
  cases r <;> cases s <;>
    simp only [Locates, ExtendedMantissa.roundedMantissa, ExtendedMantissa.accuracy,
      Accuracy.roundToNearestEven, if_true, if_false, Bool.false_eq_true] at h ⊢
  · exact hinside m (by linarith) (by linarith)
  · exact hinside m (by linarith) (by linarith)
  · -- halfway between two whole numbers the even one is taken
    rw [Nearest, if_pos (by omega)]
    rcases Nat.mod_two_eq_zero_or_one m with hm | hm <;> rw [hm] <;> push_cast <;>
      constructor <;> linarith
  · exact hinside (m + 1) (by push_cast; linarith) (by push_cast; linarith)

theorem Nearest.le_of_le (h : Nearest x k) (hn : (n : ℚ) ≤ x) : n ≤ k := by
  have : (n : ℚ) < k + 1 := by linarith [h.bounds.2]
  have : n < k + 1 := by exact_mod_cast this
  omega

theorem Nearest.le_of_lt (h : Nearest x k) (hn : x < n + 1 / 2) : k ≤ n := by
  have : (k : ℚ) < n + 1 := by linarith [h.bounds.1]
  have : k < n + 1 := by exact_mod_cast this
  omega

/-- The mantissa that is rounded to. -/
def rounded (m : ℕ) (e : ℤ) (acc : Accuracy) : ℕ :=
  (ExtendedMantissa.ofMantissaAndAccuracy m acc >>> (target m e - e).toNat).roundedMantissa

section Rounded

variable (hx : Locates (ExtendedMantissa.ofMantissaAndAccuracy m acc) x) (he : e ≤ target m e)
include hx he

theorem nearest_rounded : Nearest (x * 2 ^ e / 2 ^ target m e) (rounded m e acc) := by
  have hscale : x * 2 ^ e / 2 ^ target m e = x / 2 ^ (target m e - e).toNat := by
    have hcast : (2 : ℚ) ^ (target m e - e).toNat = 2 ^ target m e / 2 ^ e := by
      rw [← zpow_natCast, Int.toNat_of_nonneg (by omega), zpow_sub₀ two_ne_zero]
    rw [hcast]
    field_simp
  rw [hscale]
  exact (hx.shiftRight _).nearest_roundedMantissa

theorem rounded_le : rounded m e acc ≤ 2 ^ 53 := by
  have hlt : x * 2 ^ e < 2 ^ (53 + target m e) := by
    refine (lt_two_zpow hx e).trans_le (zpow_le_zpow_right₀ one_le_two ?_)
    simp only [target]
    omega
  refine (nearest_rounded hx he).le_of_lt ?_
  rw [zpow_add₀ two_ne_zero, ← div_lt_iff₀ (by positivity)] at hlt
  refine hlt.trans ?_
  norm_num

/-- Above the least exponent the rounded mantissa has its leading digit. -/
theorem le_rounded (ht : -1074 < target m e) : 2 ^ 52 ≤ rounded m e acc := by
  have hm : m ≠ 0 := by
    rintro rfl
    simp only [target, Nat.log2_zero] at he ht
    omega
  have hge : 2 ^ (52 + target m e) ≤ x * 2 ^ e := by
    refine le_trans (zpow_le_zpow_right₀ one_le_two ?_) (two_zpow_le hx hm e)
    simp only [target] at ht ⊢
    omega
  refine (nearest_rounded hx he).le_of_le ?_
  rw [zpow_add₀ two_ne_zero, ← le_div_iff₀ (by positivity)] at hge
  refine le_trans ?_ hge
  norm_num

omit hx in
theorem roundWithAccuracy_of_zero (h : rounded m e acc = 0) :
    roundWithAccuracy .binary64 s m e acc = .zero s := by
  have hexponent : e + (target m e - e).toNat = target m e := by omega
  have hrounded : (ExtendedMantissa.ofMantissaAndAccuracy m acc >>>
      (target m e - e).toNat).roundedMantissa = 0 := h
  have hshift : shiftToTargetExponent .binary64 0 (target m e) .exact
      = (ExtendedMantissa.ofMantissaAndAccuracy 0 .exact, target m e) :=
    shiftToTargetExponent_of_lt (by positivity) (le_max_right _ _)
  simp only [roundWithAccuracy, shiftToTargetExponent_eq m e acc, hrounded, hexponent, hshift]
  exact dif_pos rfl

theorem roundWithAccuracy_of_lt (hpos : 0 < rounded m e acc) (hlt : rounded m e acc < 2 ^ 53) :
    roundWithAccuracy .binary64 s m e acc = .finite s (rounded m e acc) (target m e) hpos :=
  roundWithAccuracy_of_nearest hx he (nearest_rounded hx he) hpos
    (shiftToTargetExponent_of_lt hlt (le_max_right _ _))

/-- A mantissa that is rounded up to one digit more takes the next exponent. -/
theorem roundWithAccuracy_of_eq (h : rounded m e acc = 2 ^ 53) :
    roundWithAccuracy .binary64 s m e acc
      = .finite s (2 ^ 52) (target m e + 1) (by positivity) := by
  have hnearest := nearest_rounded hx he
  rw [h] at hnearest
  exact roundWithAccuracy_of_nearest hx he hnearest (by positivity)
    (shiftToTargetExponent_of_eq (le_max_right _ _))

end Rounded

/-! ### Packed results -/

/-- The place of a magnitude that is packed: beyond the greatest exponent it is infinite. -/
noncomputable def packed (k : ℕ) (q : ℤ) : EReal :=
  if q ≤ 971 then ((k * 2 ^ q : ℚ) : ℝ) else ⊤

theorem place?_pack_zero (s : Sign) : place? (Float.Model.pack (.zero s)).unpack = some 0 := by
  cases s <;> rfl

theorem place?_pack_infinity (s : Sign) :
    place? (Float.Model.pack (.infinity s)).unpack = some (signed s ⊤) := by
  cases s <;> rfl

theorem place?_pack_finite (s : Sign) (hk : 0 < k) (hlt : k < 2 ^ 53) (hq : -1074 ≤ q)
    (hnormal : 2 ^ 52 ≤ k ∨ q = -1074) :
    place? (Float.Model.pack (.finite s k q hk)).unpack = some (signed s (packed k q)) := by
  by_cases hmax : q ≤ 971
  · -- how far the next number below is away only matters to printing
    have hfits : (⟨k, q, decide (k = 2 ^ 52 ∧ -1074 < q)⟩ : Dyadic).Fits :=
      ⟨hk, hlt, hq, hmax, hnormal, by simp⟩
    rw [hfits.unpack_pack s, packed, if_pos hmax]
    rfl
  · have hlarge : 2 ^ 11 ≤ (q + 1023 + 52).toNat + 1 := by omega
    have hinfinite : Float.Model.pack (.finite s k q hk) = Float.Model.pack (.infinity s) := by
      simp only [Float.Model.pack, UnpackedFloat.pack]
      congr 2
      exact if_pos hlarge
    rw [hinfinite, packed, if_neg hmax, place?_pack_infinity]

/-! ### Rounding -/

/-- Double precision can hold the rational number `q`. -/
def Held (q : ℚ) : Prop := q = 0 ∨ ∃ d : Dyadic, d.Fits ∧ (q = d.value ∨ q = -d.value)

/-- Place `p` is what the exact result `r` is rounded to: no number lies between them, and only
what is half a step beyond the greatest finite number is rounded to infinity. -/
structure Rounds (r : ℚ) (p : EReal) : Prop where
  ge : ∀ q : ℚ, Held q → q ≤ r → ((q : ℝ) : EReal) ≤ p
  le : ∀ q : ℚ, Held q → r ≤ q → p ≤ ((q : ℝ) : EReal)
  finite : |r| < 2 ^ (1024 : ℤ) - 2 ^ (970 : ℤ) → ∃ q : ℚ, p = ((q : ℝ) : EReal)

theorem Held.neg {q : ℚ} (h : Held q) : Held (-q) := by
  rcases h with rfl | ⟨d, hd, rfl | rfl⟩
  · exact .inl neg_zero
  · exact .inr ⟨d, hd, .inr rfl⟩
  · exact .inr ⟨d, hd, .inl (neg_neg _)⟩

theorem Rounds.neg (h : Rounds r p) : Rounds (-r) (-p) where
  ge q hq hle := by
    have hneg := h.le (-q) hq.neg (by linarith)
    rwa [Rat.cast_neg, EReal.coe_neg, EReal.le_neg] at hneg
  le q hq hle := by
    have hneg := h.ge (-q) hq.neg (by linarith)
    rwa [Rat.cast_neg, EReal.coe_neg, EReal.neg_le] at hneg
  finite hlt := by
    obtain ⟨q, rfl⟩ := h.finite (by rwa [abs_neg] at hlt)
    exact ⟨-q, by simp⟩

/-- The greatest finite number. -/
theorem value_le (hd : d.Fits) : d.value ≤ 2 ^ (1024 : ℤ) - 2 ^ (971 : ℤ) := by
  have hmantissa : (d.mantissa : ℚ) ≤ 2 ^ 53 - 1 := by
    have hlt := hd.lt
    have hle : d.mantissa + 1 ≤ 2 ^ 53 := by omega
    have hcast : (d.mantissa : ℚ) + 1 ≤ 2 ^ 53 := by exact_mod_cast hle
    linarith
  calc d.value ≤ (2 ^ 53 - 1) * 2 ^ d.exponent :=
        mul_le_mul_of_nonneg_right hmantissa (by positivity)
    _ ≤ (2 ^ 53 - 1) * 2 ^ (971 : ℤ) := by
        refine mul_le_mul_of_nonneg_left ?_ (by norm_num)
        exact zpow_le_zpow_right₀ one_le_two hd.exponent_le
    _ = 2 ^ (1024 : ℤ) - 2 ^ (971 : ℤ) := by
        rw [show (1024 : ℤ) = 53 + 971 from rfl, zpow_add₀ two_ne_zero]
        ring

theorem value_lt (hd : d.Fits) : d.value < 2 ^ (1024 : ℤ) := by
  have hstep : (0 : ℚ) < 2 ^ (971 : ℤ) := by positivity
  exact (value_le hd).trans_lt (sub_lt_self _ hstep)

/-- In units of a smaller power of two a number is a whole one. -/
theorem value_eq_of_le (h : q ≤ d.exponent) :
    d.value = (d.mantissa * 2 ^ (d.exponent - q).toNat : ℕ) * 2 ^ q := by
  have hpow : (2 : ℚ) ^ d.exponent = 2 ^ (d.exponent - q).toNat * 2 ^ q := by
    rw [← zpow_natCast, ← zpow_add₀ two_ne_zero]
    congr 1
    omega
  rw [Dyadic.value, hpow]
  push_cast
  ring

section Rounded

variable (hx : Locates (ExtendedMantissa.ofMantissaAndAccuracy m acc) x) (he : e ≤ target m e)
include hx he

/-- Where a rounded result lies. -/
theorem exists_place : ∃ p,
    place? (Float.Model.pack (roundWithAccuracy .binary64 s m e acc)).unpack = some (signed s p) ∧
      (p = ((rounded m e acc * 2 ^ target m e : ℚ) : ℝ) ∨
        p = ⊤ ∧ (2 : ℚ) ^ (1024 : ℤ) ≤ rounded m e acc * 2 ^ target m e) := by
  have hmin : -1074 ≤ target m e := le_max_right _ _
  -- with more than the least exponent there is a leading digit, and beyond the greatest one it
  -- is what makes the result large
  have hnormal : 2 ^ 52 ≤ rounded m e acc ∨ target m e = -1074 := by
    rcases hmin.lt_or_eq with hlt | heq
    · exact .inl (le_rounded hx he hlt)
    · exact .inr heq.symm
  rcases Nat.eq_zero_or_pos (rounded m e acc) with hzero | hpos
  · refine ⟨0, ?_, .inl (by simp [hzero])⟩
    rw [roundWithAccuracy_of_zero he hzero, place?_pack_zero]
    cases s <;> simp [signed]
  rcases (rounded_le hx he).lt_or_eq with hlt | heq
  · rw [roundWithAccuracy_of_lt hx he hpos hlt, place?_pack_finite s hpos hlt hmin hnormal]
    refine ⟨_, rfl, ?_⟩
    unfold packed
    split
    · exact .inl rfl
    · have hge : (2 : ℚ) ^ (52 : ℤ) ≤ rounded m e acc := by
        exact_mod_cast hnormal.resolve_right (by omega)
      refine .inr ⟨rfl, ?_⟩
      calc (2 : ℚ) ^ (1024 : ℤ) ≤ 2 ^ (52 + target m e) :=
            zpow_le_zpow_right₀ one_le_two (by omega)
        _ = 2 ^ (52 : ℤ) * 2 ^ target m e := zpow_add₀ two_ne_zero _ _
        _ ≤ _ := mul_le_mul_of_nonneg_right hge (by positivity)
  · have hvalue : (rounded m e acc : ℚ) * 2 ^ target m e = 2 ^ (53 + target m e) := by
      rw [heq, zpow_add₀ two_ne_zero]
      norm_num
    rw [roundWithAccuracy_of_eq hx he heq,
      place?_pack_finite s (by positivity) (by norm_num) (by omega) (.inl le_rfl), hvalue]
    refine ⟨_, rfl, ?_⟩
    unfold packed
    split
    · have hcarry : ((2 ^ 52 : ℕ) : ℚ) * 2 ^ (target m e + 1) = 2 ^ (53 + target m e) := by
        rw [zpow_add₀ two_ne_zero, zpow_add₀ two_ne_zero]
        push_cast
        ring
      rw [hcarry]
      exact .inl rfl
    · exact .inr ⟨rfl, zpow_le_zpow_right₀ one_le_two (by omega)⟩

omit he in
theorem exact_nonneg : 0 ≤ x := (Nat.cast_nonneg _).trans hx.le

/-- A number that is no less than the exact result is no less than the rounded one. -/
theorem rounded_le_value (hd : d.Fits) (h : x * 2 ^ e ≤ d.value) :
    rounded m e acc * 2 ^ target m e ≤ d.value := by
  have hlt : x * 2 ^ e < 2 ^ (53 + d.exponent) := by
    have hmantissa : (d.mantissa : ℚ) < 2 ^ (53 : ℤ) := by exact_mod_cast hd.lt
    rw [zpow_add₀ two_ne_zero]
    exact h.trans_lt (mul_lt_mul_of_pos_right hmantissa (by positivity))
  have hunit : (0 : ℚ) < 2 ^ target m e := by positivity
  -- in units of the last digit the bound is a whole number, and the nearest one is no greater
  have hvalue := value_eq_of_le (target_le hx he hd.le_exponent hlt)
  rw [hvalue, ← div_le_iff₀ hunit] at h
  have hle := (nearest_rounded hx he).le_of_lt (h.trans_lt (lt_add_of_pos_right _ one_half_pos))
  rw [hvalue]
  exact mul_le_mul_of_nonneg_right (by exact_mod_cast hle) hunit.le

/-- A number that is no greater than the exact result is no greater than the rounded one. -/
theorem value_le_rounded (hd : d.Fits) (h : d.value ≤ x * 2 ^ e) :
    d.value ≤ rounded m e acc * 2 ^ target m e := by
  have hunit : (0 : ℚ) < 2 ^ target m e := by positivity
  rcases le_or_gt (target m e) d.exponent with hle | hgt
  · have hvalue := value_eq_of_le hle
    rw [hvalue, ← le_div_iff₀ hunit] at h
    rw [hvalue]
    exact mul_le_mul_of_nonneg_right (by exact_mod_cast (nearest_rounded hx he).le_of_le h) hunit.le
  · -- the rounded result has a greater exponent, and its leading digit
    have hmantissa : (d.mantissa : ℚ) < 2 ^ (53 : ℤ) := by exact_mod_cast hd.lt
    have hmin := hd.le_exponent
    have hge : (2 : ℚ) ^ (52 : ℤ) ≤ rounded m e acc := by
      exact_mod_cast le_rounded hx he (by omega)
    calc d.value ≤ 2 ^ (53 : ℤ) * 2 ^ d.exponent :=
          mul_le_mul_of_nonneg_right hmantissa.le (by positivity)
      _ = 2 ^ (53 + d.exponent) := (zpow_add₀ two_ne_zero _ _).symm
      _ ≤ 2 ^ (52 + target m e) := zpow_le_zpow_right₀ one_le_two (by omega)
      _ = 2 ^ (52 : ℤ) * 2 ^ target m e := zpow_add₀ two_ne_zero _ _
      _ ≤ _ := mul_le_mul_of_nonneg_right hge hunit.le

/-- Nothing but zero is rounded where the exact result is zero. -/
theorem rounded_eq_zero (h : x * 2 ^ e ≤ 0) : rounded m e acc = 0 := by
  refine Nat.le_zero.mp ((nearest_rounded hx he).le_of_lt (lt_of_le_of_lt ?_ ?_ (b := 0)))
  · exact div_nonpos_of_nonpos_of_nonneg h (by positivity)
  · norm_num

/-- What is less than half a step beyond the greatest finite number is not rounded beyond it. -/
theorem rounded_lt (h : x * 2 ^ e < 2 ^ (1024 : ℤ) - 2 ^ (970 : ℤ)) :
    (rounded m e acc : ℚ) * 2 ^ target m e < 2 ^ (1024 : ℤ) := by
  have hlt : x * 2 ^ e < 2 ^ (53 + 971 : ℤ) := by
    have hstep : (0 : ℚ) < 2 ^ (970 : ℤ) := by positivity
    exact h.trans (sub_lt_self _ hstep)
  have hunit : (0 : ℚ) < 2 ^ target m e := by positivity
  rcases (target_le hx he (by norm_num) hlt).lt_or_eq with hless | heq
  · have hle : (rounded m e acc : ℚ) ≤ 2 ^ (53 : ℤ) := by exact_mod_cast rounded_le hx he
    calc (rounded m e acc : ℚ) * 2 ^ target m e ≤ 2 ^ (53 : ℤ) * 2 ^ target m e :=
          mul_le_mul_of_nonneg_right hle hunit.le
      _ = 2 ^ (53 + target m e) := (zpow_add₀ two_ne_zero _ _).symm
      _ < 2 ^ (1024 : ℤ) := zpow_lt_zpow_right₀ one_lt_two (by omega)
  · -- in the last binade half a step is less than half a unit
    have hscaled : (2 : ℚ) ^ (1024 : ℤ) - 2 ^ (970 : ℤ) = (2 ^ 53 - 1 / 2) * 2 ^ target m e := by
      rw [heq, show (1024 : ℤ) = 53 + 971 from rfl, show (970 : ℤ) = -1 + 971 from rfl,
        zpow_add₀ two_ne_zero, zpow_add₀ two_ne_zero]
      ring
    rw [hscaled, ← div_lt_iff₀ hunit] at h
    have hle : rounded m e acc ≤ 2 ^ 53 - 1 := by
      refine (nearest_rounded hx he).le_of_lt (h.trans_le ?_)
      norm_num
    have hlt : (rounded m e acc : ℚ) < 2 ^ (53 : ℤ) := by
      exact_mod_cast Nat.lt_of_le_of_lt hle (by norm_num)
    calc (rounded m e acc : ℚ) * 2 ^ target m e < 2 ^ (53 : ℤ) * 2 ^ target m e :=
          mul_lt_mul_of_pos_right hlt hunit
      _ = 2 ^ (1024 : ℤ) := by rw [heq, ← zpow_add₀ two_ne_zero]; rfl

/-- **Rounding keeps the order.** -/
theorem rounds_roundWithAccuracy (s : Sign) : ∃ p,
    place? (Float.Model.pack (roundWithAccuracy .binary64 s m e acc)).unpack = some (signed s p) ∧
      Rounds (x * 2 ^ e) p := by
  obtain ⟨p, hplace, hp⟩ := exists_place hx he (s := s)
  refine ⟨p, hplace, ?_⟩
  have hexact : 0 ≤ x * 2 ^ e := mul_nonneg (exact_nonneg hx) (by positivity)
  have hrounded : (0 : ℚ) ≤ rounded m e acc * 2 ^ target m e := by positivity
  constructor
  · -- the result is not negative, so that a bound from below counts only if it is not either
    intro q hq hle
    rcases hp with rfl | ⟨rfl, -⟩
    · refine EReal.coe_le_coe_iff.mpr (Rat.cast_le.mpr ?_)
      rcases hq with rfl | ⟨d, hd, rfl | rfl⟩
      · exact hrounded
      · exact value_le_rounded hx he hd hle
      · have hpos := Dyadic.value_pos hd.pos
        linarith
    · exact le_top
  · -- a bound from above is a finite number, so that the result is finite too
    intro q hq hle
    have hbound : (rounded m e acc : ℚ) * 2 ^ target m e ≤ q ∧ q < 2 ^ (1024 : ℤ) := by
      rcases hq with rfl | ⟨d, hd, rfl | rfl⟩
      · rw [rounded_eq_zero hx he hle, Nat.cast_zero, zero_mul]
        exact ⟨le_rfl, by positivity⟩
      · exact ⟨rounded_le_value hx he hd hle, value_lt hd⟩
      · have hpos := Dyadic.value_pos hd.pos
        linarith
    rcases hp with rfl | ⟨rfl, hlarge⟩
    · exact EReal.coe_le_coe_iff.mpr (Rat.cast_le.mpr hbound.1)
    · linarith
  · intro hlt
    rw [abs_of_nonneg hexact] at hlt
    rcases hp with rfl | ⟨rfl, hlarge⟩
    · exact ⟨_, rfl⟩
    · have hless := rounded_lt hx he hlt
      linarith

end Rounded

end TaskAllocation.Double
