import Mathlib.Data.EReal.Basic
import TaskAllocation.Proofs.Decimal.Encoding

/-!
# The order of double precision numbers

Every double precision number but those that are none stands for a place among the extended
reals, the two infinities at its ends and the two zeros at the same place.  Numbers compare as
their places do, and what is no number compares with nothing.

## Main definitions

* `Double.place?` — the place that decoded parts stand for.
* `Double.Stands` — a number stands for a place.

## Main results

* `Dyadic.Fits.compares` — exponents and mantissas compare as values do.
* `Double.Stands.le_iff`, `Double.Stands.lt_iff` — **numbers compare as their places.**
* `Double.isFinite_iff` — a finite number stands for a rational one.
-/

namespace TaskAllocation

open Float.Model Float.Model.UnpackedFloat

/-! ### Magnitudes -/

namespace Dyadic

variable {d c : Dyadic}

theorem value_pos (h : 0 < d.mantissa) : 0 < d.value :=
  mul_pos (by exact_mod_cast h) (by positivity)

/-- With more digits in front a number is greater, whatever its mantissa: only the least exponent
has mantissas without a leading digit. -/
theorem Fits.value_lt_of_exponent_lt (hd : d.Fits) (hc : c.Fits) (h : d.exponent < c.exponent) :
    d.value < c.value := by
  have hmantissa : 2 ^ 52 ≤ c.mantissa :=
    hc.normal.resolve_right (by have := hd.le_exponent; omega)
  have hlt : (d.mantissa : ℚ) < 2 ^ 53 := by exact_mod_cast hd.lt
  have hge : (2 ^ 52 : ℚ) ≤ c.mantissa := by exact_mod_cast hmantissa
  calc d.value < 2 ^ 53 * 2 ^ d.exponent := mul_lt_mul_of_pos_right hlt (by positivity)
    _ = 2 ^ 52 * 2 ^ (d.exponent + 1) := by rw [zpow_add_one₀ two_ne_zero]; ring
    _ ≤ 2 ^ 52 * 2 ^ c.exponent := by
        refine mul_le_mul_of_nonneg_left ?_ (by positivity)
        exact zpow_le_zpow_right₀ one_le_two (by omega)
    _ ≤ c.value := mul_le_mul_of_nonneg_right hge (by positivity)

/-- **Exponents and then mantissas compare as values do.** -/
theorem Fits.compares (hd : d.Fits) (hc : c.Fits) :
    ((compare d.exponent c.exponent).then (compare d.mantissa c.mantissa)).Compares
      d.value c.value := by
  -- mantissas are compared only where the exponents are the same, and so the units
  rcases lt_trichotomy d.exponent c.exponent with hlt | heq | hgt
  · rw [Int.compare_eq_lt.mpr hlt]
    exact hd.value_lt_of_exponent_lt hc hlt
  · have hunit : (0 : ℚ) < 2 ^ c.exponent := by positivity
    rw [Int.compare_eq_eq.mpr heq, Ordering.eq_then, value, value, heq]
    rcases lt_trichotomy d.mantissa c.mantissa with hlt | heq | hgt
    · rw [Nat.compare_eq_lt.mpr hlt]
      exact mul_lt_mul_of_pos_right (by exact_mod_cast hlt) hunit
    · rw [Nat.compare_eq_eq.mpr heq, heq]
      rfl
    · rw [Nat.compare_eq_gt.mpr hgt]
      exact mul_lt_mul_of_pos_right (by exact_mod_cast hgt) hunit
  · rw [Int.compare_eq_gt.mpr hgt]
    exact hc.value_lt_of_exponent_lt hd hgt

end Dyadic

namespace Double

/-! ### Places -/

/-- The place on the other side of zero, for a negative sign. -/
noncomputable def signed (s : Sign) (p : EReal) : EReal :=
  match s with
  | .positive => p
  | .negative => -p

/-- The factor that a sign stands for. -/
def factor : Sign → ℚ
  | .positive => 1
  | .negative => -1

theorem signed_coe (s : Sign) (r : ℚ) :
    signed s ((r : ℝ) : EReal) = (((factor s * r : ℚ) : ℝ) : EReal) := by
  cases s <;> simp [signed, factor]

/-- The place that decoded parts stand for. -/
noncomputable def place? : UnpackedFloat → Option EReal
  | .notANumber => none
  | .infinity s => some (signed s ⊤)
  | .zero _ => some 0
  | .finite s m e _ => some (signed s ((m * 2 ^ e : ℚ) : ℝ))

/-- Number `x` stands for place `p`. -/
def Stands (x : Float) (p : EReal) : Prop := place? x.toModel.unpack = some p

variable {x y z : Float} {p q : EReal} {a b : ℚ} {u v : UnpackedFloat}

/-- Parts that a double precision number is decoded into. -/
inductive Decoded : UnpackedFloat → Prop
  | notANumber : Decoded .notANumber
  | infinity (s : Sign) : Decoded (.infinity s)
  | zero (s : Sign) : Decoded (.zero s)
  | finite (s : Sign) {d : Dyadic} (hd : d.Fits) :
      Decoded (.finite s d.mantissa d.exponent hd.pos)

theorem decoded_unpack (x : Float) : Decoded x.toModel.unpack := by
  cases hx : Dyadic.ofFloat? x with
  | none =>
    rcases Dyadic.unpack_of_ofFloat?_eq_none hx with h | h
    · rw [h]
      exact .infinity _
    · rw [h]
      exact .notANumber
  | some d =>
    rcases Dyadic.unpack_of_ofFloat?_eq_some hx with ⟨-, h⟩ | ⟨hd, h⟩
    · rw [h]
      exact .zero _
    · rw [h]
      exact .finite _ hd

theorem place?_finite (s : Sign) {d : Dyadic} (h : 0 < d.mantissa) :
    place? (.finite s d.mantissa d.exponent h) = some (signed s ((d.value : ℚ) : ℝ)) := rfl

theorem signed_coe_lt_top (s : Sign) (r : ℝ) : signed s r < ⊤ := by
  cases s with
  | negative => exact EReal.coe_lt_top (-r)
  | positive => exact EReal.coe_lt_top r

theorem neg_top_lt_signed_coe (s : Sign) (r : ℝ) : -⊤ < signed s r := by
  cases s with
  | negative => exact EReal.bot_lt_coe (-r)
  | positive => exact EReal.bot_lt_coe r

/-- The magnitude of a number that is not zero. -/
theorem coe_value_pos {d : Dyadic} (hd : d.Fits) : (0 : EReal) < ((d.value : ℚ) : ℝ) := by
  exact_mod_cast Dyadic.value_pos hd.pos

theorem neg_coe_value_neg {d : Dyadic} (hd : d.Fits) : -(((d.value : ℚ) : ℝ) : EReal) < 0 := by
  rw [EReal.neg_lt_comm, neg_zero]
  exact coe_value_pos hd

theorem compares_coe {o : Ordering} {a b : ℚ} (h : o.Compares a b) :
    o.Compares ((a : ℝ) : EReal) ((b : ℝ) : EReal) := by
  cases o with
  | lt => exact EReal.coe_lt_coe_iff.mpr (Rat.cast_lt.mpr h)
  | eq => exact congrArg (fun r : ℚ => ((r : ℝ) : EReal)) h
  | gt => exact EReal.coe_lt_coe_iff.mpr (Rat.cast_lt.mpr h)

/-- On the other side of zero the order is turned round. -/
theorem compares_neg {o : Ordering} (h : o.Compares p q) : o.swap.Compares (-p) (-q) := by
  cases o with
  | lt => exact EReal.neg_lt_neg_iff.mpr h
  | eq => exact congrArg (-·) h
  | gt => exact EReal.neg_lt_neg_iff.mpr h

/-- Decoded parts compare as the places that they stand for. -/
theorem Decoded.compares (hu : Decoded u) (hv : Decoded v) (hp : place? u = some p)
    (hq : place? v = some q) : ∃ o, u.compare v = some o ∧ o.Compares p q := by
  -- by the parts on both sides, as the comparison goes: only two magnitudes of one sign are
  -- compared as such, everything else is told by signs
  cases hu with
  | notANumber => cases hp
  | infinity s =>
    cases hv with
    | notANumber => cases hq
    | infinity s' =>
      cases hp; cases hq
      match s, s' with
      | .negative, .negative => exact ⟨.eq, rfl, rfl⟩
      | .negative, .positive => exact ⟨.lt, rfl, bot_lt_top⟩
      | .positive, .negative => exact ⟨.gt, rfl, bot_lt_top⟩
      | .positive, .positive => exact ⟨.eq, rfl, rfl⟩
    | zero s' =>
      cases hp; cases hq
      cases s with
      | negative => exact ⟨.lt, rfl, EReal.bot_lt_zero⟩
      | positive => exact ⟨.gt, rfl, EReal.zero_lt_top⟩
    | finite s' hd =>
      cases hp; cases hq
      cases s with
      | negative => exact ⟨.lt, rfl, neg_top_lt_signed_coe s' _⟩
      | positive => exact ⟨.gt, rfl, signed_coe_lt_top s' _⟩
  | zero s =>
    cases hv with
    | notANumber => cases hq
    | infinity s' =>
      cases hp; cases hq
      cases s' with
      | negative => exact ⟨.gt, rfl, EReal.bot_lt_zero⟩
      | positive => exact ⟨.lt, rfl, EReal.zero_lt_top⟩
    | zero s' =>
      cases hp; cases hq
      exact ⟨.eq, rfl, rfl⟩
    | finite s' hd =>
      cases hp; cases hq
      cases s' with
      | negative => exact ⟨.gt, rfl, neg_coe_value_neg hd⟩
      | positive => exact ⟨.lt, rfl, coe_value_pos hd⟩
  | @finite s d hd =>
    cases hv with
    | notANumber => cases hq
    | infinity s' =>
      cases hp; cases hq
      cases s' with
      | negative => exact ⟨.gt, rfl, neg_top_lt_signed_coe s _⟩
      | positive => exact ⟨.lt, rfl, signed_coe_lt_top s _⟩
    | zero s' =>
      cases hp; cases hq
      cases s with
      | negative => exact ⟨.lt, rfl, neg_coe_value_neg hd⟩
      | positive => exact ⟨.gt, rfl, coe_value_pos hd⟩
    | @finite s' c hc =>
      cases hp; cases hq
      match s, s' with
      | .negative, .positive =>
        exact ⟨.lt, rfl, (neg_coe_value_neg hd).trans (coe_value_pos hc)⟩
      | .positive, .negative =>
        exact ⟨.gt, rfl, (neg_coe_value_neg hc).trans (coe_value_pos hd)⟩
      | .positive, .positive => exact ⟨_, rfl, compares_coe (hd.compares hc)⟩
      | .negative, .negative => exact ⟨_, rfl, compares_neg (compares_coe (hd.compares hc))⟩

/-! ### Numbers -/

theorem Stands.unique (hp : Stands x p) (hq : Stands x q) : p = q :=
  Option.some.inj (Eq.trans hp.symm hq)

theorem Stands.compares (hp : Stands x p) (hq : Stands y q) :
    ∃ o, x.toModel.unpack.compare y.toModel.unpack = some o ∧ o.Compares p q :=
  (decoded_unpack x).compares (decoded_unpack y) hp hq

theorem lt_iff_compare : x < y ↔ x.toModel.unpack.compare y.toModel.unpack = some .lt := by
  simp [LT.lt, Float.lt, Float.Model.lt, UnpackedFloat.lt]

theorem le_iff_compare :
    x ≤ y ↔ ∃ o, x.toModel.unpack.compare y.toModel.unpack = some o ∧ o ≠ .gt := by
  simp [LE.le, Float.le, Float.Model.le, UnpackedFloat.le, Option.any_eq_true,
    Ordering.isLE_iff_ne_gt]

/-- **Numbers compare as their places do.** -/
theorem Stands.lt_iff (hp : Stands x p) (hq : Stands y q) : x < y ↔ p < q := by
  obtain ⟨o, ho, hcompares⟩ := hp.compares hq
  rw [lt_iff_compare, ho, Option.some_inj, hcompares.eq_lt]

theorem Stands.le_iff (hp : Stands x p) (hq : Stands y q) : x ≤ y ↔ p ≤ q := by
  obtain ⟨o, ho, hcompares⟩ := hp.compares hq
  rw [le_iff_compare, ← hcompares.ne_gt, ho]
  simp

theorem exists_stands_iff : (∃ p, Stands x p) ↔ x.toModel.unpack ≠ .notANumber := by
  simp only [Stands]
  cases x.toModel.unpack with
  | notANumber => simp [place?]
  | infinity s => simp [place?]
  | zero s => simp [place?]
  | finite s m e hm => simp [place?]

/-- What compares with something has a place. -/
theorem exists_stands_of_le (h : x ≤ y) : (∃ p, Stands x p) ∧ ∃ q, Stands y q := by
  obtain ⟨o, ho, -⟩ := le_iff_compare.mp h
  constructor
  · rw [exists_stands_iff]
    intro hx
    rw [hx] at ho
    cases ho
  · rw [exists_stands_iff]
    intro hy
    rw [hy] at ho
    cases hx : x.toModel.unpack <;> rw [hx] at ho <;> cases ho

/-- A number compares with itself. -/
theorem Stands.isNumber (hp : Stands x p) : x ≤ x := (hp.le_iff hp).mpr le_rfl

/-- A finite number stands for a rational one. -/
theorem isFinite_iff : x.isFinite = true ↔ ∃ r : ℚ, Stands x ((r : ℝ) : EReal) := by
  change x.toModel.unpack.isFinite = true ↔ _
  simp only [Stands]
  cases x.toModel.unpack with
  | notANumber => simp [place?, UnpackedFloat.isFinite]
  | infinity s => cases s <;> simp [place?, UnpackedFloat.isFinite, signed]
  | zero s => exact iff_of_true rfl ⟨0, by simp [place?]⟩
  | finite s m e hm =>
    refine iff_of_true rfl ?_
    cases s with
    | negative => exact ⟨-(m * 2 ^ e), by simp [place?, signed]⟩
    | positive => exact ⟨m * 2 ^ e, rfl⟩

/-- A number is finite or infinite. -/
theorem finite_or_infinity (h : y ≤ y) :
    (∃ b : ℚ, Stands y ((b : ℝ) : EReal)) ∨ ∃ s, y.toModel.unpack = .infinity s := by
  obtain ⟨-, q, hq⟩ := exists_stands_of_le h
  have hdecoded := decoded_unpack y
  simp only [Stands] at hq ⊢
  generalize y.toModel.unpack = u at hq hdecoded
  cases hdecoded with
  | notANumber => cases hq
  | infinity s => exact .inr ⟨s, rfl⟩
  | zero s => exact .inl ⟨0, by simp [place?]⟩
  | @finite s d hd => exact .inl ⟨_, by rw [place?_finite, signed_coe]⟩

protected theorem le_of_lt (h : x < y) : x ≤ y :=
  le_iff_compare.mpr ⟨.lt, lt_iff_compare.mp h, by decide⟩

/-- Of two numbers one is no greater than the other. -/
protected theorem le_of_not_lt (hx : x ≤ x) (hy : y ≤ y) (h : ¬ x < y) : y ≤ x := by
  obtain ⟨-, p, hp⟩ := exists_stands_of_le hx
  obtain ⟨-, q, hq⟩ := exists_stands_of_le hy
  rw [hp.lt_iff hq, not_lt] at h
  exact (hq.le_iff hp).mpr h

protected theorem le_trans (hxy : x ≤ y) (hyz : y ≤ z) : x ≤ z := by
  obtain ⟨⟨p, hp⟩, q, hq⟩ := exists_stands_of_le hxy
  obtain ⟨-, r, hr⟩ := exists_stands_of_le hyz
  rw [hp.le_iff hq] at hxy
  rw [hq.le_iff hr] at hyz
  exact (hp.le_iff hr).mpr (hxy.trans hyz)

theorem isNumber_of_le_left (h : x ≤ y) : x ≤ x := by
  obtain ⟨⟨p, hp⟩, -⟩ := exists_stands_of_le h
  exact hp.isNumber

theorem isNumber_of_le_right (h : x ≤ y) : y ≤ y := by
  obtain ⟨-, q, hq⟩ := exists_stands_of_le h
  exact hq.isNumber

/-- A number between two finite ones is finite. -/
theorem exists_stands_of_between (hx : Stands x ((a : ℝ) : EReal)) (hz : Stands z ((b : ℝ) : EReal))
    (hxy : x ≤ y) (hyz : y ≤ z) : ∃ r : ℚ, Stands y ((r : ℝ) : EReal) ∧ a ≤ r ∧ r ≤ b := by
  obtain ⟨-, q, hq⟩ := exists_stands_of_le hxy
  rw [hx.le_iff hq] at hxy
  rw [hq.le_iff hz] at hyz
  -- an infinity is beyond one of the two ends
  rcases finite_or_infinity hq.isNumber with ⟨r, hr⟩ | ⟨s, hs⟩
  · rw [hq.unique hr, EReal.coe_le_coe_iff, Rat.cast_le] at hxy hyz
    exact ⟨r, hr, hxy, hyz⟩
  · have hinfinite : q = signed s ⊤ := by
      rw [Stands, hs] at hq
      exact (Option.some.inj hq).symm
    rw [hinfinite] at hxy hyz
    cases s with
    | negative => exact absurd hxy (not_le.mpr (EReal.bot_lt_coe _))
    | positive => exact absurd hyz (not_le.mpr (EReal.coe_lt_top _))

end Double

end TaskAllocation
