import TaskAllocation.Proofs.Double.Rounding

/-!
# Arithmetic in double precision

Sums, differences, products and quotients of finite numbers are the exact ones, rounded.  With
infinite numbers there is no exact result, but mostly there is still a number.

## Main definitions

* `Double.Reads` — decoded parts that stand for a rational number.
* `Double.Yields`, `Double.IsRounded` — parts, and a number, that an exact result is rounded to.

## Main results

* `Double.Stands.add`, `Double.Stands.sub`, `Double.Stands.mul`, `Double.Stands.div` —
  **operations round the exact result.**
* `Double.IsRounded.exists_stands` — a result is within the bounds of the exact one.
* `Double.Stands.isFinite_add` — only large numbers add up to infinity.
* `Double.Stands.isNumber_sub`, `Double.Stands.isNumber_mul`, `Double.Stands.isNumber_div` — when
  there is a number with an infinite operand.
* `Double.exists_stands_ofNat` — whole numbers are finite.
-/

namespace TaskAllocation.Double

open Float.Model Float.Model.UnpackedFloat

variable {x y z : Float} {a b r : ℚ} {u v : UnpackedFloat} {k : ℕ} {e : ℤ}

/-! ### Signs -/

theorem factor_mul (s t : Sign) : factor (s * t) = factor s * factor t := by
  cases s <;> cases t <;> decide +kernel

theorem factor_div (s t : Sign) : factor (s / t) = factor s / factor t := by
  cases s <;> cases t <;> decide +kernel

theorem factor_neg (s : Sign) : factor (-s) = -factor s := by
  cases s <;> decide +kernel

theorem apply_eq (s : Sign) (k : ℕ) : ((s.apply k : ℤ) : ℚ) = factor s * k := by
  cases s <;> simp [Sign.apply, factor]

/-! ### Finite numbers -/

theorem coe_inj : ((a : ℝ) : EReal) = ((b : ℝ) : EReal) ↔ a = b := by
  rw [EReal.coe_eq_coe_iff, Rat.cast_inj]

/-- Decoded parts that stand for a rational number: they are zero, or a magnitude with a sign. -/
inductive Reads : UnpackedFloat → ℚ → Prop
  | zero (s : Sign) : Reads (.zero s) 0
  | finite (s : Sign) {d : Dyadic} (hd : d.Fits) :
      Reads (.finite s d.mantissa d.exponent hd.pos) (factor s * d.value)

theorem Reads.neg (h : Reads u r) : Reads u.neg (-r) := by
  cases h with
  | zero s =>
    rw [neg_zero]
    exact .zero (-s)
  | finite s hd =>
    rw [← neg_mul, ← factor_neg]
    exact .finite (-s) hd

theorem Stands.reads (h : Stands x ((r : ℝ) : EReal)) : Reads x.toModel.unpack r := by
  have hdecoded := decoded_unpack x
  unfold Stands at h
  generalize x.toModel.unpack = u at h hdecoded
  cases hdecoded with
  | notANumber => cases h
  | infinity s => cases s <;> simp [place?, signed] at h
  | zero s =>
    have hzero : ((r : ℝ) : EReal) = (((0 : ℚ) : ℝ) : EReal) := by
      simpa using (Option.some.inj h).symm
    rw [coe_inj.mp hzero]
    exact .zero s
  | @finite s d hd =>
    rw [place?_finite, signed_coe, Option.some_inj, coe_inj] at h
    rw [← h]
    exact .finite s hd

theorem Reads.held (h : Reads u r) : Held r := by
  cases h with
  | zero s => exact .inl rfl
  | @finite s d hd =>
    cases s with
    | negative => exact .inr ⟨d, hd, .inr (by simp [factor])⟩
    | positive => exact .inr ⟨d, hd, .inl (by simp [factor])⟩

/-! ### Results -/

/-- The packed result of an operation is a number that `r` is rounded to. -/
def Yields (u : UnpackedFloat) (r : ℚ) : Prop :=
  ∃ p, place? (Float.Model.pack u).unpack = some p ∧ Rounds r p

/-- The exact result is a place that it is rounded to. -/
theorem rounds_self (r : ℚ) : Rounds r ((r : ℝ) : EReal) where
  ge _ _ hle := EReal.coe_le_coe_iff.mpr (Rat.cast_le.mpr hle)
  le _ _ hle := EReal.coe_le_coe_iff.mpr (Rat.cast_le.mpr hle)
  finite _ := ⟨r, rfl⟩

theorem yields_zero (s : Sign) : Yields (.zero s) 0 :=
  ⟨0, place?_pack_zero s, by simpa using rounds_self 0⟩

theorem yields_finite (s : Sign) {d : Dyadic} (hd : d.Fits) :
    Yields (.finite s d.mantissa d.exponent hd.pos) (factor s * d.value) := by
  refine ⟨_, ?_, rounds_self _⟩
  rw [hd.unpack_pack s, place?_finite, signed_coe]

/-- **Rounding yields the exact result, rounded.** -/
theorem yields_roundWithAccuracy {m : ℕ} {acc : Accuracy} {c : ℚ}
    (hc : Locates (ExtendedMantissa.ofMantissaAndAccuracy m acc) c) (he : e ≤ target m e)
    (s : Sign) : Yields (roundWithAccuracy .binary64 s m e acc) (factor s * (c * 2 ^ e)) := by
  obtain ⟨p, hp, hrounds⟩ := rounds_roundWithAccuracy hc he s
  refine ⟨_, hp, ?_⟩
  cases s with
  | negative =>
    have hneg := hrounds.neg
    rwa [← neg_one_mul] at hneg
  | positive =>
    rw [factor, one_mul]
    exact hrounds

/-- More digits are made room for first, and none is lost. -/
theorem yields_round (s : Sign) (hk : 0 < k) (e : ℤ) :
    Yields (UnpackedFloat.round .binary64 s k e) (factor s * (k * 2 ^ e)) := by
  -- by `n` digits, after which the exponent is no greater than the one that is rounded to
  obtain ⟨n, hn⟩ : ∃ n, n = (e - target k e).toNat := ⟨_, rfl⟩
  have hround : UnpackedFloat.round .binary64 s k e
      = roundWithAccuracy .binary64 s (k <<< n) (e - n) .exact := by
    subst hn
    rfl
  have hlog : (k <<< n).log2 = k.log2 + n := by
    have hpow := Nat.two_pow_pos n
    rw [Nat.shiftLeft_eq, Nat.log2_eq_iff (Nat.mul_pos hk hpow).ne', Nat.pow_add]
    refine ⟨Nat.mul_le_mul_right _ (Nat.log2_self_le hk.ne'), ?_⟩
    rw [Nat.add_right_comm, Nat.pow_add]
    exact Nat.mul_lt_mul_of_pos_right Nat.lt_log2_self hpow
  have he : e - n ≤ target (k <<< n) (e - n) := by
    simp only [target, hlog] at hn ⊢
    omega
  have hvalue : ((k <<< n : ℕ) : ℚ) * 2 ^ (e - n) = k * 2 ^ e := by
    rw [Nat.shiftLeft_eq, zpow_sub₀ two_ne_zero, zpow_natCast]
    push_cast
    field_simp
  rw [hround, ← hvalue]
  exact yields_roundWithAccuracy (Locates.exact _) he s

theorem yields_normalize (z : ℤ) (e : ℤ) :
    Yields (UnpackedFloat.normalize .binary64 z e .positive) (z * 2 ^ e) := by
  unfold UnpackedFloat.normalize
  rcases lt_trichotomy z 0 with hlt | rfl | hgt
  · rw [Int.compare_eq_lt.mpr hlt]
    have hcast : ((-z).toNat : ℚ) = -z := by exact_mod_cast Int.toNat_of_nonneg (by omega)
    have hyields := yields_round .negative (k := (-z).toNat) (by omega) e
    rwa [hcast, factor, neg_mul, one_mul, neg_mul, neg_neg] at hyields
  · rw [Int.compare_eq_eq.mpr rfl, Int.cast_zero, zero_mul]
    exact yields_zero _
  · rw [Int.compare_eq_gt.mpr hgt]
    have hcast : (z.toNat : ℚ) = z := by exact_mod_cast Int.toNat_of_nonneg (by omega)
    have hyields := yields_round .positive (k := z.toNat) (by omega) e
    rwa [hcast, factor, one_mul] at hyields

/-! ### Operations -/

/-- A sum of decoded parts that is worked out. -/
theorem yields_add_finite {c d : Dyadic} (hd : d.Fits) (hc : c.Fits) (s t : Sign) :
    Yields (UnpackedFloat.add .binary64 (.finite s d.mantissa d.exponent hd.pos)
      (.finite t c.mantissa c.exponent hc.pos)) (factor s * d.value + factor t * c.value) := by
  -- both magnitudes are whole in units of the lower exponent
  obtain ⟨low, hlow⟩ : ∃ low, low = min d.exponent c.exponent := ⟨_, rfl⟩
  have hadd : UnpackedFloat.add .binary64 (.finite s d.mantissa d.exponent hd.pos)
      (.finite t c.mantissa c.exponent hc.pos)
        = UnpackedFloat.normalize .binary64
          (s.apply (d.mantissa <<< (d.exponent - low).toNat : ℕ) +
            t.apply (c.mantissa <<< (c.exponent - low).toNat : ℕ)) low .positive := by
    subst hlow
    rfl
  have hunits {b : Dyadic} (h : low ≤ b.exponent) :
      ((b.mantissa <<< (b.exponent - low).toNat : ℕ) : ℚ) * 2 ^ low = b.value := by
    rw [Nat.shiftLeft_eq, value_eq_of_le h]
  have hexact : factor s * d.value + factor t * c.value =
      ((s.apply (d.mantissa <<< (d.exponent - low).toNat : ℕ) +
        t.apply (c.mantissa <<< (c.exponent - low).toNat : ℕ) : ℤ) : ℚ) * 2 ^ low := by
    rw [Int.cast_add, apply_eq, apply_eq, add_mul, mul_assoc, mul_assoc, hunits (by omega),
      hunits (by omega)]
  rw [hadd, hexact]
  exact yields_normalize _ _

/-- A difference is a sum with the sign turned round. -/
theorem unpacked_sub (u v : UnpackedFloat) :
    UnpackedFloat.sub .binary64 u v = UnpackedFloat.add .binary64 u v.neg := by
  have happly (s : Sign) (z : ℤ) : (-s).apply z = -s.apply z := by
    cases s with
    | negative => exact (neg_neg z).symm
    | positive => rfl
  cases u <;> cases v <;>
    simp [UnpackedFloat.sub, UnpackedFloat.add, UnpackedFloat.neg, happly, Int.sub_eq_add_neg]

/-- With one mantissa of full length a product has enough digits. -/
theorem le_target_mul {c d : Dyadic} (hd : d.Fits) (hc : c.Fits) :
    d.exponent + c.exponent ≤ target (d.mantissa * c.mantissa) (d.exponent + c.exponent) := by
  by_cases hleast : d.exponent = -1074 ∧ c.exponent = -1074
  · -- the sum of the exponents is far below the least one
    simp only [target]
    omega
  · have hlong : 2 ^ 52 ≤ d.mantissa * c.mantissa := by
      have hpos := hd.pos
      have hpos' := hc.pos
      rcases hd.normal with h | h
      · nlinarith
      · have h' := hc.normal.resolve_right fun h' => hleast ⟨h, h'⟩
        nlinarith
    have hlog := (Nat.le_log2 (by positivity)).mpr hlong
    simp only [target]
    omega

theorem yields_mul_finite {c d : Dyadic} (hd : d.Fits) (hc : c.Fits) (s t : Sign) :
    Yields (UnpackedFloat.mul .binary64 (.finite s d.mantissa d.exponent hd.pos)
      (.finite t c.mantissa c.exponent hc.pos)) (factor s * d.value * (factor t * c.value)) := by
  have hyields := yields_roundWithAccuracy (Locates.exact (d.mantissa * c.mantissa))
    (le_target_mul hd hc) (s * t)
  have hexact : factor (s * t) *
      (((d.mantissa * c.mantissa : ℕ) : ℚ) * 2 ^ (d.exponent + c.exponent)) =
        factor s * d.value * (factor t * c.value) := by
    rw [factor_mul, Dyadic.value, Dyadic.value, zpow_add₀ two_ne_zero]
    push_cast
    ring
  rwa [hexact] at hyields

theorem yields_div_finite {c d : Dyadic} (hd : d.Fits) (hc : c.Fits) (s t : Sign) :
    Yields (UnpackedFloat.div .binary64 (.finite s d.mantissa d.exponent hd.pos)
      (.finite t c.mantissa c.exponent hc.pos)) (factor s * d.value / (factor t * c.value)) := by
  obtain ⟨m, e, acc, x, hdiv, hx, he, hvalue⟩ :=
    Dyadic.exists_locates_divCore hd.pos hc.pos d.exponent c.exponent
  have hyields := yields_roundWithAccuracy hx he (s / t)
  rw [hvalue, factor_div, div_mul_div_comm] at hyields
  simp only [UnpackedFloat.div, hdiv]
  exact hyields

theorem yields_add (hu : Reads u a) (hv : Reads v b) :
    Yields (UnpackedFloat.add .binary64 u v) (a + b) := by
  cases hu with
  | zero s =>
    rw [zero_add]
    cases hv with
    | zero t => cases s <;> cases t <;> exact yields_zero _
    | finite t hc => exact yields_finite t hc
  | finite s hd =>
    cases hv with
    | zero t =>
      rw [add_zero]
      exact yields_finite s hd
    | finite t hc => exact yields_add_finite hd hc s t

theorem yields_mul (hu : Reads u a) (hv : Reads v b) :
    Yields (UnpackedFloat.mul .binary64 u v) (a * b) := by
  cases hu with
  | zero s =>
    rw [zero_mul]
    cases hv with
    | zero t => exact yields_zero _
    | finite t hc => exact yields_zero _
  | finite s hd =>
    cases hv with
    | zero t =>
      rw [mul_zero]
      exact yields_zero _
    | finite t hc => exact yields_mul_finite hd hc s t

theorem yields_div (hu : Reads u a) (hv : Reads v b) (hb : b ≠ 0) :
    Yields (UnpackedFloat.div .binary64 u v) (a / b) := by
  cases hv with
  | zero t => exact absurd rfl hb
  | finite t hc =>
    cases hu with
    | zero s =>
      rw [zero_div]
      exact yields_zero _
    | finite s hd => exact yields_div_finite hd hc s t

/-! ### Numbers -/

/-- Number `z` is the exact result `r`, rounded. -/
def IsRounded (z : Float) (r : ℚ) : Prop := ∃ p, Stands z p ∧ Rounds r p

/-- A result is no less than the numbers that the exact one is no less than. -/
theorem IsRounded.ge (h : IsRounded x r) (hy : Stands y ((a : ℝ) : EReal)) (hle : a ≤ r) :
    y ≤ x := by
  obtain ⟨p, hp, hrounds⟩ := h
  exact (hy.le_iff hp).mpr (hrounds.ge a hy.reads.held hle)

/-- A result is no greater than the numbers that the exact one is no greater than. -/
theorem IsRounded.le (h : IsRounded x r) (hy : Stands y ((a : ℝ) : EReal)) (hle : r ≤ a) :
    x ≤ y := by
  obtain ⟨p, hp, hrounds⟩ := h
  exact (hp.le_iff hy).mpr (hrounds.le a hy.reads.held hle)

theorem IsRounded.isNumber (h : IsRounded x r) : x ≤ x := by
  obtain ⟨p, hp, -⟩ := h
  exact hp.isNumber

/-- Only what is half a step beyond the greatest finite number is rounded to infinity. -/
theorem IsRounded.isFinite (h : IsRounded x r)
    (hlt : |r| < 2 ^ (1024 : ℤ) - 2 ^ (970 : ℤ)) : x.isFinite = true := by
  obtain ⟨p, hp, hrounds⟩ := h
  obtain ⟨q, rfl⟩ := hrounds.finite hlt
  exact isFinite_iff.mpr ⟨q, hp⟩

section Exact

variable (hx : Stands x ((a : ℝ) : EReal)) (hy : Stands y ((b : ℝ) : EReal))
include hx hy

/-- **A sum is the exact one, rounded.** -/
theorem Stands.add : IsRounded (x + y) (a + b) := yields_add hx.reads hy.reads

/-- **A difference is the exact one, rounded.** -/
theorem Stands.sub : IsRounded (x - y) (a - b) := by
  change Yields (UnpackedFloat.sub .binary64 x.toModel.unpack y.toModel.unpack) (a - b)
  rw [unpacked_sub, sub_eq_add_neg]
  exact yields_add hx.reads hy.reads.neg

/-- **A product is the exact one, rounded.** -/
theorem Stands.mul : IsRounded (x * y) (a * b) := yields_mul hx.reads hy.reads

/-- **A quotient is the exact one, rounded**, unless it is by zero. -/
theorem Stands.div (hb : b ≠ 0) : IsRounded (x / y) (a / b) := yields_div hx.reads hy.reads hb

end Exact

/-- A finite number is no greater than the greatest one. -/
theorem Stands.le_greatest (hx : Stands x ((a : ℝ) : EReal)) :
    a ≤ 2 ^ (1024 : ℤ) - 2 ^ (971 : ℤ) := by
  have hgreatest : (0 : ℚ) ≤ 2 ^ (1024 : ℤ) - 2 ^ (971 : ℤ) :=
    sub_nonneg.mpr (zpow_le_zpow_right₀ one_le_two (by norm_num))
  rcases hx.reads.held with rfl | ⟨d, hd, rfl | rfl⟩
  · exact hgreatest
  · exact value_le hd
  · exact (neg_nonpos.mpr (Dyadic.value_pos hd.pos).le).trans hgreatest

/-- What is added to a number must be large to go beyond the greatest finite one. -/
theorem Stands.isFinite_add (hx : Stands x ((a : ℝ) : EReal)) (hy : Stands y ((b : ℝ) : EReal))
    (ha : 0 ≤ a) (hle : a ≤ 2 ^ 64) (hb : 0 ≤ b) : (x + y).isFinite = true := by
  -- half a step at the end of the scale is `2 ^ 970`
  have hsmall : (2 : ℚ) ^ (64 : ℤ) < 2 ^ (970 : ℤ) :=
    zpow_lt_zpow_right₀ one_lt_two (by norm_num)
  refine (hx.add hy).isFinite ?_
  rw [abs_of_nonneg (add_nonneg ha hb)]
  calc a + b < 2 ^ (970 : ℤ) + (2 ^ (1024 : ℤ) - 2 ^ (971 : ℤ)) :=
        add_lt_add_of_lt_of_le (hle.trans_lt hsmall) hy.le_greatest
    _ = 2 ^ (1024 : ℤ) - 2 ^ (970 : ℤ) := by
        rw [show (971 : ℤ) = 970 + 1 from rfl, zpow_add_one₀ two_ne_zero]
        ring

/-! ### Infinite operands -/

theorem sub_infinity (hu : Reads u a) (t : Sign) :
    UnpackedFloat.sub .binary64 u (.infinity t) = .infinity (-t) := by
  cases hu with
  | zero s => rfl
  | finite s hd => rfl

theorem mul_infinity (hu : Reads u a) (ha : a ≠ 0) (t : Sign) :
    ∃ s, UnpackedFloat.mul .binary64 u (.infinity t) = .infinity s := by
  cases hu with
  | zero s => exact absurd rfl ha
  | finite s hd => exact ⟨s * t, rfl⟩

theorem infinity_div (hv : Reads v b) (s : Sign) :
    ∃ t, UnpackedFloat.div .binary64 (.infinity s) v = .infinity t := by
  cases hv with
  | zero t => exact ⟨s / t, rfl⟩
  | finite t hd => exact ⟨s / t, rfl⟩

/-- A difference from a finite number is a number. -/
theorem Stands.isNumber_sub (hx : Stands x ((a : ℝ) : EReal)) (hy : y ≤ y) : x - y ≤ x - y := by
  rcases finite_or_infinity hy with ⟨b, hb⟩ | ⟨t, ht⟩
  · exact (hx.sub hb).isNumber
  · have hsub := sub_infinity hx.reads t
    rw [← ht] at hsub
    have hplace : Stands (x - y) (signed (-t) ⊤) := by
      change place? (Float.Model.pack (UnpackedFloat.sub .binary64 _ _)).unpack = _
      rw [hsub, place?_pack_infinity]
    exact hplace.isNumber

/-- A product with a finite number that is not zero is a number. -/
theorem Stands.isNumber_mul (hx : Stands x ((a : ℝ) : EReal)) (ha : a ≠ 0) (hy : y ≤ y) :
    x * y ≤ x * y := by
  rcases finite_or_infinity hy with ⟨b, hb⟩ | ⟨t, ht⟩
  · exact (hx.mul hb).isNumber
  · obtain ⟨s, hmul⟩ := mul_infinity hx.reads ha t
    rw [← ht] at hmul
    have hplace : Stands (x * y) (signed s ⊤) := by
      change place? (Float.Model.pack (UnpackedFloat.mul .binary64 _ _)).unpack = _
      rw [hmul, place?_pack_infinity]
    exact hplace.isNumber

/-- A quotient by a finite number that is not zero is a number. -/
theorem Stands.isNumber_div (hy : Stands y ((b : ℝ) : EReal)) (hb : b ≠ 0) (hx : x ≤ x) :
    x / y ≤ x / y := by
  rcases finite_or_infinity hx with ⟨a, ha⟩ | ⟨s, hs⟩
  · exact (ha.div hy hb).isNumber
  · obtain ⟨t, hdiv⟩ := infinity_div hy.reads s
    rw [← hs] at hdiv
    have hplace : Stands (x / y) (signed t ⊤) := by
      change place? (Float.Model.pack (UnpackedFloat.div .binary64 _ _)).unpack = _
      rw [hdiv, place?_pack_infinity]
    exact hplace.isNumber

/-! ### Numbers within bounds -/

theorem stands_zero : Stands 0.0 (((0 : ℚ) : ℝ) : EReal) := by
  have hzero : (0.0 : Float).toModel.unpack = .zero .positive := rfl
  rw [Stands, hzero]
  simp [place?]

theorem stands_one : Stands 1.0 (((1 : ℚ) : ℝ) : EReal) := by
  have hone : (1.0 : Float).toModel.unpack = .finite .positive (2 ^ 52) (-52) (by decide) := rfl
  rw [Stands, hone]
  simp only [place?, signed]
  norm_num

/-- The number `2 ^ 64`. -/
theorem stands_wordCount : Stands 18446744073709551616.0 (((2 ^ 64 : ℚ) : ℝ) : EReal) := by
  have hcount : (18446744073709551616.0 : Float).toModel.unpack
      = .finite .positive (2 ^ 52) 12 (by decide) := rfl
  rw [Stands, hcount]
  simp only [place?, signed]
  norm_num

/-- A result that is exactly between two numbers is between them when it is rounded. -/
theorem IsRounded.exists_stands (h : IsRounded y r) (hx : Stands x ((a : ℝ) : EReal))
    (hz : Stands z ((b : ℝ) : EReal)) (ha : a ≤ r) (hb : r ≤ b) :
    ∃ q : ℚ, Stands y ((q : ℝ) : EReal) ∧ a ≤ q ∧ q ≤ b :=
  exists_stands_of_between hx hz (h.ge hx ha) (h.le hz hb)

/-! ### What is no number -/

theorem isNumber_iff : x ≤ x ↔ x.toModel.unpack ≠ .notANumber := by
  rw [← exists_stands_iff]
  exact ⟨fun h => (exists_stands_of_le h).1, fun ⟨_, hp⟩ => hp.isNumber⟩

/-- What is no number makes no sum that is one. -/
theorem isNumber_of_add (h : x + y ≤ x + y) : y ≤ y := by
  rw [isNumber_iff] at h ⊢
  intro hy
  apply h
  have hadd : UnpackedFloat.add .binary64 x.toModel.unpack y.toModel.unpack = .notANumber := by
    rw [hy]
    cases x.toModel.unpack <;> rfl
  change (Float.Model.pack (UnpackedFloat.add .binary64 _ _)).unpack = _
  rw [hadd]
  rfl

/-- What is no number makes no quotient that is one. -/
theorem isNumber_of_div (h : x / y ≤ x / y) : y ≤ y := by
  rw [isNumber_iff] at h ⊢
  intro hy
  apply h
  have hdiv : UnpackedFloat.div .binary64 x.toModel.unpack y.toModel.unpack = .notANumber := by
    rw [hy]
    cases x.toModel.unpack <;> rfl
  change (Float.Model.pack (UnpackedFloat.div .binary64 _ _)).unpack = _
  rw [hdiv]
  rfl

/-! ### Whole numbers -/

theorem isRounded_toFloat (w : UInt64) : IsRounded w.toFloat w.toNat := by
  have hyields := yields_normalize (w.toNat : ℤ) 0
  rw [zpow_zero, mul_one, Int.cast_natCast] at hyields
  exact hyields

theorem isRounded_ofScientific {n : ℕ} (hn : 0 < n) :
    IsRounded (Float.ofModel (Float.Model.ofScientific n 0)) n := by
  have hlog : 52 ≤ (n <<< 53).log2 := by
    refine (Nat.le_log2 (by rw [Nat.shiftLeft_eq]; positivity)).mpr ?_
    rw [Nat.shiftLeft_eq]
    omega
  have hround : Float.Model.UnpackedFloat.ofScientific .binary64 n 0
      = Float.Model.UnpackedFloat.roundWithAccuracy .binary64 .positive (n <<< 53 * 1) (-53)
        .exact := by
    unfold Float.Model.UnpackedFloat.ofScientific
    have hpos : (0 : ℤ) < 2 ^ Float.Model.Format.binary64.exponentBits := by positivity
    rw [dif_neg hn.ne', if_neg (by decide), if_neg (by omega), if_pos le_rfl]
    rfl
  have hyields := yields_roundWithAccuracy (Locates.exact (n <<< 53 * 1)) (e := -53)
    (by simp only [target, mul_one]; omega) .positive
  rw [← hround] at hyields
  have hexact : factor .positive * (((n <<< 53 * 1 : ℕ) : ℚ) * 2 ^ (-53 : ℤ)) = n := by
    rw [factor, Nat.shiftLeft_eq]
    push_cast
    ring
  rwa [hexact] at hyields

/-- A whole number below `2 ^ 64` is finite, and not greater. -/
theorem exists_stands_ofNat {n : ℕ} (hn : n < 2 ^ 64) :
    ∃ r : ℚ, Stands (Float.ofNat n) ((r : ℝ) : EReal) ∧ 0 ≤ r ∧ r ≤ 2 ^ 64 := by
  have hcount : (n : ℚ) ≤ 2 ^ 64 := by exact_mod_cast hn.le
  change ∃ r : ℚ, Stands (Float.ofScientific n false 0) ((r : ℝ) : EReal) ∧ 0 ≤ r ∧ r ≤ 2 ^ 64
  unfold Float.ofScientific
  split
  · next hsmall =>
    -- exact as it is, but rounded again when it is multiplied by one
    have hword : (n.toUInt64.toNat : ℚ) = n := by
      rw [Nat.toUInt64_eq, UInt64.toNat_ofNat', Nat.mod_eq_of_lt hn]
    have hfloat := isRounded_toFloat n.toUInt64
    rw [hword] at hfloat
    obtain ⟨q, hq, hnonneg, hle⟩ :=
      hfloat.exists_stands stands_zero stands_wordCount (Nat.cast_nonneg n) hcount
    have hproduct := hq.mul stands_one
    rw [mul_one] at hproduct
    exact hproduct.exists_stands stands_zero stands_wordCount hnonneg hle
  · next hlarge =>
    have hpos : 0 < n := by
      by_contra hzero
      exact hlarge ⟨by omega, by decide⟩
    exact (isRounded_ofScientific hpos).exists_stands stands_zero stands_wordCount
      (Nat.cast_nonneg n) hcount

end TaskAllocation.Double
