import TaskAllocation.Proofs.Decimal.Encoding

/-!
# Decimals are read as the nearest number

A decimal with few digits and a small exponent is read in one operation on numbers that double
precision holds exactly; any other is multiplied or divided out with whole numbers.  Both ways
round the exact value once, and so a decimal that lies in the interval around a number is read as
that number.

## Main definitions

* `Dyadic.toFloat` — the number of a sign and a magnitude that double precision can hold.
* `Dyadic.ofNat` — a whole number as double precision holds it.
* `Decimal.value` — the number that a decimal stands for.

## Main results

* `Dyadic.ofScientific_eq` — both ways of reading a decimal round it to the nearest number.
* `Decimal.toFloat_eq` — a decimal in the interval around a number is read as that number.
-/

namespace TaskAllocation.Dyadic

open Float.Model Float.Model.UnpackedFloat Double

variable {d : Dyadic} {m n : ℕ} {e : ℤ} {v : ℚ} {x y : Float}

/-! ### Numbers from their parts -/

theorem sign_eq (x : Float) : sign x = if signBit x then .negative else .positive := by
  have hb : x.toBits.toNat < 2 ^ 64 := x.toBits.toNat_lt
  have hsign : (unpackSign (encoding x)).toNat = x.toBits.toNat / 2 ^ 63 := by
    have : (unpackSign (encoding x)).toNat = (encoding x).toNat / 2 ^ 63 % 2 := by
      simp [unpackSign, Nat.shiftRight_eq_div_pow]
    rw [this]
    change x.toBits.toNat / 2 ^ 63 % 2 = _
    omega
  have hiff : unpackSign (encoding x) = 0#1 ↔ ¬signBit x = true := by
    rw [← BitVec.toNat_inj, hsign, signBit, decide_eq_true_iff]
    change x.toBits.toNat / 2 ^ 63 = 0 ↔ ¬2 ^ 63 ≤ x.toBits.toNat
    omega
  unfold sign Sign.ofBitVec
  by_cases h : signBit x = true
  · rw [if_neg (by rwa [hiff, not_not]), if_pos h]
  · rw [if_pos (hiff.2 h), if_neg h]

/-- A number lies in its own interval. -/
theorem near_value (h : 0 < d.mantissa) : d.Near d.value := by
  have hscale : 4 * d.value / 2 ^ d.exponent = 4 * d.mantissa := by
    rw [value]
    field_simp
  have hup := upperEnd_eq d
  have hlow : (d.lowerEnd : ℚ) < 4 * d.mantissa := by
    have : d.lowerEnd < 4 * d.mantissa := by
      unfold lowerEnd
      split <;> omega
    exact_mod_cast this
  simp only [Near, hscale, hup]
  split
  · constructor <;> linarith
  · constructor <;> linarith

/-- The number of a given sign and magnitude. -/
def toFloat (s : Sign) (h : d.Fits) : Float :=
  ⟨Float.Model.pack (.finite s d.mantissa d.exponent h.pos)⟩

theorem unpack_toFloat (s : Sign) (h : d.Fits) :
    (toFloat s h).toModel.unpack = .finite s d.mantissa d.exponent h.pos := h.unpack_pack s

/-- A number that is held already keeps its exponent. -/
theorem Fits.target_eq (h : d.Fits) : target d.mantissa d.exponent = d.exponent := by
  have hlt : d.mantissa.log2 < 53 := (Nat.log2_lt h.pos.ne').2 h.lt
  have hge : 52 ≤ d.mantissa.log2 ∨ d.exponent = -1074 :=
    h.normal.imp_left (Nat.le_log2 h.pos.ne').2
  have hle := h.le_exponent
  simp only [target]
  omega

/-! ### Whole numbers -/

/-- The whole number `m` as double precision holds it. -/
def ofNat (m : ℕ) : Dyadic where
  mantissa := m <<< (52 - m.log2)
  exponent := m.log2 - 52
  narrowBelow := m <<< (52 - m.log2) = 2 ^ 52

theorem value_ofNat (hm : m < 2 ^ 53) (hpos : 0 < m) : (ofNat m).value = m := by
  have hlog : m.log2 < 53 := (Nat.log2_lt hpos.ne').2 hm
  have hexponent : (m.log2 - 52 : ℤ) = -(52 - m.log2 : ℕ) := by omega
  simp only [value, ofNat, hexponent, Nat.shiftLeft_eq, zpow_neg, zpow_natCast]
  push_cast
  field_simp

theorem mantissa_ofNat_ge (hpos : 0 < m) : 2 ^ 52 ≤ (ofNat m).mantissa := by
  simp only [ofNat, Nat.shiftLeft_eq]
  calc 2 ^ 52 ≤ 2 ^ (m.log2 + (52 - m.log2)) := Nat.pow_le_pow_right two_pos (by omega)
    _ = 2 ^ m.log2 * 2 ^ (52 - m.log2) := Nat.pow_add _ _ _
    _ ≤ m * 2 ^ (52 - m.log2) := Nat.mul_le_mul_right _ (Nat.log2_self_le hpos.ne')

theorem fits_ofNat (hm : m < 2 ^ 53) (hpos : 0 < m) : (ofNat m).Fits := by
  have hlog : m.log2 < 53 := (Nat.log2_lt hpos.ne').2 hm
  have hpow : 2 ^ m.log2 * 2 ^ (52 - m.log2) = 2 ^ 52 := by
    rw [← Nat.pow_add]
    congr 1
    omega
  have hge := mantissa_ofNat_ge hpos
  have hlt : m <<< (52 - m.log2) < 2 ^ 53 := by
    rw [Nat.shiftLeft_eq]
    calc m * 2 ^ (52 - m.log2) < 2 ^ (m.log2 + 1) * 2 ^ (52 - m.log2) :=
          Nat.mul_lt_mul_of_pos_right Nat.lt_log2_self (by positivity)
      _ = 2 ^ 52 * 2 := by rw [Nat.pow_succ, mul_right_comm, hpow]
  exact
    { pos := by omega
      lt := hlt
      le_exponent := by simp only [ofNat]; omega
      exponent_le := by simp only [ofNat]; omega
      normal := .inl hge
      narrow := by
        simp only [ofNat, decide_eq_true_eq]
        exact ⟨fun h => ⟨h, by omega⟩, And.left⟩ }

/-- A whole number below the greatest mantissa is converted exactly. -/
theorem toFloat_toUInt64 (hm : m < 2 ^ 53) (hpos : 0 < m) :
    m.toUInt64.toFloat = toFloat .positive (fits_ofNat hm hpos) := by
  have h := fits_ofNat hm hpos
  have hlog : m.log2 < 53 := (Nat.log2_lt hpos.ne').2 hm
  have hnat : m.toUInt64.toNat = m := by
    rw [Nat.toUInt64, UInt64.toNat_ofNat']
    exact Nat.mod_eq_of_lt (by omega)
  have hround : Float.Model.UnpackedFloat.round .binary64 .positive m 0
      = .finite .positive (ofNat m).mantissa (ofNat m).exponent h.pos := by
    have htarget : Format.binary64.targetExponent (totalExponent m 0) = (ofNat m).exponent := by
      change max ((m.log2 : ℤ) + 1 + 0 - 53) (-1074) = (m.log2 : ℤ) - 52
      omega
    have hdecrease : decreaseExponent m 0 (ofNat m).exponent
        = ((ofNat m).mantissa, (ofNat m).exponent) := by
      have hshift : (0 - (ofNat m).exponent).toNat = 52 - m.log2 := by
        simp only [ofNat]
        omega
      simp only [decreaseExponent, hshift]
      simp only [ofNat, Prod.mk.injEq, true_and]
      omega
    simp only [Float.Model.UnpackedFloat.round, htarget, hdecrease]
    refine h.roundWithAccuracy_eq .positive (Locates.exact _) ?_ (near_value h.pos)
    exact h.target_eq.ge
  have hcompare : compare (m : ℤ) 0 = .gt := compare_gt_iff_gt.2 (by omega)
  refine congrArg (fun f => (⟨Float.Model.pack f⟩ : Float)) ?_
  simp only [UnpackedFloat.ofUInt64, UnpackedFloat.ofNat, UnpackedFloat.ofInt,
    UnpackedFloat.normalize, hnat, hcompare, Int.toNat_natCast]
  exact hround

/-! ### Powers of ten -/

/-- The number is positive and equal to `10 ^ n`. -/
def isPowerOfTen (n : ℕ) (x : Float) : Bool :=
  !signBit x && (ofFloat? x).any fun d =>
    d.mantissa * powUp 2 d.exponent = 10 ^ n * powDown 2 d.exponent

theorem powUp_div_powDown (base : ℕ) (hbase : 0 < base) (e : ℤ) :
    (powUp base e : ℚ) / powDown base e = (base : ℚ) ^ e := by
  have hne : (base : ℚ) ≠ 0 := by exact_mod_cast hbase.ne'
  obtain ⟨n, rfl | rfl⟩ := e.eq_nat_or_neg
  · simp [powUp, powDown]
  · simp [powUp, powDown]

theorem powDown_pos (base : ℕ) (hbase : 0 < base) (e : ℤ) : 0 < powDown base e :=
  Nat.pow_pos hbase

theorem exists_of_isPowerOfTen (h : isPowerOfTen n x = true) :
    ∃ d : Dyadic, ∃ hd : d.Fits, x.toModel.unpack = .finite .positive d.mantissa d.exponent hd.pos ∧
      d.value = 10 ^ n := by
  simp only [isPowerOfTen, Bool.and_eq_true, Bool.not_eq_true', Option.any_eq_true,
    decide_eq_true_eq] at h
  obtain ⟨hsign, d, hd, hvalue⟩ := h
  have hdown := powDown_pos 2 two_pos d.exponent
  have hten : d.value = 10 ^ n := by
    have hdown' : (powDown 2 d.exponent : ℚ) ≠ 0 := by exact_mod_cast hdown.ne'
    have hvalue' : (d.mantissa : ℚ) * powUp 2 d.exponent = 10 ^ n * powDown 2 d.exponent := by
      exact_mod_cast hvalue
    have hpow := powUp_div_powDown 2 two_pos d.exponent
    rw [value, show (2 : ℚ) = (2 : ℕ) from rfl, ← hpow, ← mul_div_assoc, hvalue']
    field_simp
  obtain ⟨hzero, -⟩ | ⟨hfits, hunpack⟩ := unpack_of_ofFloat?_eq_some hd
  · have : (0 : ℚ) < 10 ^ n := by positivity
    rw [← hten, value, hzero] at this
    simp at this
  · rw [sign_eq, hsign] at hunpack
    exact ⟨d, hfits, hunpack, hten⟩

theorem isPowerOfTen_table : ∀ n (h : n < Float.exactlyRepresentablePowersOfTen.size),
    isPowerOfTen n Float.exactlyRepresentablePowersOfTen[n] = true := by
  decide

/-! ### Decimals -/

/-- A product of two numbers, the first of which has all its digits. -/
theorem mul_eq {d₁ d₂ : Dyadic} (h₁ : d₁.Fits) (h₂ : d₂.Fits) (h : d.Fits)
    (hx : x.toModel.unpack = .finite .positive d₁.mantissa d₁.exponent h₁.pos)
    (hy : y.toModel.unpack = .finite .positive d₂.mantissa d₂.exponent h₂.pos)
    (hfull : 2 ^ 52 ≤ d₁.mantissa) (hv : d.Near (d₁.value * d₂.value)) :
    x * y = toFloat .positive h := by
  have hk : 2 ^ 52 ≤ d₁.mantissa * d₂.mantissa := hfull.trans (Nat.le_mul_of_pos_right _ h₂.pos)
  have hmul := h.mul_eq .positive .positive h₁.pos h₂.pos hk hv
  rw [← hx, ← hy] at hmul
  exact congrArg (fun f => (⟨Float.Model.pack f⟩ : Float)) hmul

/-- A quotient of two numbers. -/
theorem div_eq {d₁ d₂ : Dyadic} (h₁ : d₁.Fits) (h₂ : d₂.Fits) (h : d.Fits)
    (hx : x.toModel.unpack = .finite .positive d₁.mantissa d₁.exponent h₁.pos)
    (hy : y.toModel.unpack = .finite .positive d₂.mantissa d₂.exponent h₂.pos)
    (hv : d.Near (d₁.value / d₂.value)) : x / y = toFloat .positive h := by
  have hdiv := h.div_eq .positive .positive h₁.pos h₂.pos hv
  rw [← hx, ← hy] at hdiv
  exact congrArg (fun f => (⟨Float.Model.pack f⟩ : Float)) hdiv

/-- A decimal is multiplied or divided out with 53 more binary digits, and rounded once. -/
theorem unpacked_ofScientific (h : d.Fits) (hm : 0 < m) {e : ℤ} (hlow : -(2 ^ 11 + m.log2) ≤ e)
    (hhigh : e ≤ 2 ^ 11) (hv : d.Near (m * 10 ^ e)) :
    UnpackedFloat.ofScientific .binary64 m e = .finite .positive d.mantissa d.exponent h.pos := by
  simp only [UnpackedFloat.ofScientific]
  rw [dif_neg hm.ne', if_neg (by simpa using hhigh), if_neg (by simpa using hlow)]
  split
  · next he =>
    have hten : 1 ≤ 10 ^ e.toNat := Nat.one_le_pow _ _ (by decide)
    refine h.mul_eq _ _ _ _ ?_ ?_
    · rw [Nat.shiftLeft_eq]
      calc 2 ^ 52 ≤ 1 * 2 ^ 53 * 1 := by decide
        _ ≤ m * 2 ^ 53 * 10 ^ e.toNat :=
            Nat.mul_le_mul (Nat.mul_le_mul_right _ hm) hten
    · have hscale : ((m <<< 53 : ℕ) : ℚ) * 2 ^ (-53 : ℤ) = m := by
        rw [Nat.shiftLeft_eq, Nat.cast_mul, Nat.cast_pow, zpow_neg, Nat.cast_ofNat]
        exact mul_inv_cancel_right₀ (by positivity) _
      have hpow : ((10 ^ e.toNat : ℕ) : ℚ) * 2 ^ (0 : ℤ) = 10 ^ e := by
        rw [zpow_zero, mul_one, Nat.cast_pow, ← zpow_natCast, Int.toNat_of_nonneg he]
        rfl
      rw [← hscale, ← hpow] at hv
      exact hv
  · next he =>
    refine h.div_eq _ _ _ _ ?_
    have hpow : (10 : ℚ) ^ e = (((10 ^ (-e).toNat : ℕ) : ℚ))⁻¹ := by
      rw [Nat.cast_pow, ← zpow_natCast, ← zpow_neg, Int.toNat_of_nonneg (by omega), neg_neg]
      rfl
    rw [zpow_zero, mul_one, mul_one, div_eq_mul_inv, ← hpow]
    exact hv

/-- A decimal is read as the number whose interval it lies in. -/
theorem ofScientific_eq (h : d.Fits) (hm : 0 < m) {e : ℤ} (hlow : -(2 ^ 11 + m.log2) ≤ e)
    (hhigh : e ≤ 2 ^ 11) (hv : d.Near (m * 10 ^ e)) :
    Float.ofScientific m (e < 0) e.natAbs = toFloat .positive h := by
  unfold Float.ofScientific
  split
  · -- both the digits and the power of ten are held exactly, and so are only rounded once
    next hsmall =>
    obtain ⟨hlt, hpow⟩ := hsmall
    have hfull : 2 ^ 52 ≤ (ofNat m).mantissa := mantissa_ofNat_ge hm
    have hx := (congrArg (fun x : Float => x.toModel.unpack) (toFloat_toUInt64 hlt hm)).trans
      (unpack_toFloat _ _)
    obtain ⟨d₂, h₂, hy, hten⟩ := exists_of_isPowerOfTen (isPowerOfTen_table e.natAbs (by
      change e.natAbs < 23
      omega))
    by_cases he : e < 0
    · simp only [he, decide_true, if_true]
      refine div_eq (fits_ofNat hlt hm) h₂ h hx hy ?_
      rwa [value_ofNat hlt hm, hten, ← zpow_natCast, div_eq_mul_inv, ← zpow_neg,
        show -(e.natAbs : ℤ) = e by omega]
    · simp only [he, decide_false, Bool.false_eq_true, if_false]
      refine mul_eq (fits_ofNat hlt hm) h₂ h hx hy hfull ?_
      rwa [value_ofNat hlt hm, hten, ← zpow_natCast, show (e.natAbs : ℤ) = e by omega]
  · have hexponent : (if decide (e < 0) = true then Int.negOfNat e.natAbs else Int.ofNat e.natAbs)
        = e := by
      by_cases he : e < 0
      · rw [if_pos (by simpa using he), Int.negOfNat_eq, Int.ofNat_eq_natCast]
        omega
      · rw [if_neg (by simpa using he), Int.ofNat_eq_natCast]
        omega
    simp only [hexponent]
    exact congrArg (fun f => (⟨Float.Model.pack f⟩ : Float))
      (unpacked_ofScientific h hm hlow hhigh hv)

/-! ### The range of double precision -/

/-- What is rounded to a number other than zero is at least half of the least one. -/
theorem Fits.le_of_near (h : d.Fits) (hv : d.Near v) : 2 ^ (-1075 : ℤ) ≤ v := by
  have hlow := hv.bounds.1
  have hend := lowerEnd_ge h.pos
  have hone : (1 : ℚ) ≤ d.mantissa := by exact_mod_cast h.pos
  rw [le_div_iff₀ (by positivity)] at hlow
  have hunit : (2 : ℚ) ^ (-1074 : ℤ) ≤ 2 ^ d.exponent :=
    zpow_le_zpow_right₀ one_le_two h.le_exponent
  have hhalf : (2 : ℚ) ^ (-1075 : ℤ) = 2 ^ (-1074 : ℤ) / 2 := by
    rw [show (-1075 : ℤ) = -1074 - 1 from rfl, zpow_sub₀ two_ne_zero, zpow_one]
  have hpos : (0 : ℚ) < 2 ^ d.exponent := by positivity
  rw [hhalf]
  nlinarith

theorem Fits.lt_of_near_max (h : d.Fits) (hv : d.Near v) : v < 2 ^ (1024 : ℤ) :=
  (h.lt_of_near hv).trans_le (zpow_le_zpow_right₀ one_le_two (by have := h.exponent_le; omega))

end TaskAllocation.Dyadic

namespace TaskAllocation.Decimal

variable {c : Decimal} {d : Dyadic}

/-- The number that the digits stand for. -/
def value (c : Decimal) : ℚ := c.digits * 10 ^ c.exponent

theorem toFloat_of_value_eq_zero (h : c.value = 0) : c.toFloat = 0.0 := by
  have hdigits : c.digits = 0 := by
    have := (mul_eq_zero.1 h).resolve_right (by positivity)
    exact_mod_cast this
  simp only [toFloat]
  rw [if_pos (.inl hdigits)]

/-- The number of digits before the point. -/
def magnitude (c : Decimal) : ℤ := c.exponent + (Nat.toDigits 10 c.digits).length

theorem value_lt (c : Decimal) : c.value < 10 ^ c.magnitude := by
  have hlt : (c.digits : ℚ) < 10 ^ (Nat.toDigits 10 c.digits).length := by
    have hpos : 0 < (Nat.toDigits 10 c.digits).length :=
      List.length_pos_iff.2 Nat.toDigits_ne_nil
    exact_mod_cast (Nat.length_toDigits_le_iff (by decide) hpos).1 le_rfl
  rw [value, magnitude, add_comm, zpow_add₀ (by norm_num), zpow_natCast]
  exact mul_lt_mul_of_pos_right hlt (by positivity)

theorem le_value (hpos : 0 < c.digits) : 10 ^ (c.magnitude - 1) ≤ c.value := by
  obtain ⟨n, hn⟩ : ∃ n, (Nat.toDigits 10 c.digits).length = n + 1 :=
    Nat.exists_eq_succ_of_ne_zero (List.length_pos_iff.2 Nat.toDigits_ne_nil).ne'
  have hle : 10 ^ n ≤ c.digits := by
    obtain rfl | hn' := Nat.eq_zero_or_pos n
    · exact hpos
    · have := (Nat.length_toDigits_le_iff (b := 10) (n := c.digits) (by decide) hn').not
      rw [hn] at this
      exact not_lt.1 (this.1 (by omega))
  have hexponent : c.magnitude - 1 = n + c.exponent := by
    rw [magnitude, hn]
    push_cast
    ring
  rw [value, hexponent, zpow_add₀ (by norm_num), zpow_natCast]
  refine mul_le_mul_of_nonneg_right ?_ (by positivity)
  exact_mod_cast hle

/-- A number has no more decimal digits than binary ones. -/
theorem length_toDigits_le (n : ℕ) : (Nat.toDigits 10 n).length ≤ n.log2 + 1 := by
  refine (Nat.length_toDigits_le_iff (by decide) (by omega)).2 ?_
  exact Nat.lt_log2_self.trans_le (Nat.pow_le_pow_left (by decide) _)

/-- Every number in double precision has fewer than four hundred digits before the point, and
no more zeros behind it. -/
theorem two_pow_lt_ten_pow : (2 : ℚ) ^ 1200 < 10 ^ 400 := by
  calc (2 : ℚ) ^ 1200 = (2 ^ 3) ^ 400 := by rw [← pow_mul]
    _ < 10 ^ 400 := pow_lt_pow_left₀ (by norm_num) (by norm_num) (by decide)

/-- **A decimal in the interval around a number is read as that number.** -/
theorem toFloat_eq (h : d.Fits) (hv : d.Near c.value) : c.toFloat = Dyadic.toFloat .positive h := by
  have hlow := h.le_of_near hv
  have hhigh := h.lt_of_near_max hv
  have hpos : 0 < c.digits := by
    refine Nat.pos_of_ne_zero fun hzero => ?_
    rw [value, hzero, Nat.cast_zero, zero_mul] at hlow
    exact absurd hlow (not_le.2 (by positivity))
  have hmin : -400 ≤ c.magnitude := by
    by_contra hless
    have hfar : (10 : ℚ) ^ c.magnitude < 2 ^ (-1075 : ℤ) :=
      calc (10 : ℚ) ^ c.magnitude ≤ 10 ^ (-400 : ℤ) :=
            zpow_le_zpow_right₀ (by norm_num) (by omega)
        _ = (10 ^ 400)⁻¹ := zpow_neg (10 : ℚ) 400
        _ < (2 ^ 1200)⁻¹ := inv_strictAnti₀ (by positivity) two_pow_lt_ten_pow
        _ = 2 ^ (-1200 : ℤ) := (zpow_neg (2 : ℚ) 1200).symm
        _ ≤ 2 ^ (-1075 : ℤ) := zpow_le_zpow_right₀ one_le_two (by decide)
    exact lt_irrefl _ ((hlow.trans_lt c.value_lt).trans hfar)
  have hmax : c.magnitude ≤ 400 := by
    by_contra hgreat
    have hfar : (2 : ℚ) ^ (1024 : ℤ) < 10 ^ (c.magnitude - 1) :=
      calc (2 : ℚ) ^ (1024 : ℤ) ≤ 2 ^ (1200 : ℤ) := zpow_le_zpow_right₀ one_le_two (by decide)
        _ < 10 ^ (400 : ℤ) := two_pow_lt_ten_pow
        _ ≤ 10 ^ (c.magnitude - 1) := zpow_le_zpow_right₀ (by norm_num) (by omega)
    exact lt_irrefl _ (((le_value hpos).trans_lt hhigh).trans hfar)
  have hlen := length_toDigits_le c.digits
  have hlen' : 0 < (Nat.toDigits 10 c.digits).length := List.length_pos_iff.2 Nat.toDigits_ne_nil
  simp only [magnitude] at hmin hmax
  simp only [toFloat]
  rw [if_neg (by omega), if_neg (by omega)]
  exact Dyadic.ofScientific_eq h hpos (by omega) (by omega) hv

end TaskAllocation.Decimal
