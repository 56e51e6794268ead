import TaskAllocation.Proofs.Decimal.Reading

/-!
# Shortest decimals are read back

A number is written with as few digits as tell it from its neighbours.  Whether a decimal does so
is decided with whole numbers, by comparing cross products, and that decides exactly whether it
lies in the interval around the number.

## Main results

* `Dyadic.readsBack_iff` — the test whether a decimal reads back is exact.
* `Dyadic.near_shortest` — the shortest decimal of a number lies in the interval around it.
-/

namespace TaskAllocation.Dyadic

variable {d : Dyadic} {c : Decimal} {tie : Tie}

/-! ### The shortest decimal -/

/-- The test whether a decimal reads back is exact. -/
theorem readsBack_iff (d : Dyadic) (c : Decimal) : d.readsBack c = true ↔ d.Near c.value := by
  have hten := powDown_pos 10 (by decide) c.exponent
  have htwo := powDown_pos 2 two_pos d.exponent
  have hup : 0 < powUp 2 d.exponent := Nat.pow_pos two_pos
  have hunit : (0 : ℚ) < (powUp 2 d.exponent * powDown 10 c.exponent : ℕ) := by
    exact_mod_cast Nat.mul_pos hup hten
  have hscale : 4 * c.value / 2 ^ d.exponent
      = ((4 * c.digits * powUp 10 c.exponent * powDown 2 d.exponent : ℕ) : ℚ)
        / (powUp 2 d.exponent * powDown 10 c.exponent : ℕ) := by
    have hten' : (powDown 10 c.exponent : ℚ) ≠ 0 := by exact_mod_cast hten.ne'
    have htwo' : (powDown 2 d.exponent : ℚ) ≠ 0 := by exact_mod_cast htwo.ne'
    have hup' : (powUp 2 d.exponent : ℚ) ≠ 0 := by exact_mod_cast hup.ne'
    rw [Decimal.value, show (10 : ℚ) = (10 : ℕ) from rfl, show (2 : ℚ) = (2 : ℕ) from rfl,
      ← powUp_div_powDown 10 (by decide), ← powUp_div_powDown 2 two_pos]
    push_cast
    field_simp
  simp only [readsBack, Near, hscale, le_div_iff₀ hunit, div_le_iff₀ hunit, lt_div_iff₀ hunit,
    div_lt_iff₀ hunit]
  norm_cast
  split <;> simp

theorem value_stripUpTo (bound : ℕ) (c : Decimal) : (c.stripUpTo bound).value = c.value := by
  induction bound generalizing c with
  | zero => rfl
  | succ bound ih =>
    rw [Decimal.stripUpTo]
    split
    · next hzero =>
      have hdigits : (c.digits : ℚ) = 10 * (c.digits / 10 : ℕ) := by
        exact_mod_cast (Nat.mul_div_cancel' (Nat.dvd_of_mod_eq_zero hzero)).symm
      rw [ih, Decimal.value, Decimal.value, hdigits, zpow_add₀ (by norm_num), zpow_one]
      ring
    · rfl

theorem value_strip (c : Decimal) : c.strip.value = c.value := value_stripUpTo _ c

theorem value_exact (d : Dyadic) : d.exact.value = d.value := by
  unfold exact
  split
  · next h =>
    rw [Decimal.value, value, zpow_zero, mul_one, powUp, Nat.pow_eq]
    push_cast
    rw [← zpow_natCast, Int.toNat_of_nonneg h]
  · next h =>
    have hexponent : d.exponent = -(d.exponent.natAbs : ℤ) := by omega
    rw [Decimal.value, value, Nat.pow_eq]
    rw [hexponent, Int.natAbs_neg, Int.natAbs_natCast, zpow_neg, zpow_neg, zpow_natCast,
      zpow_natCast]
    push_cast
    rw [show (10 : ℚ) = 5 * 2 by norm_num, mul_pow]
    field_simp

theorem readsBack_of_withDigits? {scale : ℤ} {count : ℕ}
    (h : d.withDigits? tie scale count = some c) : d.readsBack c = true := by
  simp only [withDigits?] at h
  split at h
  · cases h
    assumption
  split at h
  · cases h
    assumption
  · cases h

/-- **The shortest decimal of a number is rounded to it.** -/
theorem near_shortest (h : 0 < d.mantissa) (tie : Tie) : d.Near (d.shortest tie).value := by
  rw [shortest, if_neg h.ne']
  simp only
  split
  · next hc =>
    obtain ⟨count, -, hcount⟩ := List.exists_of_findSome?_eq_some hc
    rw [value_strip, ← readsBack_iff]
    exact readsBack_of_withDigits? hcount
  · rw [value_strip, value_exact]
    exact near_value h

end TaskAllocation.Dyadic
