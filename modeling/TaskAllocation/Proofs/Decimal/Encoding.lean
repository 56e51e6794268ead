import Mathlib
import TaskAllocation.Proofs.Decimal.Rounding

/-!
# Numbers in double precision and their encodings

A number is taken apart twice: into the binary digits that it is written from, and into the sign,
the mantissa and the exponent that arithmetic works on.  Both read the same bits, and so they
agree.  What double precision can hold is decoded as it was encoded.

## Main definitions

* `Dyadic.encoding` — the bits of a number.
* `Dyadic.sign` — the sign of a number.

## Main results

* `Dyadic.Fits.unpack_pack` — what double precision can hold is decoded as it was encoded.
* `Dyadic.eq_of_unpack_eq` — the decoded parts tell numbers apart.
* `Dyadic.unpack_of_ofFloat?_eq_some`, `Dyadic.unpack_of_ofFloat?_eq_none` — the binary digits of
  a number are the parts that it is decoded into.
-/

namespace TaskAllocation.Dyadic

open Float.Model Float.Model.UnpackedFloat

variable {b : BitVec Format.binary64.numBits} {d : Dyadic} {x y : Float}

/-! ### Decoding

The eleven bits of the exponent tell the kinds of numbers apart: all ones stand for infinity and
for what is no number, all zeros for zero and for the numbers without a leading bit. -/

theorem toNat_unpackMantissa (b : BitVec Format.binary64.numBits) :
    (unpackMantissa b).toNat = b.toNat % 2 ^ 52 := by
  simp [unpackMantissa]

theorem toNat_unpackExponent (b : BitVec Format.binary64.numBits) :
    (unpackExponent b).toNat = b.toNat / 2 ^ 52 % 2 ^ 11 := by
  simp [unpackExponent, Nat.shiftRight_eq_div_pow]

theorem unpack_of_max (h : unpackExponent b = -1#11) :
    UnpackedFloat.unpack .binary64 b
      = if unpackMantissa b = 0#52 then .infinity (Sign.ofBitVec (unpackSign b))
        else .notANumber := by
  simp only [UnpackedFloat.unpack]
  rw [if_pos h]

theorem unpack_of_zero (h : unpackExponent b = 0#11) (hm : unpackMantissa b = 0#52) :
    UnpackedFloat.unpack .binary64 b = .zero (Sign.ofBitVec (unpackSign b)) := by
  simp only [UnpackedFloat.unpack]
  rw [if_neg (by rw [h]; decide), if_pos h, dif_pos hm]

theorem unpack_of_least (h : unpackExponent b = 0#11) (hm : 0 < (unpackMantissa b).toNat) :
    UnpackedFloat.unpack .binary64 b
      = .finite (Sign.ofBitVec (unpackSign b)) (unpackMantissa b).toNat (-1074) hm := by
  have hne : unpackMantissa b ≠ 0#52 := fun h0 => by rw [h0] at hm; cases hm
  simp only [UnpackedFloat.unpack]
  rw [if_neg (by rw [h]; decide), if_pos h, dif_neg hne]
  congr 1
  rw [h]
  rfl

theorem unpack_of_normal (hmax : unpackExponent b ≠ -1#11) (hzero : unpackExponent b ≠ 0#11) :
    UnpackedFloat.unpack .binary64 b
      = .finite (Sign.ofBitVec (unpackSign b)) (2 ^ 52 + (unpackMantissa b).toNat)
        ((unpackExponent b).toNat - 1075) (by positivity) := by
  have hm : (1#1 ++ unpackMantissa b).toNat = 2 ^ 52 + (unpackMantissa b).toNat := by
    rw [BitVec.toNat_append, ← Nat.shiftLeft_add_eq_or_of_lt (unpackMantissa b).isLt]
    rfl
  simp only [UnpackedFloat.unpack]
  rw [if_neg hmax, if_neg hzero]
  congr 1

/-! ### Encoding -/

theorem exists_encoding_least {k : ℕ} (hk : 0 < k) (hlt : k < 2 ^ 52) (s : Sign) :
    ∃ b, Format.binary64.Valid b ∧
      UnpackedFloat.unpack .binary64 b = .finite s k (-1074) hk := by
  obtain ⟨mantissa, rfl⟩ : ∃ mantissa : BitVec 52, k = mantissa.toNat :=
    ⟨BitVec.ofNat 52 k, by rw [BitVec.toNat_ofNat, Nat.mod_eq_of_lt hlt]⟩
  refine ⟨packComponents .binary64 s 0#11 mantissa,
    ⟨fun hmax => absurd (unpackExponent_packComponents.symm.trans hmax) (by decide)⟩, ?_⟩
  rw [unpack_of_least (by rw [unpackExponent_packComponents])
    (by rwa [unpackMantissa_packComponents])]
  simp only [unpackMantissa_packComponents, unpackSign_packComponents, Sign.ofBitVec_toBitVec]

theorem exists_encoding_normal {k : ℕ} {e : ℤ} (hk : 0 < k) (hge : 2 ^ 52 ≤ k) (hlt : k < 2 ^ 53)
    (hle : -1074 ≤ e) (hmax : e ≤ 971) (s : Sign) : ∃ b, Format.binary64.Valid b ∧
      UnpackedFloat.unpack .binary64 b = .finite s k e hk := by
  obtain ⟨exponent, rfl⟩ : ∃ exponent : BitVec 11, e = exponent.toNat - 1075 := by
    refine ⟨BitVec.ofNat 11 (e + 1075).toNat, ?_⟩
    rw [BitVec.toNat_ofNat]
    omega
  obtain ⟨mantissa, rfl⟩ : ∃ mantissa : BitVec 52, k = 2 ^ 52 + mantissa.toNat := by
    refine ⟨BitVec.ofNat 52 (k - 2 ^ 52), ?_⟩
    rw [BitVec.toNat_ofNat]
    omega
  have hmax' : exponent ≠ -1#11 := by
    rintro rfl
    have : (-1#11).toNat = 2047 := rfl
    omega
  have hzero : exponent ≠ 0#11 := by
    rintro rfl
    have : (0#11).toNat = 0 := rfl
    omega
  refine ⟨packComponents .binary64 s exponent mantissa,
    ⟨fun h => absurd (unpackExponent_packComponents.symm.trans h) hmax'⟩, ?_⟩
  rw [unpack_of_normal (by rwa [unpackExponent_packComponents])
    (by rwa [unpackExponent_packComponents])]
  simp only [unpackExponent_packComponents, unpackMantissa_packComponents,
    unpackSign_packComponents, Sign.ofBitVec_toBitVec]

/-- What double precision can hold has an encoding. -/
theorem Fits.exists_encoding (h : d.Fits) (s : Sign) :
    ∃ b, Format.binary64.Valid b ∧
      UnpackedFloat.unpack .binary64 b = .finite s d.mantissa d.exponent h.pos := by
  by_cases hm : 2 ^ 52 ≤ d.mantissa
  · exact exists_encoding_normal h.pos hm h.lt h.le_exponent h.exponent_le s
  · have hleast := exists_encoding_least h.pos (not_le.1 hm) s
    rwa [← h.normal.resolve_left hm] at hleast

/-- What double precision can hold is decoded as it was encoded. -/
theorem Fits.unpack_pack (h : d.Fits) (s : Sign) :
    (Float.Model.pack (.finite s d.mantissa d.exponent h.pos)).unpack
      = .finite s d.mantissa d.exponent h.pos := by
  obtain ⟨b, hb, hunpack⟩ := h.exists_encoding s
  rw [← hunpack]
  exact congrArg (UnpackedFloat.unpack .binary64) (pack_unpack_of_valid hb)

/-! ### Numbers -/

/-- Numbers in double precision are told apart by what their encodings stand for. -/
theorem eq_of_unpack_eq (h : x.toModel.unpack = y.toModel.unpack) : x = y :=
  Float.toBits_inj.1 (UInt64.toBitVec_inj.1
    ((unpack_inj_of_valid x.toModel.valid y.toModel.valid).1 h))

/-- The encoding of a number. -/
def encoding (x : Float) : BitVec Format.binary64.numBits := x.toModel.toBits.toBitVec

/-- The sign of a number. -/
def sign (x : Float) : Sign := Sign.ofBitVec (unpackSign (encoding x))

theorem exponent_eq_neg_one_iff (x : Float) : unpackExponent (encoding x) = -1#11 ↔
    x.toBits.toNat / fractionCount % exponentCount + 1 = exponentCount := by
  rw [← BitVec.toNat_inj, toNat_unpackExponent]
  change x.toBits.toNat / 2 ^ 52 % 2 ^ 11 = 2047 ↔ x.toBits.toNat / 2 ^ 52 % 2 ^ 11 + 1 = 2048
  omega

theorem exponent_eq_zero_iff (x : Float) : unpackExponent (encoding x) = 0#11 ↔
    x.toBits.toNat / fractionCount % exponentCount = 0 := by
  rw [← BitVec.toNat_inj, toNat_unpackExponent]
  rfl

/-- What has no binary digits is infinite or undefined. -/
theorem unpack_of_ofFloat?_eq_none (h : ofFloat? x = none) :
    x.toModel.unpack = .infinity (sign x) ∨ x.toModel.unpack = .notANumber := by
  simp only [ofFloat?] at h
  split at h
  · next hmax =>
    rw [← exponent_eq_neg_one_iff] at hmax
    change UnpackedFloat.unpack .binary64 (encoding x) = _ ∨
      UnpackedFloat.unpack .binary64 (encoding x) = _
    rw [unpack_of_max hmax]
    split
    · exact .inl rfl
    · exact .inr rfl
  · split at h <;> cases h

theorem fits_least {fraction : ℕ} (hpos : 0 < fraction) (hlt : fraction < 2 ^ 52) :
    (⟨fraction, -1074, false⟩ : Dyadic).Fits where
  pos := hpos
  lt := by dsimp only; omega
  le_exponent := le_rfl
  exponent_le := by dsimp only; omega
  normal := .inr rfl
  narrow := by simp

theorem fits_normal {fraction biased : ℕ} (hlt : fraction < 2 ^ 52) (hzero : biased ≠ 0)
    (hmax : biased < 2047) :
    (⟨2 ^ 52 + fraction, biased - 1075, decide (fraction = 0 ∧ 1 < biased)⟩ : Dyadic).Fits where
  pos := by dsimp only; omega
  lt := by dsimp only; omega
  le_exponent := by dsimp only; omega
  exponent_le := by dsimp only; omega
  normal := .inl (by dsimp only; omega)
  narrow := by
    rw [decide_eq_true_iff]
    dsimp only
    omega

/-- A number that is neither infinite nor undefined is zero, or one that double precision holds
as its mantissa and its exponent say. -/
theorem unpack_of_ofFloat?_eq_some (h : ofFloat? x = some d) :
    (d.mantissa = 0 ∧ x.toModel.unpack = .zero (sign x)) ∨
      ∃ hd : d.Fits, x.toModel.unpack = .finite (sign x) d.mantissa d.exponent hd.pos := by
  have hmantissa : (unpackMantissa (encoding x)).toNat = x.toBits.toNat % fractionCount :=
    toNat_unpackMantissa _
  have hexponent : (unpackExponent (encoding x)).toNat
      = x.toBits.toNat / fractionCount % exponentCount := toNat_unpackExponent _
  have hfraction : x.toBits.toNat % fractionCount < 2 ^ 52 := Nat.mod_lt _ (by decide)
  have hbiased : x.toBits.toNat / fractionCount % exponentCount < 2048 := Nat.mod_lt _ (by decide)
  change (_ ∧ UnpackedFloat.unpack .binary64 (encoding x) = _) ∨
    ∃ _, UnpackedFloat.unpack .binary64 (encoding x) = _
  simp only [ofFloat?] at h
  split at h
  · cases h
  next hmax =>
  have hmax' : unpackExponent (encoding x) ≠ -1#11 := mt (exponent_eq_neg_one_iff x).1 hmax
  split at h
  · next hzero =>
    have hzero' := (exponent_eq_zero_iff x).2 hzero
    cases h
    obtain hm | hm := Nat.eq_zero_or_pos (x.toBits.toNat % fractionCount)
    · exact .inl ⟨hm, unpack_of_zero hzero' (BitVec.eq_of_toNat_eq (hmantissa.trans hm))⟩
    · refine .inr ⟨fits_least hm hfraction, ?_⟩
      rw [unpack_of_least hzero' (by rwa [hmantissa])]
      simp only [hmantissa]
      rfl
  · next hzero =>
    have hzero' : unpackExponent (encoding x) ≠ 0#11 := mt (exponent_eq_zero_iff x).1 hzero
    have hcount : exponentCount = 2048 := rfl
    cases h
    refine .inr ⟨fits_normal hfraction hzero (by omega), ?_⟩
    rw [unpack_of_normal hmax' hzero']
    simp only [hmantissa, hexponent]
    rfl

end TaskAllocation.Dyadic
