import TaskAllocation.Proofs.Decimal.Shortest
import TaskAllocation.Proofs.Toml.Scalar

/-!
# Numbers in double precision are read as they were written

A number is written as digits before and behind a point, with zeros filled in where its digits do
not reach.  The zeros change nothing of what the digits stand for, so what is read is the shortest
decimal of the number, and that is rounded back to it.

## Main definitions

* `Toml.Pointed` — digits before and behind a point that stand for a decimal.

## Main results

* `Toml.exists_pointed` — every decimal is written with a point.
* `Toml.Pointed.word?_eq` — digits with a point are read as the number that they stand for.
* `Toml.word?_render` — every number in double precision is read from the digits that are written
  for it.
-/

namespace TaskAllocation.Toml

variable {cs whole places : List Char} {c : Decimal}

/-! ### Digits -/

theorem numberOfDigits_append (a b : List Char) : numberOfDigits 10 (a ++ b)
    = numberOfDigits 10 a * 10 ^ b.length + numberOfDigits 10 b := by
  induction b using List.reverseRecOn with
  | nil => simp [numberOfDigits]
  | append_singleton b d ih =>
    have hlast (cs : List Char) : numberOfDigits 10 (cs ++ [d])
        = numberOfDigits 10 cs * 10 + (digitValue? 10 d).getD 0 := by
      simp [numberOfDigits]
    rw [← List.append_assoc, hlast, ih, hlast, List.length_append, List.length_singleton, pow_succ]
    ring

theorem numberOfDigits_zeros (n : ℕ) : numberOfDigits 10 (List.replicate n '0') = 0 := by
  induction n with
  | zero => rfl
  | succ n ih =>
    have hzero : numberOfDigits 10 ['0'] = 0 := rfl
    rw [List.replicate_succ, ← List.singleton_append, numberOfDigits_append, ih, hzero, zero_mul]

/-- What is neither a digit nor an underscore cannot stand among digits. -/
theorem ungroup_eq_none {base : ℕ} {c : Char} (hc : digitValue? base c = none) (hne : c ≠ '_')
    (hmem : c ∈ cs) : ungroup base cs = none := by
  fun_induction ungroup base cs with
  | case1 => cases hmem
  | case2 d hd =>
    rw [List.mem_singleton.1 hmem] at hc
    simp [hc] at hd
  | case3 => rfl
  | case4 d rest hd ih =>
    obtain rfl | hmem := List.mem_cons.1 hmem
    · simp [hc] at hd
    · rw [ih ((List.mem_cons.1 hmem).resolve_left hne), Option.map_none]
  | case5 => rfl
  | case6 d rest _ _ hd ih =>
    obtain rfl | hmem := List.mem_cons.1 hmem
    · simp [hc] at hd
    · rw [ih hmem, Option.map_none]
  | case7 => rfl

/-! ### Numbers with a point -/

/-- Digits before and behind a point that stand for a number. -/
structure Pointed (whole places : List Char) (c : Decimal) : Prop where
  whole_digits : ∀ d ∈ whole, (digitValue? 10 d).isSome
  places_digits : ∀ d ∈ places, (digitValue? 10 d).isSome
  whole_ne_nil : whole ≠ []
  places_ne_nil : places ≠ []
  leading : whole.length ≤ 1 ∨ whole.head? ≠ some '0'
  value_eq : (⟨numberOfDigits 10 (whole ++ places), -places.length⟩ : Decimal).value = c.value

/-- Zeros are filled in behind the digits, and one behind the point. -/
theorem pointed_fill {n : ℕ} (hn : 0 < n) (count : ℕ) :
    Pointed (Nat.toDigits 10 n ++ List.replicate count '0') ['0'] ⟨n, count⟩ where
  whole_digits d hd := by
    obtain hd | hd := List.mem_append.1 hd
    · exact digitValue?_isSome_of_mem_toDigits hd
    · rw [List.eq_of_mem_replicate hd]
      rfl
  places_digits d hd := by
    rw [List.mem_singleton.1 hd]
    rfl
  whole_ne_nil := by simp [Nat.toDigits_ne_nil]
  places_ne_nil := by simp
  leading := by
    rw [List.head?_append_of_ne_nil _ Nat.toDigits_ne_nil]
    exact .inr (head?_toDigits hn)
  value_eq := by
    have hzero : numberOfDigits 10 ['0'] = 0 := rfl
    simp only [numberOfDigits_append, numberOfDigits_toDigits, numberOfDigits_zeros, hzero,
      Decimal.value, List.length_replicate, List.length_singleton]
    push_cast
    rw [zpow_neg, zpow_one, zpow_natCast]
    field_simp
    ring

/-- The point stands among the digits. -/
theorem pointed_split {n k : ℕ} (hk : 0 < k) (hlt : k < (Nat.toDigits 10 n).length) (hn : 0 < n) :
    Pointed ((Nat.toDigits 10 n).take k) ((Nat.toDigits 10 n).drop k)
      ⟨n, k - (Nat.toDigits 10 n).length⟩ where
  whole_digits d hd := digitValue?_isSome_of_mem_toDigits (List.mem_of_mem_take hd)
  places_digits d hd := digitValue?_isSome_of_mem_toDigits (List.mem_of_mem_drop hd)
  whole_ne_nil := by
    rw [Ne, List.take_eq_nil_iff, not_or]
    exact ⟨hk.ne', Nat.toDigits_ne_nil⟩
  places_ne_nil := by simp [hlt]
  leading := by
    rw [List.head?_take, if_neg hk.ne']
    exact .inr (head?_toDigits hn)
  value_eq := by
    rw [List.take_append_drop, numberOfDigits_toDigits, List.length_drop, Nat.cast_sub hlt.le,
      neg_sub]

/-- Zeros are filled in before the digits. -/
theorem pointed_lead (n count : ℕ) :
    Pointed ['0'] (List.replicate count '0' ++ Nat.toDigits 10 n)
      ⟨n, -(count + (Nat.toDigits 10 n).length)⟩ where
  whole_digits d hd := by
    rw [List.mem_singleton.1 hd]
    rfl
  places_digits d hd := by
    obtain hd | hd := List.mem_append.1 hd
    · rw [List.eq_of_mem_replicate hd]
      rfl
    · exact digitValue?_isSome_of_mem_toDigits hd
  whole_ne_nil := by simp
  places_ne_nil := by simp [Nat.toDigits_ne_nil]
  leading := .inl le_rfl
  value_eq := by
    have hzero : numberOfDigits 10 ['0'] = 0 := rfl
    simp only [numberOfDigits_append, numberOfDigits_toDigits, numberOfDigits_zeros, hzero,
      List.length_append, List.length_replicate, zero_mul, zero_add, Nat.cast_add]

/-- Every decimal is written with digits before and behind a point. -/
theorem exists_pointed (c : Decimal) : ∃ whole places,
    (numberFormat.layout c).toList = whole ++ '.' :: places ∧ Pointed whole places c := by
  obtain ⟨n, e⟩ := c
  obtain rfl | hn := Nat.eq_zero_or_pos n
  · -- every zero is written alike
    have hzero := pointed_lead 0 0
    refine ⟨['0'], ['0'], by simp [NumberFormat.layout, numberFormat],
      { hzero with value_eq := hzero.value_eq.trans (by simp [Decimal.value]) }⟩
  have hlayout : numberFormat.layout ⟨n, e⟩
      = withPoint (Nat.toDigits 10 n) (e + (Nat.toDigits 10 n).length) ".0" := by
    simp [NumberFormat.layout, numberFormat, hn.ne']
  rw [hlayout, withPoint]
  split
  · next h =>
    obtain ⟨count, rfl⟩ : ∃ count : ℕ, e = count := ⟨e.toNat, by omega⟩
    refine ⟨_, _, ?_, pointed_fill hn count⟩
    have hcount : ((count : ℤ) + (Nat.toDigits 10 n).length).toNat - (Nat.toDigits 10 n).length
        = count := by omega
    simp [hcount, String.toList_append]
  split
  · next h hpos =>
    obtain ⟨k, hk⟩ : ∃ k : ℕ, e + (Nat.toDigits 10 n).length = k :=
      ⟨_, (Int.toNat_of_nonneg hpos.le).symm⟩
    rw [hk] at h hpos ⊢
    obtain rfl : e = k - (Nat.toDigits 10 n).length := by omega
    refine ⟨_, _, ?_, pointed_split (by omega) (by omega) hn⟩
    simp
  · next h hpos =>
    obtain ⟨count, hcount⟩ : ∃ count : ℕ, -(e + (Nat.toDigits 10 n).length) = count :=
      ⟨_, (Int.toNat_of_nonneg (by omega)).symm⟩
    obtain rfl : e = -(count + (Nat.toDigits 10 n).length) := by omega
    rw [hcount, Int.toNat_natCast]
    refine ⟨_, _, ?_, pointed_lead n count⟩
    simp

theorem Pointed.isNumeric (h : Pointed whole places c) :
    ∀ d ∈ whole ++ '.' :: places, isNumeric d = true := fun d hd => by
  obtain hd | hd := List.mem_append.1 hd
  · simp [Toml.isNumeric, h.whole_digits d hd]
  obtain rfl | hd := List.mem_cons.1 hd
  · rfl
  · simp [Toml.isNumeric, h.places_digits d hd]

theorem splitAt?_eq_none {p : Char → Bool} (h : ∀ d ∈ cs, p d = false) : splitAt? p cs = none := by
  have hspan : (cs ++ []).span (!p ·) = (cs, []) :=
    Scanner.span_append (fun d hd => by simp [h d hd]) (by simp)
  rw [List.append_nil] at hspan
  rw [splitAt?, hspan]

theorem splitAt?_append {p : Char → Bool} {d : Char} (h : ∀ d ∈ cs, p d = false) (hd : p d = true)
    (rest : List Char) : splitAt? p (cs ++ d :: rest) = some (cs, rest) := by
  have hspan : (cs ++ d :: rest).span (!p ·) = (cs, d :: rest) :=
    Scanner.span_append (fun d hd => by simp [h d hd]) fun e he => by
      cases he
      simp [hd]
  rw [splitAt?, hspan]

/-- The digits before and behind the point are read as one decimal. -/
theorem Pointed.magnitude?_eq (h : Pointed whole places c) :
    magnitude? (whole ++ '.' :: places)
      = some (Decimal.toFloat ⟨numberOfDigits 10 (whole ++ places), -places.length⟩) := by
  have hpower : splitAt? (fun d => d = 'e' ∨ d = 'E') (whole ++ '.' :: places) = none := by
    refine splitAt?_eq_none fun d hd => ?_
    simp only [decide_eq_false_iff_not, not_or]
    exact ⟨by rintro rfl; exact not_mem_of_isNumeric h.isNumeric (by decide) hd,
      by rintro rfl; exact not_mem_of_isNumeric h.isNumeric (by decide) hd⟩
  have hpoint : splitAt? (· = '.') (whole ++ '.' :: places) = some (whole, places) := by
    refine splitAt?_append (fun d hd => ?_) (by simp) places
    rw [decide_eq_false_iff_not]
    rintro rfl
    simpa [digitValue?] using h.whole_digits '.' hd
  have hwhole : decimalDigits whole = some whole := by
    rw [decimalDigits, ungroup_of_digits h.whole_ne_nil h.whole_digits]
    simp [h.leading]
  have hplaces := ungroup_of_digits h.places_ne_nil h.places_digits
  simp only [magnitude?, hpower, hpoint]
  simp [hwhole, hplaces]

/-- A word with a point is not a whole number. -/
theorem Pointed.whole?_eq_none (h : Pointed whole places c) (negative : Bool) :
    whole? (minus negative ++ (whole ++ '.' :: places)) = none := by
  have hdigits : decimalDigits (whole ++ '.' :: places) = none := by
    rw [decimalDigits, ungroup_eq_none (c := '.') (by decide) (by decide) (by simp)]
    rfl
  rw [whole?_minus h.isNumeric, hdigits, Option.map_none]

theorem Pointed.word?_eq (h : Pointed whole places c) (negative : Bool) {y : Float}
    (hy : Decimal.toFloat ⟨numberOfDigits 10 (whole ++ places), -places.length⟩ = y)
    (hfinite : y.isFinite = true) :
    word? (minus negative ++ (whole ++ '.' :: places))
      = some (.number (if negative then -y else y)) := by
  have hinf : whole ++ '.' :: places ≠ ['i', 'n', 'f'] := fun heq =>
    not_mem_of_isNumeric h.isNumeric (c := 'i') (by decide) (by simp [heq])
  have hnan : whole ++ '.' :: places ≠ ['n', 'a', 'n'] := fun heq =>
    not_mem_of_isNumeric h.isNumeric (c := 'n') (by decide) (by simp [heq])
  have hnumber : number? (minus negative ++ (whole ++ '.' :: places))
      = some (.number (if negative then -y else y)) := by
    simp only [number?, splitSign_minus h.isNumeric, h.magnitude?_eq, hy, hinf, hnan, if_false,
      Option.map_some, hfinite, if_true]
  refine word?_minus h.isNumeric negative ?_
  rw [h.whole?_eq_none, Option.map_none, Option.none_or, hnumber]

/-! ### Numbers in double precision -/

open Float.Model.UnpackedFloat (Sign)
open TaskAllocation.Dyadic (ofFloat? sign)

variable {x y : Float} {d : Dyadic}

theorem neg_toFloat (h : d.Fits) :
    -Dyadic.toFloat .positive h = Dyadic.toFloat .negative h :=
  congrArg (fun f : Float.Model.UnpackedFloat => (⟨Float.Model.pack f.neg⟩ : Float))
    (Dyadic.unpack_toFloat .positive h)

theorem isFinite_toFloat (h : d.Fits) : (Dyadic.toFloat .positive h).isFinite = true :=
  congrArg Float.Model.UnpackedFloat.isFinite (Dyadic.unpack_toFloat .positive h)

/-! The sign is put back in front of the magnitude that was read, also of zero and infinity. -/

theorem signed_toFloat (h : d.Fits)
    (hx : x.toModel.unpack = .finite (sign x) d.mantissa d.exponent h.pos) :
    (if signBit x then -Dyadic.toFloat .positive h else Dyadic.toFloat .positive h) = x := by
  rw [neg_toFloat]
  refine Dyadic.eq_of_unpack_eq (.trans ?_ hx.symm)
  rw [Dyadic.sign_eq]
  split
  · exact Dyadic.unpack_toFloat .negative h
  · exact Dyadic.unpack_toFloat .positive h

theorem signed_infinity (hx : x.toModel.unpack = .infinity (sign x)) :
    (if signBit x then -(1.0 / 0.0) else 1.0 / 0.0) = x := by
  refine Dyadic.eq_of_unpack_eq (.trans ?_ hx.symm)
  rw [Dyadic.sign_eq]
  split <;> rfl

theorem signed_zero (hx : x.toModel.unpack = .zero (sign x)) :
    (if signBit x then -0.0 else 0.0) = x := by
  refine Dyadic.eq_of_unpack_eq (.trans ?_ hx.symm)
  rw [Dyadic.sign_eq]
  split <;> rfl

theorem toList_minus (negative : Bool) :
    (if negative then "-" else "").toList = minus negative := by
  cases negative <;> rfl

theorem toList_render_of_some (hx : ¬x.isNaN = true) (hd : ofFloat? x = some d) :
    (numberFormat.render x).toList
      = minus (signBit x) ++ (numberFormat.layout (d.shortest .awayFromZero)).toList := by
  simp only [NumberFormat.render]
  rw [if_neg hx]
  simp only [hd, String.toList_append, toList_minus]
  rfl

theorem toList_render_of_none (hx : ¬x.isNaN = true) (hd : ofFloat? x = none) :
    (numberFormat.render x).toList = minus (signBit x) ++ ['i', 'n', 'f'] := by
  simp only [NumberFormat.render]
  rw [if_neg hx]
  simp only [hd, String.toList_append, toList_minus]
  rfl

theorem word?_inf (negative : Bool) : word? (minus negative ++ ['i', 'n', 'f'])
    = some (.number (if negative then -(1.0 / 0.0) else 1.0 / 0.0)) := by
  cases negative <;> rfl

/-- **Every number in double precision is read from the digits that are written for it.** -/
theorem word?_render (x : Float) : word? (numberFormat.render x).toList = some (.number x) := by
  by_cases hnan : x.isNaN = true
  · have hx : x = Float.nan := by simpa using hnan
    rw [hx]
    rfl
  cases hd : ofFloat? x with
  | none =>
    have hunpack : x.toModel.unpack = .infinity (sign x) := by
      refine (Dyadic.unpack_of_ofFloat?_eq_none hd).resolve_right fun h => hnan ?_
      exact congrArg Float.Model.UnpackedFloat.isNaN h
    rw [toList_render_of_none hnan hd, word?_inf, signed_infinity hunpack]
  | some d =>
    obtain ⟨whole, places, htext, hpointed⟩ := exists_pointed (d.shortest .awayFromZero)
    rw [toList_render_of_some hnan hd, htext]
    obtain ⟨hzero, hunpack⟩ | ⟨hfits, hunpack⟩ := Dyadic.unpack_of_ofFloat?_eq_some hd
    · have hdigits : Decimal.toFloat ⟨numberOfDigits 10 (whole ++ places), -places.length⟩
          = 0.0 := by
        refine Decimal.toFloat_of_value_eq_zero ?_
        rw [hpointed.value_eq, Dyadic.shortest, if_pos hzero]
        simp [Decimal.value]
      rw [hpointed.word?_eq (signBit x) hdigits rfl, signed_zero hunpack]
    · have hnear := Dyadic.near_shortest hfits.pos .awayFromZero
      rw [← hpointed.value_eq] at hnear
      rw [hpointed.word?_eq (signBit x) (Decimal.toFloat_eq hfits hnear) (isFinite_toFloat hfits),
        signed_toFloat hfits hunpack]

end TaskAllocation.Toml
