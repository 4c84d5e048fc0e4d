import JsonFilter.Proofs.Number.Bits
import JsonFilter.Proofs.Number.Sum
import JsonFilter.Proofs.Order.Number

/-!
Adding one to a number. From -2 ^ 53 up to 2 ^ 53 the units of the binary64 numbers are at most one,
so the number next to a number is not past the sum, and neither is its rounding: the sum is larger
than the number.
-/

namespace JsonFilter

open Float.Model Float.Model.UnpackedFloat

namespace Number

open Binary

variable {x : Number} {m : Nat} {e : Int}

/-- A finite number other than zero has the mantissa and the exponent of a binary64 number. -/
theorem canonical_of_unpack {sign : Sign} {hm : 0 < m}
    (h : x.toFloat.toModel.unpack = .finite sign m e hm) : Canonical m e := by
  obtain ⟨d, hd, -, rfl, rfl⟩ := exists_dyadic_of_unpack h
  obtain ⟨hc, _⟩ := unpack_of_dyadic? hd hm
  exact hc

theorem mantissa_one_pos : 0 < 2 ^ 52 := by norm_num

theorem unpack_add_one (x : Number) : (x + 1).toFloat.toModel.unpack =
    (Float.Model.pack (UnpackedFloat.add Format.binary64 x.toFloat.toModel.unpack
      (.finite .positive (2 ^ 52) (-52) mantissa_one_pos))).unpack := by
  have hone : (1 : Number).toFloat.toModel.unpack = .finite .positive (2 ^ 52) (-52) mantissa_one_pos := rfl
  rw [← hone]
  rfl

theorem value_one : value .positive (2 ^ 52) (-52) = 1 := by
  norm_num [value, UnpackedFloat.Sign.apply]

/-- The sum of a finite number and one is rounded correctly. -/
theorem rounds_unpack_add_one {sign : Sign} {hm : 0 < m}
    (h : x.toFloat.toModel.unpack = .finite sign m e hm)
    (hsmall : |value sign m e + 1| ≤ 2 ^ (54 : Int)) :
    Rounds (value sign m e + 1) (x + 1).toFloat.toModel.unpack := by
  have hone : Canonical (2 ^ 52) (-52) :=
    ⟨mantissa_one_pos, by norm_num, by norm_num, by norm_num, fun _ => le_rfl⟩
  have hmost := hsmall.trans (two_zpow_le_greatest (by norm_num))
  rw [← value_one] at hmost ⊢
  rw [unpack_add_one, h]
  exact rounds_add (canonical_of_unpack h) hone hmost

/-! ## The sum and the number -/

/-- Adding one to a positive number whose unit is at most one makes it larger. -/
theorem place_lt_add_one_of_positive {hm : 0 < m}
    (h : x.toFloat.toModel.unpack = .finite .positive m e hm) (he : e ≤ 0) :
    compare x.place (x + 1).place = .lt := by
  have hc := canonical_of_unpack h
  have hpower : (0 : ℚ) < 2 ^ e := by positivity
  have hunit : (2 : ℚ) ^ e ≤ 1 := zpow_le_one_of_nonpos₀ (by norm_num) he
  have hbits : (m : ℚ) < 2 ^ 53 := by exact_mod_cast hc.lt
  have hpos : (0 : ℚ) ≤ m * 2 ^ e := by positivity
  have hvalue := value_positive m e
  have hrounds := rounds_unpack_add_one h (by
    rw [hvalue, abs_of_nonneg (by linarith)]
    norm_num
    nlinarith)
  rw [hvalue] at hrounds
  obtain ⟨m', e', hc', hv, hunpack⟩ := hrounds.of_pos (by linarith)
  -- The number next above is not past the sum.
  obtain ⟨n, d, hd, hnext⟩ := hc.exists_succ (by omega)
  have hle := hv.le_of_le hc' hd (by rw [hnext]; linarith)
  have hlarger : (m : ℚ) * 2 ^ e < m' * 2 ^ e' := by
    rw [hnext] at hle
    linarith
  rw [place, place, h, hunpack]
  show compare [1, e, (m : Int)] [1, e', (m' : Int)] = .lt
  rw [compare_triple, compare_pair_lt_iff]
  exact (hc.lex_of_lt hc' hlarger).imp_right fun h => ⟨h.1, by exact_mod_cast h.2⟩

/-- Below a number of at most 2 ^ 53, the next one is at a distance of at most one. -/
theorem distance_le_one (hc : Canonical m e) (he : e ≤ 0 ∨ e = 1 ∧ m = 2 ^ 52) :
    2 * below m e * 2 ^ e ≤ 1 ∧ (m : ℚ) * 2 ^ e ≤ 2 ^ 53 := by
  rcases he with he | ⟨rfl, rfl⟩
  · have hpower : (0 : ℚ) < 2 ^ e := by positivity
    have hunit : (2 : ℚ) ^ e ≤ 1 := zpow_le_one_of_nonpos₀ (by norm_num) he
    have hbits : (m : ℚ) < 2 ^ 53 := by exact_mod_cast hc.lt
    have hbelow := below_le m e
    exact ⟨by nlinarith, by nlinarith⟩
  · norm_num [below]

/-- Adding one to a negative number of at least -2 ^ 53 makes it larger. -/
theorem place_lt_add_one_of_negative {hm : 0 < m}
    (h : x.toFloat.toModel.unpack = .finite .negative m e hm) (he : e ≤ 0 ∨ e = 1 ∧ m = 2 ^ 52) :
    compare x.place (x + 1).place = .lt := by
  have hc := canonical_of_unpack h
  obtain ⟨hdistance, hsmall⟩ := distance_le_one hc he
  have hpower : (0 : ℚ) < 2 ^ e := by positivity
  have hpos : (0 : ℚ) < m * 2 ^ e := mul_pos (by exact_mod_cast hm) hpower
  have hvalue : value .negative m e + 1 = 1 - m * 2 ^ e := by
    rw [value_negative]
    ring
  have hrounds := rounds_unpack_add_one h (by
    rw [hvalue, abs_le]
    norm_num
    constructor <;> linarith)
  rw [hvalue] at hrounds
  rw [place, place, h]
  rcases lt_trichotomy ((m : ℚ) * 2 ^ e) 1 with hlt | heq | hgt
  · obtain ⟨m', e', hc', -, hunpack⟩ := hrounds.of_pos (by linarith)
    rw [hunpack]
    rfl
  · rw [heq, sub_self] at hrounds
    rw [hrounds.of_zero]
    rfl
  · obtain ⟨m', e', hc', hv, hunpack⟩ := hrounds.of_neg (by linarith)
    have hmany : 1 < m := by
      rcases he with he | ⟨rfl, rfl⟩
      · have hunit : (2 : ℚ) ^ e ≤ 1 := zpow_le_one_of_nonpos₀ (by norm_num) he
        have hone : (1 : ℚ) < m := by nlinarith
        exact_mod_cast hone
      · norm_num
    -- In size, the number next below is not past the sum.
    obtain ⟨n, d, hd, hnext⟩ := hc.exists_pred hmany
    have hle := hv.ge_of_ge hc' hd (by rw [hnext]; linarith)
    have hsmaller : (m' : ℚ) * 2 ^ e' < m * 2 ^ e := by
      have hbelow := mul_pos (below_pos m e) hpower
      rw [hnext] at hle
      linarith
    rw [hunpack]
    show compare [-1, -e, -(m : Int)] [-1, -e', -(m' : Int)] = .lt
    rw [compare_triple, compare_pair_lt_iff]
    rcases hc'.lex_of_lt hc hsmaller with hexp | ⟨hexp, hman⟩
    · exact .inl (by omega)
    · exact .inr (by omega)

/-- Adding one to a number makes it larger, from -2 ^ 53 up to 2 ^ 53. -/
theorem lt_add_one (hlow : (ofInt (-2 ^ 53)).cmp x ≠ .gt) (hhigh : x.cmp (ofInt (2 ^ 53)) = .lt) :
    x.cmp (x + 1) = .lt := by
  have hleast : (ofInt (-2 ^ 53)).place = [-1, -1, -2 ^ 52] := by decide +kernel
  have hmost : (ofInt (2 ^ 53)).place = [1, 1, 2 ^ 52] := by decide +kernel
  rw [cmp_eq_place, hleast] at hlow
  rw [cmp_eq_place, hmost] at hhigh
  rw [cmp_eq_place]
  unfold place at hlow hhigh
  cases hu : x.toFloat.toModel.unpack with
  | infinity sign =>
    rw [hu] at hlow hhigh
    cases sign with
    | positive => cases hhigh
    | negative => exact absurd rfl hlow
  | notANumber =>
    rw [hu] at hlow
    exact absurd rfl hlow
  | zero sign =>
    have hunpack : (x + 1).toFloat.toModel.unpack = .finite .positive (2 ^ 52) (-52) mantissa_one_pos := by
      rw [unpack_add_one, hu]
      cases sign <;> rfl
    rw [place, place, hu, hunpack]
    rfl
  | finite sign m e hm =>
    have hc := canonical_of_unpack hu
    rw [hu] at hlow hhigh
    cases sign with
    | positive =>
      replace hhigh : compare [1, e, (m : Int)] [1, 1, 2 ^ 52] = .lt := hhigh
      rw [compare_triple, compare_pair_lt_iff] at hhigh
      refine place_lt_add_one_of_positive hu ?_
      have hnormal := hc.normal
      omega
    | negative =>
      replace hlow : compare [-1, -1, -2 ^ 52] [-1, -e, -(m : Int)] ≠ .gt := hlow
      rw [compare_triple, Ne, Std.OrientedCmp.gt_iff_lt, compare_pair_lt_iff] at hlow
      refine place_lt_add_one_of_negative hu ?_
      have hnormal := hc.normal
      omega

end Number

end JsonFilter
