import JsonFilter.Proofs.Number.RoundTrip
import JsonFilter.Proofs.Number.Sum
import JsonFilter.Proofs.Order.Number

/-!
The exact values of numbers. Every finite number is a rational number; comparison by the arithmetic
standard compares these, the roundings to integers are those of the rational number, and a sum is
the exact sum wherever that is a number.
-/

namespace JsonFilter

/-- A rational number without its fraction. -/
def integerPart (p : ℚ) : Int := if 0 ≤ p then ⌊p⌋ else ⌈p⌉

theorem integerPart_intCast (n : Int) : integerPart n = n := by
  unfold integerPart
  split
  · exact Int.floor_intCast n
  · exact Int.ceil_intCast n

theorem integerPart_neg (p : ℚ) : integerPart (-p) = -integerPart p := by
  unfold integerPart
  rcases lt_trichotomy p 0 with h | rfl | h
  · rw [if_pos (by linarith), if_neg (by linarith), Int.floor_neg]
  · simp
  · rw [if_neg (by linarith), if_pos h.le, Int.ceil_neg]

/-- Division of integers with a remainder of the sign of the first gives the integer part. -/
theorem integerPart_div (n : Int) (k : Nat) : integerPart (n / k) = n.tdiv k := by
  have hnat (m : Nat) : integerPart ((m : Int) / k) = (m : Int).tdiv k := by
    have hnonneg : (0 : ℚ) ≤ (m : Int) / k := by positivity
    rw [integerPart, if_pos hnonneg, Rat.floor_intCast_div_natCast]
    exact (Int.tdiv_eq_ediv_of_nonneg (Int.natCast_nonneg m)).symm
  obtain ⟨m, rfl | rfl⟩ := n.eq_nat_or_neg
  · exact hnat m
  · rw [Int.cast_neg, neg_div, integerPart_neg, hnat, Int.neg_tdiv]

namespace Dyadic

/-- The rational number that a dyadic is. -/
def value (d : Dyadic) : ℚ := d.signed * 2 ^ d.exponent

variable {d : Dyadic}

theorem value_of_nonneg (h : 0 ≤ d.exponent) :
    d.value = (d.signed * Nat.pow 2 d.exponent.toNat : Int) := by
  obtain ⟨k, hk⟩ := Int.eq_ofNat_of_zero_le h
  rw [value, hk, Int.toNat_natCast, zpow_natCast, Nat.pow_eq]
  push_cast
  rfl

theorem value_of_neg (h : ¬0 ≤ d.exponent) :
    d.value = d.signed / (Nat.pow 2 (-d.exponent).toNat : Nat) := by
  have hk : d.exponent = -((-d.exponent).toNat : Int) := by omega
  rw [value, hk, zpow_neg, zpow_natCast, Int.neg_neg, Int.toNat_natCast, div_eq_mul_inv, Nat.pow_eq]
  push_cast
  rfl

theorem fdiv_eq_floor (n : Int) (k : Nat) :
    n.fdiv (Nat.pow 2 k : Nat) = ⌊(n : ℚ) / (Nat.pow 2 k : Nat)⌋ := by
  rw [Rat.floor_intCast_div_natCast, Int.fdiv_eq_ediv_of_nonneg n (Int.natCast_nonneg _)]

/-- Rounding down is that of the rational number. -/
theorem floor_eq (d : Dyadic) : d.floor = ⌊d.value⌋ := by
  unfold floor
  split
  · next h => rw [value_of_nonneg h, Int.floor_intCast]
  · next h => rw [value_of_neg h, fdiv_eq_floor]

/-- Rounding up is that of the rational number. -/
theorem ceil_eq (d : Dyadic) : d.ceil = ⌈d.value⌉ := by
  unfold ceil
  split
  · next h => rw [value_of_nonneg h, Int.ceil_intCast]
  · next h => rw [value_of_neg h, fdiv_eq_floor, Int.cast_neg, neg_div, Int.floor_neg, neg_neg]

/-- A dyadic without a fraction is an integer. -/
theorem isWhole_iff : d.isWhole = true ↔ ∃ n : Int, d.value = n := by
  constructor
  · intro h
    obtain ⟨n, hn, -⟩ := Number.exists_trunc h
    refine ⟨if d.negative then -n else n, ?_⟩
    unfold value signed
    split
    · push_cast
      rw [hn]
      ring
    · push_cast
      exact hn.symm
  · rintro ⟨n, hn⟩
    unfold isWhole
    rw [Bool.or_eq_true, decide_eq_true_eq, decide_eq_true_eq]
    refine or_iff_not_imp_left.mpr fun h => ?_
    rw [value_of_neg h, div_eq_iff (by simp)] at hn
    have hsigned : d.signed = n * (Nat.pow 2 (-d.exponent).toNat : Nat) := by exact_mod_cast hn
    have hdvd : Nat.pow 2 (-d.exponent).toNat ∣ d.mantissa := by
      have hint : ((Nat.pow 2 (-d.exponent).toNat : Nat) : Int) ∣ d.signed :=
        ⟨n, by rw [hsigned, mul_comm]⟩
      unfold signed at hint
      split at hint
      · exact Int.natCast_dvd_natCast.mp ((dvd_neg).mp hint)
      · exact Int.natCast_dvd_natCast.mp hint
    exact Nat.mod_eq_zero_of_dvd hdvd

/-- Cutting off the fraction is that of the rational number. -/
theorem trunc_eq (d : Dyadic) : d.trunc = integerPart d.value := by
  unfold trunc
  split
  · next h => rw [value_of_nonneg h, integerPart_intCast]
  · next h => rw [value_of_neg h, integerPart_div]

end Dyadic

namespace Number

open Float.Model Float.Model.UnpackedFloat
open Binary (Canonical Rounds)

variable {x y : Number} {p q : ℚ}

/-- The rational number that a finite number is. -/
def toRat? (x : Number) : Option ℚ := x.dyadic?.map Dyadic.value

theorem toRat?_of_dyadic? {d : Dyadic} (h : x.dyadic? = some d) : x.toRat? = some d.value := by
  rw [toRat?, h, Option.map_some]

theorem exists_toRat? (h : x.isFinite = true) : ∃ p, x.toRat? = some p := by
  obtain ⟨d, hd⟩ := exists_dyadic h
  exact ⟨d.value, toRat?_of_dyadic? hd⟩

/-! ## Values and bits -/

theorem value_of_sign (d : Dyadic) : Binary.value (sign d) d.mantissa d.exponent = d.value := by
  unfold Binary.value Dyadic.value Dyadic.signed sign
  cases d.negative <;> rfl

/-- A finite number is a zero, or it has a sign, a mantissa and an exponent. -/
theorem unpack_of_toRat? (h : x.toRat? = some p) :
    (∃ s, x.toFloat.toModel.unpack = .zero s) ∧ p = 0 ∨
      ∃ s m e, ∃ hc : Canonical m e,
        x.toFloat.toModel.unpack = .finite s m e hc.pos ∧ p = Binary.value s m e := by
  obtain ⟨d, hd, rfl⟩ := Option.map_eq_some_iff.mp h
  rcases Nat.eq_zero_or_pos d.mantissa with hm | hm
  · refine .inl ⟨⟨_, unpack_of_dyadic?_zero hd hm⟩, ?_⟩
    rw [← value_of_sign, hm]
    cases sign d <;> simp [Binary.value, Sign.apply]
  · obtain ⟨hc, hunpack⟩ := unpack_of_dyadic? hd hm
    exact .inr ⟨_, _, _, hc, hunpack, (value_of_sign d).symm⟩

theorem toRat?_of_finite {s : Sign} {m : Nat} {e : Int} {hm : 0 < m}
    (h : x.toFloat.toModel.unpack = .finite s m e hm) :
    x.toRat? = some (Binary.value s m e) := by
  obtain ⟨d, hd, rfl, rfl, rfl⟩ := exists_dyadic_of_unpack h
  rw [toRat?, hd, value_of_sign]
  rfl

theorem toRat?_of_zero {s : Sign} (h : x.toFloat.toModel.unpack = .zero s) :
    x.toRat? = some 0 := by
  have hfinite : x.isFinite = true := by
    show x.toFloat.toModel.unpack.isFinite = true
    rw [h]
    rfl
  obtain ⟨d, hd⟩ := exists_dyadic hfinite
  rcases Nat.eq_zero_or_pos d.mantissa with hm | hm
  · rw [toRat?, hd, Option.map_some, ← value_of_sign, hm]
    cases sign d <;> simp [Binary.value, Sign.apply]
  · obtain ⟨hc, hunpack⟩ := unpack_of_dyadic? hd hm
    rw [hunpack] at h
    cases h

theorem isNaN_of_toRat? (h : x.toRat? = some p) : x.isNaN = false := by
  show x.toFloat.toModel.unpack.isNaN = false
  obtain ⟨⟨s, hu⟩, -⟩ | ⟨s, m, e, hc, hu, -⟩ := unpack_of_toRat? h <;> rw [hu] <;> rfl

/-- A number is a NaN, one of the infinities, or finite. -/
theorem cases_toRat? (x : Number) :
    x.isNaN = true ∨ (∃ s, x.toFloat.toModel.unpack = .infinity s) ∨ ∃ p, x.toRat? = some p := by
  cases hu : x.toFloat.toModel.unpack with
  | notANumber => exact .inl (congrArg UnpackedFloat.isNaN hu)
  | infinity s => exact .inr (.inl ⟨s, rfl⟩)
  | zero s => exact .inr (.inr ⟨0, toRat?_of_zero hu⟩)
  | finite s m e hm => exact .inr (.inr ⟨_, toRat?_of_finite hu⟩)

/-! ## Comparisons -/

theorem place_lt_of_toRat? (hx : x.toRat? = some p) (hy : y.toRat? = some q) (h : p < q) :
    compare x.place y.place = .lt := by
  unfold place
  obtain ⟨⟨s, hu⟩, rfl⟩ | ⟨s, m, e, hc, hu, rfl⟩ := unpack_of_toRat? hx <;>
    obtain ⟨⟨t, hv⟩, rfl⟩ | ⟨t, n, d, hd, hv, rfl⟩ := unpack_of_toRat? hy <;> rw [hu, hv]
  · exact absurd h (lt_irrefl 0)
  · cases t with
    | positive => rfl
    | negative =>
      rw [Binary.value_negative] at h
      linarith [hd.value_pos]
  · cases s with
    | positive => exact absurd h hc.value_pos.le.not_gt
    | negative => rfl
  · have hm := hc.value_pos
    have hn := hd.value_pos
    cases s <;> cases t <;>
      simp only [Binary.value_positive, Binary.value_negative, neg_lt_neg_iff] at h
    · show compare [-1, -e, -(m : Int)] [-1, -d, -(n : Int)] = .lt
      rw [compare_triple, compare_pair_lt_iff]
      have hlex := hd.lex_of_lt hc h
      omega
    · rfl
    · linarith
    · show compare [1, e, (m : Int)] [1, d, (n : Int)] = .lt
      rw [compare_triple, compare_pair_lt_iff]
      have hlex := hc.lex_of_lt hd h
      omega

/-- A number other than zero is determined by its value. -/
theorem eq_of_toRat? (hx : x.toRat? = some p) (hy : y.toRat? = some p) (hp : p ≠ 0) : x = y := by
  obtain ⟨-, rfl⟩ | ⟨s, m, e, hc, hu, rfl⟩ := unpack_of_toRat? hx
  · exact absurd rfl hp
  obtain ⟨-, hzero⟩ | ⟨t, n, d, hd, hv, hvalue⟩ := unpack_of_toRat? hy
  · exact absurd hzero hp
  obtain ⟨rfl, rfl, rfl⟩ := Binary.value_inj hc hd hvalue
  obtain ⟨f⟩ := x
  obtain ⟨g⟩ := y
  exact congrArg Number.mk (eq_of_unpack (hu.trans hv.symm))

theorem place_eq_of_toRat? (hx : x.toRat? = some p) (hy : y.toRat? = some p) :
    x.place = y.place := by
  by_cases hp : p = 0
  · subst hp
    obtain ⟨⟨s, hu⟩, -⟩ | ⟨s, m, e, hc, -, hvalue⟩ := unpack_of_toRat? hx
    · obtain ⟨⟨t, hv⟩, -⟩ | ⟨t, n, d, hd, -, hvalue⟩ := unpack_of_toRat? hy
      · rw [place, place, hu, hv]
        rfl
      · exact absurd hvalue.symm (Binary.value_ne_zero hd)
    · exact absurd hvalue.symm (Binary.value_ne_zero hc)
  · rw [eq_of_toRat? hx hy hp]

/-- Finite numbers are compared as the rational numbers that they are. -/
theorem compare_place (hx : x.toRat? = some p) (hy : y.toRat? = some q) :
    compare x.place y.place = compare p q := by
  rcases lt_trichotomy p q with h | rfl | h
  · rw [place_lt_of_toRat? hx hy h, compare_lt_iff_lt.mpr h]
  · rw [place_eq_of_toRat? hx hy, Std.compare_self, Std.compare_self]
  · rw [Std.OrientedCmp.gt_of_lt (place_lt_of_toRat? hy hx h), compare_gt_iff_gt.mpr h]

theorem lt_iff (hx : x.toRat? = some p) (hy : y.toRat? = some q) :
    x.toFloat < y.toFloat ↔ p < q := by
  rw [lt_iff_place (isNaN_of_toRat? hx) (isNaN_of_toRat? hy), compare_place hx hy,
    compare_lt_iff_lt]

theorem le_iff (hx : x.toRat? = some p) (hy : y.toRat? = some q) :
    x.toFloat ≤ y.toFloat ↔ p ≤ q := by
  rw [le_iff_place (isNaN_of_toRat? hx) (isNaN_of_toRat? hy), compare_place hx hy,
    Std.LawfulBCmp.isLE_iff_le]

theorem beq_iff (hx : x.toRat? = some p) (hy : y.toRat? = some q) : (x == y) = true ↔ p = q := by
  rw [beq_iff_place (isNaN_of_toRat? hx) (isNaN_of_toRat? hy), compare_place hx hy,
    compare_eq_iff_eq]

/-! ## Roundings -/

theorem floor_eq (h : x.toRat? = some p) : x.floor = .exact ⌊p⌋ := by
  obtain ⟨d, hd, rfl⟩ := Option.map_eq_some_iff.mp h
  rw [floor, roundBy, hd]
  exact congrArg Whole.exact d.floor_eq

theorem ceil_eq (h : x.toRat? = some p) : x.ceil = .exact ⌈p⌉ := by
  obtain ⟨d, hd, rfl⟩ := Option.map_eq_some_iff.mp h
  rw [ceil, roundBy, hd]
  exact congrArg Whole.exact d.ceil_eq

theorem isInt_iff : x.isInt = true ↔ ∃ n : Int, x.toRat? = some (n : ℚ) := by
  unfold isInt toRat?
  cases x.dyadic? with
  | none => simp
  | some d => simp [Dyadic.isWhole_iff]

/-! ## Representable values -/

/-- A rational number that is a number. -/
def Representable (p : ℚ) : Prop := p = 0 ∨ ∃ s m e, Canonical m e ∧ p = Binary.value s m e

theorem representable_of_toRat? (h : x.toRat? = some p) : Representable p := by
  obtain ⟨-, rfl⟩ | ⟨s, m, e, hc, -, rfl⟩ := unpack_of_toRat? h
  · exact .inl rfl
  · exact .inr ⟨s, m, e, hc, rfl⟩

/-- An integer is a number if its size is one. -/
theorem representable_intCast {n : Int} {m : Nat} {e : Int} (hc : Canonical m e)
    (h : (n.natAbs : ℚ) = m * 2 ^ e) : Representable n := by
  rw [Nat.cast_natAbs, Int.cast_abs] at h
  rcases le_total 0 (n : ℚ) with hn | hn
  · rw [abs_of_nonneg hn] at h
    exact .inr ⟨.positive, m, e, hc, h⟩
  · rw [abs_of_nonpos hn] at h
    exact .inr ⟨.negative, m, e, hc, by rw [Binary.value_negative, ← h, neg_neg]⟩

/-- The integers of at most 53 bits, times a power of two, are numbers. -/
theorem representable_of_scaled {n : Int} {k j : Nat} (hk : k < 2 ^ 53) (hj : j ≤ 900)
    (h : n.natAbs = k * 2 ^ j) : Representable n := by
  rcases Nat.eq_zero_or_pos k with rfl | hpos
  · have hzero : n = 0 := by simpa using h
    exact .inl (by exact_mod_cast hzero)
  · obtain ⟨hc, -, hvalue⟩ := Binary.canonical_scaled hpos hk hj
    exact representable_intCast hc (by rw [hvalue, h])

/-- No other integers are numbers. -/
theorem Representable.exists_scaled {n : Int} (h : Representable n) :
    ∃ k j : Nat, k < 2 ^ 53 ∧ n.natAbs = k * 2 ^ j := by
  obtain hzero | ⟨s, m, e, hc, hvalue⟩ := h
  · obtain rfl : n = 0 := by exact_mod_cast hzero
    exact ⟨0, 0, by norm_num, rfl⟩
  have hsize : (n.natAbs : ℚ) = m * 2 ^ e := by
    rw [Nat.cast_natAbs, Int.cast_abs, hvalue, Binary.abs_value]
  rcases le_or_gt 0 e with he | he
  · obtain ⟨j, rfl⟩ := Int.eq_ofNat_of_zero_le he
    rw [zpow_natCast] at hsize
    exact ⟨m, j, hc.lt, by exact_mod_cast hsize⟩
  · have hunit : (2 : ℚ) ^ e ≤ 1 := zpow_le_one_of_nonpos₀ (by norm_num) he.le
    have hle : (n.natAbs : ℚ) ≤ m := by
      rw [hsize]
      exact mul_le_of_le_one_right (by positivity) hunit
    have hlt : n.natAbs < 2 ^ 53 := lt_of_le_of_lt (by exact_mod_cast hle) hc.lt
    exact ⟨n.natAbs, 0, hlt, by simp⟩

/-- The integers of at most 53 bits are numbers, and so are the two next to them. -/
theorem representable_of_natAbs_le {n : Int} (h : n.natAbs ≤ 2 ^ 53) : Representable n := by
  rcases h.lt_or_eq with hlt | heq
  · exact representable_of_scaled hlt (Nat.zero_le _) (by simp)
  · exact representable_of_scaled (k := 1) (j := 53) (by norm_num) (by norm_num) (by rw [heq]; rfl)

/-- The integers next to a number are numbers. -/
theorem Representable.of_abs_sub_lt {n : Int} (h : Representable p) (hn : |n - p| < 1) :
    Representable n := by
  obtain rfl | ⟨s, m, e, hc, rfl⟩ := h
  · have hzero : n = 0 := by
      rw [sub_zero] at hn
      have hint : |n| < 1 := by exact_mod_cast hn
      exact Int.abs_lt_one_iff.mp hint
    exact .inl (by exact_mod_cast hzero)
  rcases le_or_gt 0 e with he | he
  · -- Above the fractions, the number is an integer, and only that one is next to it.
    obtain ⟨k, rfl⟩ := Int.eq_ofNat_of_zero_le he
    have hvalue : Binary.value s m k = (s.apply m * 2 ^ k : Int) := by
      rw [Binary.value, zpow_natCast]
      push_cast
      rfl
    rw [hvalue] at hn
    have hint : |n - s.apply m * 2 ^ k| < 1 := by exact_mod_cast hn
    obtain rfl := sub_eq_zero.mp (Int.abs_lt_one_iff.mp hint)
    exact .inr ⟨s, m, k, hc, hvalue.symm⟩
  · refine representable_of_natAbs_le ?_
    have hsize : |Binary.value s m e| ≤ 2 ^ 53 - 1 := by
      have hunit : (2 : ℚ) ^ e ≤ 1 := zpow_le_one_of_nonpos₀ (by norm_num) he.le
      rw [Binary.abs_value]
      exact (mul_le_of_le_one_right (by positivity) hunit).trans hc.mantissa_le
    have habs : |(n : ℚ)| ≤ 2 ^ 53 := by
      have htriangle := abs_add_le (n - Binary.value s m e) (Binary.value s m e)
      rw [sub_add_cancel] at htriangle
      linarith
    rw [← Int.cast_abs, ← Nat.cast_natAbs] at habs
    exact_mod_cast habs

theorem Representable.floor (h : Representable p) : Representable ⌊p⌋ := by
  refine h.of_abs_sub_lt ?_
  have hlow := Int.floor_le p
  have hhigh := Int.lt_floor_add_one p
  rw [abs_lt]
  constructor <;> linarith

theorem Representable.ceil (h : Representable p) : Representable ⌈p⌉ := by
  refine h.of_abs_sub_lt ?_
  have hlow := Int.le_ceil p
  have hhigh := Int.ceil_lt_add_one p
  rw [abs_lt]
  constructor <;> linarith

theorem Representable.integerPart (h : Representable p) : Representable (integerPart p) := by
  unfold JsonFilter.integerPart
  split
  · exact h.floor
  · exact h.ceil

theorem Representable.abs_le (h : Representable p) : |p| ≤ Binary.greatest := by
  obtain rfl | ⟨s, m, e, hc, rfl⟩ := h
  · rw [abs_zero, Binary.greatest]
    positivity
  · rw [Binary.abs_value, Binary.greatest]
    have hunit : (2 : ℚ) ^ e ≤ 2 ^ (971 : Int) := zpow_le_zpow_right₀ (by norm_num) hc.most
    exact mul_le_mul hc.mantissa_le hunit (by positivity) (by norm_num)

/-! ## Rounded values -/

/-- A rounded value is the value itself if that is a number, and it keeps the sign. -/
theorem exists_toRat?_of_rounds (h : Rounds p x.toFloat.toModel.unpack) :
    ∃ r, x.toRat? = some r ∧ (Representable p → r = p) ∧ (p < 0 → r < 0) := by
  generalize hu : x.toFloat.toModel.unpack = u at h
  have hvalue (hp : Representable p) : x.toRat? = some p := by
    obtain rfl | ⟨s, m, e, hc, rfl⟩ := hp
    · exact toRat?_of_zero (hu.trans h.of_zero)
    · exact toRat?_of_finite (hu.trans (h.of_value hc))
  have hnegative (hp : p < 0) : ∃ r, x.toRat? = some r ∧ r < 0 := by
    obtain ⟨m, e, hc, -, rfl⟩ := h.of_neg hp
    refine ⟨_, toRat?_of_finite hu, ?_⟩
    rw [Binary.value_negative]
    exact neg_lt_zero.mpr hc.value_pos
  have hexact : ∃ r, x.toRat? = some r := by
    cases h with
    | zero => exact ⟨_, toRat?_of_zero hu⟩
    | positive hc hv => exact ⟨_, toRat?_of_finite hu⟩
    | negative hc hv => exact ⟨_, toRat?_of_finite hu⟩
  obtain ⟨r, hr⟩ := hexact
  refine ⟨r, hr, fun hp => ?_, fun hp => ?_⟩
  · exact Option.some.inj (hr.symm.trans (hvalue hp))
  · obtain ⟨r', hr', hlt⟩ := hnegative hp
    rwa [Option.some.inj (hr.symm.trans hr')]

/-! ## Integers -/

/-- A positive integer is rounded to the number that it is around. -/
theorem unpack_ofNat {n m : Nat} {e : Int} (hc : Canonical m e) (hn : Binary.Around m e n) :
    (ofNat n).toFloat.toModel.unpack = .finite .positive m e hc.pos := by
  have haround : Binary.Around m e (n * 10 ^ (0 : Int)) := by rwa [zpow_zero, mul_one]
  have hfloat : (ofNat n).toFloat = ⟨Float.Model.pack (.finite .positive m e hc.pos)⟩ :=
    Binary.ofScientific_of_around hc haround
  rw [hfloat]
  exact Binary.unpack_pack .positive hc

/-- The same for a negative integer. -/
theorem unpack_ofInt_neg {n m : Nat} {e : Int} (hpos : 0 < n) (hc : Canonical m e)
    (hn : Binary.Around m e n) :
    (ofInt (-n)).toFloat.toModel.unpack = .finite .negative m e hc.pos := by
  obtain ⟨k, rfl⟩ := Nat.exists_eq_succ_of_ne_zero hpos.ne'
  show (Float.Model.pack (ofNat k.succ).toFloat.toModel.unpack.neg).unpack = _
  rw [unpack_ofNat hc hn]
  exact Binary.unpack_pack .negative hc

/-- Integers are rounded correctly. -/
theorem rounds_ofInt {n : Int} (hmost : |(n : ℚ)| ≤ Binary.greatest) :
    Rounds n (ofInt n).toFloat.toModel.unpack := by
  have haround (k : Nat) (hpos : 0 < k) (hk : (k : ℚ) ≤ Binary.greatest) :
      ∃ m e, Canonical m e ∧ Binary.Around m e k := by
    have hone : (1 : ℚ) ≤ k := by exact_mod_cast hpos
    have hleast : (2 : ℚ) ^ (-1074 : Int) ≤ 1 := zpow_le_one_of_nonpos₀ (by norm_num) (by norm_num)
    exact Binary.exists_around (hleast.trans hone) hk
  obtain ⟨k, rfl | rfl⟩ := n.eq_nat_or_neg
  · rcases Nat.eq_zero_or_pos k with rfl | hpos
    · exact .zero
    · obtain ⟨m, e, hc, hk⟩ := haround k hpos ((le_abs_self _).trans hmost)
      rw [show (ofInt k).toFloat.toModel.unpack = _ from unpack_ofNat hc hk]
      exact .positive hc hk
  · rcases Nat.eq_zero_or_pos k with rfl | hpos
    · exact .zero
    · have hvalue : ((-k : Int) : ℚ) = -k := by push_cast; rfl
      rw [hvalue, abs_neg] at hmost
      obtain ⟨m, e, hc, hk⟩ := haround k hpos ((le_abs_self _).trans hmost)
      rw [unpack_ofInt_neg hpos hc hk, hvalue]
      exact .negative hc (by rwa [neg_neg])

/-- The number nearest to an integer that is a number is the integer. -/
theorem toRat?_ofInt {n : Int} (h : Representable n) : (ofInt n).toRat? = some (n : ℚ) := by
  obtain ⟨r, hr, hexact, -⟩ := exists_toRat?_of_rounds (rounds_ofInt h.abs_le)
  rw [hr, hexact h]

theorem toRat?_ofNat {n : Nat} (h : n ≤ 2 ^ 53) : (ofNat n).toRat? = some (n : ℚ) := by
  have hexact := toRat?_ofInt (representable_of_natAbs_le (n := n) (by omega))
  rwa [Int.cast_natCast] at hexact

/-- Reading a number as a 64-bit integer takes its integer part, moved into the range. -/
theorem toInt_of_toRat? (h : x.toRat? = some p) :
    x.toInt = max minInt (min maxInt (integerPart p)) := by
  obtain ⟨d, hd, rfl⟩ := Option.map_eq_some_iff.mp h
  rw [toInt, roundBy, hd, ← d.trunc_eq]

theorem minInt_eq : minInt = -2 ^ 63 := rfl

theorem maxInt_eq : maxInt = 2 ^ 63 - 1 := rfl

/-- Counts of at most 2 ^ 53 are got back from the numbers that they are. -/
theorem toInt_ofNat {n : Nat} (h : n ≤ 2 ^ 53) : (ofNat n).toInt = n := by
  rw [toInt_of_toRat? (toRat?_ofNat h), ← Int.cast_natCast, integerPart_intCast, minInt_eq,
    maxInt_eq]
  omega

theorem toRat?_zero : (0 : Number).toRat? = some 0 := toRat?_ofInt (n := 0) (.inl rfl)

theorem lt_zero_iff (h : x.toRat? = some p) : x.toFloat < 0 ↔ p < 0 := lt_iff h toRat?_zero

/-! ## Sums -/

theorem unpack_add (x y : Number) : (x + y).toFloat.toModel.unpack = (Float.Model.pack
    (UnpackedFloat.add Format.binary64 x.toFloat.toModel.unpack y.toFloat.toModel.unpack)).unpack :=
  rfl

/-- The sum of two finite numbers is the exact sum if that is a number, and it keeps its sign. -/
theorem exists_toRat?_add (hx : x.toRat? = some p) (hy : y.toRat? = some q)
    (hmost : |p + q| ≤ Binary.greatest) :
    ∃ r, (x + y).toRat? = some r ∧ (Representable (p + q) → r = p + q) ∧ (p + q < 0 → r < 0) := by
  obtain ⟨⟨s, hu⟩, rfl⟩ | ⟨s, m, e, hc, hu, rfl⟩ := unpack_of_toRat? hx <;>
    obtain ⟨⟨t, hv⟩, rfl⟩ | ⟨t, n, d, hd, hv, rfl⟩ := unpack_of_toRat? hy
  · have hzero : ∃ r, (x + y).toFloat.toModel.unpack = .zero r := by
      rw [unpack_add, hu, hv]
      cases s <;> cases t <;> exact ⟨_, rfl⟩
    obtain ⟨r, hr⟩ := hzero
    exact ⟨0, toRat?_of_zero hr, fun _ => (add_zero 0).symm, fun h => by rwa [add_zero] at h⟩
  · have hsum : (x + y).toFloat.toModel.unpack = .finite t n d hd.pos := by
      rw [unpack_add, hu, hv]
      exact Binary.unpack_pack t hd
    rw [zero_add]
    exact ⟨_, toRat?_of_finite hsum, fun _ => rfl, id⟩
  · have hsum : (x + y).toFloat.toModel.unpack = .finite s m e hc.pos := by
      rw [unpack_add, hu, hv]
      exact Binary.unpack_pack s hc
    rw [add_zero]
    exact ⟨_, toRat?_of_finite hsum, fun _ => rfl, id⟩
  · refine exists_toRat?_of_rounds ?_
    rw [unpack_add, hu, hv]
    exact Binary.rounds_add hc hd hmost

end Number

end JsonFilter
