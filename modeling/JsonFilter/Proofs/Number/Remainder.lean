import JsonFilter.Operation.Arithmetic
import JsonFilter.Proofs.Number.Exact

/-!
The remainder of two numbers. Both are cut to their integer parts, which are moved into the range
of the 64-bit signed integers, and the remainder of these is made a number again. The remainder of
two integers that are numbers is a number, so among numbers that the range holds nothing is lost.
-/

namespace JsonFilter

theorem integerPart_nonneg {p : ℚ} (h : 0 ≤ p) : 0 ≤ integerPart p := by
  rw [integerPart, if_pos h]
  exact Int.floor_nonneg.mpr h

theorem integerPart_nonpos {p : ℚ} (h : p ≤ 0) : integerPart p ≤ 0 := by
  have hneg := integerPart_nonneg (neg_nonneg.mpr h)
  rw [integerPart_neg] at hneg
  omega

/-- A dividend that is smaller than the divisor is the remainder. -/
theorem tmod_of_natAbs_lt {a b : Int} (h : a.natAbs < b.natAbs) : a.tmod b = a := by
  have hmod : (a.tmod b).natAbs = a.natAbs := by rw [Int.natAbs_tmod, Nat.mod_eq_of_lt h]
  have hsum := Int.tmod_add_mul_tdiv a b
  have hquotient : a.tdiv b = 0 := by
    rw [← Int.natAbs_eq_zero, Int.natAbs_tdiv]
    exact Nat.div_eq_of_lt h
  rwa [hquotient, mul_zero, add_zero] at hsum

/-- An integer is the remainder of the division of one rational number by another, both cut to
their integer parts, with the sign of the first. -/
structure IsRemainder (p q : ℚ) (n : Int) : Prop where
  lt : |n| < |integerPart q|
  dvd : integerPart q ∣ integerPart p - n
  nonneg : 0 ≤ p → 0 ≤ n
  nonpos : p ≤ 0 → n ≤ 0

theorem isRemainder_tmod {p q : ℚ} (h : integerPart q ≠ 0) :
    IsRemainder p q ((integerPart p).tmod (integerPart q)) where
  lt := by
    have hlt := Nat.mod_lt (integerPart p).natAbs (Int.natAbs_pos.mpr h)
    rw [← Int.natAbs_tmod] at hlt
    rw [Int.abs_eq_natAbs, Int.abs_eq_natAbs]
    exact_mod_cast hlt
  dvd := Int.dvd_self_sub_tmod
  nonneg hp := Int.tmod_nonneg _ (integerPart_nonneg hp)
  nonpos hp := by
    have hneg := Int.tmod_nonneg (integerPart q) (neg_nonneg.mpr (integerPart_nonpos hp))
    rw [Int.neg_tmod] at hneg
    omega

namespace Number

variable {x y : Number} {p q : ℚ} {a b : Int}

/-! ## 64-bit integers -/

/-- An integer moved into the range of the 64-bit signed integers. -/
def clamped (n : Int) : Int := max minInt (min maxInt n)

/-- The integers that the 64-bit signed integers are. -/
def InRange (n : Int) : Prop := minInt ≤ n ∧ n ≤ maxInt

instance (n : Int) : Decidable (InRange n) := inferInstanceAs (Decidable (_ ∧ _))

theorem clamped_of_inRange (h : InRange a) : clamped a = a := by
  unfold clamped
  rw [min_eq_right h.2, max_eq_right h.1]

theorem clamped_eq_zero_iff : clamped a = 0 ↔ a = 0 := by
  unfold clamped
  rw [minInt_eq, maxInt_eq]
  omega

theorem natAbs_clamped_le (n : Int) : (clamped n).natAbs ≤ 2 ^ 63 := by
  unfold clamped
  rw [minInt_eq, maxInt_eq]
  omega

/-- The remainder of 64-bit integers. There is none for a zero divisor, nor where the quotient is
no 64-bit integer, which is that of the least integer by -1. -/
def checkedRem? (a b : Int) : Option Int :=
  if b = 0 ∨ a = minInt ∧ b = -1 then none else some (a.tmod b)

/-- The remainder that there is none of is taken for zero. -/
theorem mod_eq_checkedRem? (x y : Number) :
    x % y = ofInt ((checkedRem? x.toInt y.toInt).getD 0) := by
  show rem x y = _
  unfold rem checkedRem?
  by_cases hzero : y.toInt = 0
  · rw [if_pos hzero, if_pos (.inl hzero)]
    rfl
  rw [if_neg hzero]
  by_cases hover : x.toInt = minInt ∧ y.toInt = -1
  · rw [if_pos (.inr hover), hover.2, Int.tmod_neg, Int.tmod_one]
    rfl
  · rw [if_neg (by tauto)]
    rfl

/-! ## Remainders that are numbers -/

/-- The remainder of two integers that are numbers is a number: it is a multiple of the lower of
their two units, and its quotient by that is one of at most 53 bits. -/
theorem representable_tmod (ha : Representable a) (hb : Representable b)
    (hsize : a.natAbs ≤ 2 ^ 63) : Representable (a.tmod b : Int) := by
  obtain ⟨k, i, hk, hka⟩ := ha.exists_scaled
  obtain ⟨l, j, hl, hlb⟩ := hb.exists_scaled
  rcases Nat.eq_zero_or_pos k with rfl | hkpos
  · obtain rfl : a = 0 := by simpa using hka
    rw [Int.zero_tmod]
    exact ha
  rcases Nat.eq_zero_or_pos l with rfl | hlpos
  · obtain rfl : b = 0 := by simpa using hlb
    rw [Int.tmod_zero]
    exact ha
  have hi : i ≤ 63 := by
    by_contra hlarge
    have hpow : 2 ^ 64 ≤ 2 ^ i := Nat.pow_le_pow_right (by norm_num) (by omega)
    have hle : 2 ^ i ≤ k * 2 ^ i := Nat.le_mul_of_pos_left _ hkpos
    omega
  have hmod : (a.tmod b).natAbs = (k * 2 ^ i) % (l * 2 ^ j) := by rw [Int.natAbs_tmod, hka, hlb]
  rcases le_total i j with hij | hij
  · obtain ⟨d, rfl⟩ := Nat.exists_eq_add_of_le hij
    have hunit : l * 2 ^ (i + d) = l * 2 ^ d * 2 ^ i := by ring
    rw [hunit, Nat.mul_mod_mul_right] at hmod
    exact representable_of_scaled ((Nat.mod_le _ _).trans_lt hk) (by omega) hmod
  · obtain ⟨d, rfl⟩ := Nat.exists_eq_add_of_le hij
    have hunit : k * 2 ^ (j + d) = k * 2 ^ d * 2 ^ j := by ring
    rw [hunit, Nat.mul_mod_mul_right] at hmod
    exact representable_of_scaled ((Nat.mod_lt _ hlpos).trans hl) (by omega) hmod

/-- The greatest 64-bit integer has 63 bits and is odd, so it is not a number. -/
theorem not_representable_of_natAbs_eq (h : a.natAbs = 2 ^ 63 - 1) : ¬Representable a := by
  intro hrep
  obtain ⟨k, j, hk, hkj⟩ := hrep.exists_scaled
  rcases Nat.eq_zero_or_pos j with rfl | hj
  · omega
  · obtain ⟨d, rfl⟩ := Nat.exists_eq_succ_of_ne_zero hj.ne'
    have heven : k * 2 ^ d.succ = 2 * (k * 2 ^ d) := by rw [pow_succ]; ring
    omega

/-- A divisor beyond the range may be moved into it, unless the dividend is the least 64-bit
integer: any other one that is a number is smaller than both ends of the range. -/
theorem tmod_clamped (ha : Representable a) (hrange : InRange a)
    (h : InRange b ∨ a ≠ minInt) : a.tmod (clamped b) = a.tmod b := by
  by_cases hb : InRange b
  · rw [clamped_of_inRange hb]
  have hleast : a ≠ minInt := h.resolve_left hb
  have hodd : a.natAbs ≠ 2 ^ 63 - 1 := fun hmax => not_representable_of_natAbs_eq hmax ha
  unfold InRange at hb hrange
  rw [minInt_eq, maxInt_eq] at hb hrange
  rw [minInt_eq] at hleast
  have hclamped : a.natAbs < (clamped b).natAbs := by
    unfold clamped
    rw [minInt_eq, maxInt_eq]
    omega
  rw [tmod_of_natAbs_lt hclamped, tmod_of_natAbs_lt (by omega)]

/-! ## Remainders of numbers -/

theorem toInt_eq_clamped (h : x.toRat? = some p) : x.toInt = clamped (integerPart p) :=
  toInt_of_toRat? h

theorem toInt_eq_zero_iff (h : x.toRat? = some p) : x.toInt = 0 ↔ integerPart p = 0 := by
  rw [toInt_eq_clamped h, clamped_eq_zero_iff]

theorem mod_eq_ofInt (hx : x.toRat? = some p) (hy : y.toRat? = some q) (h : integerPart q ≠ 0) :
    x % y = ofInt ((clamped (integerPart p)).tmod (clamped (integerPart q))) := by
  have hzero : ¬y.toInt = 0 := fun hy0 => h ((toInt_eq_zero_iff hy).mp hy0)
  rw [← toInt_eq_clamped hx, ← toInt_eq_clamped hy]
  exact if_neg hzero

theorem rounds_mod (hx : x.toRat? = some p) (hy : y.toRat? = some q) (h : integerPart q ≠ 0) :
    Binary.Rounds ((clamped (integerPart p)).tmod (clamped (integerPart q)) : Int)
      (x % y).toFloat.toModel.unpack := by
  rw [mod_eq_ofInt hx hy h]
  generalize hn : (clamped (integerPart p)).tmod (clamped (integerPart q)) = n
  have hsize : n.natAbs ≤ 2 ^ 63 := by
    rw [← hn, Int.natAbs_tmod]
    exact (Nat.mod_le _ _).trans (natAbs_clamped_le _)
  refine rounds_ofInt ?_
  have hend : Representable (2 ^ 63 : Int) :=
    representable_of_scaled (k := 1) (j := 63) (by norm_num) (by norm_num) rfl
  calc |(n : ℚ)| = (n.natAbs : ℚ) := by rw [Nat.cast_natAbs, Int.cast_abs]
    _ ≤ 2 ^ 63 := by exact_mod_cast hsize
    _ = |((2 ^ 63 : Int) : ℚ)| := by norm_num
    _ ≤ Binary.greatest := hend.abs_le

/-- Among numbers that the 64-bit integers hold, the remainder is the exact one. -/
theorem exists_isRemainder_mod (hx : x.toRat? = some p) (hy : y.toRat? = some q)
    (h : integerPart q ≠ 0) (hp : InRange (integerPart p))
    (hq : InRange (integerPart q) ∨ integerPart p ≠ minInt) :
    ∃ n : Int, (x % y).toRat? = some (n : ℚ) ∧ IsRemainder p q n := by
  have hdividend := (representable_of_toRat? hx).integerPart
  have hdivisor := (representable_of_toRat? hy).integerPart
  have hsize : (integerPart p).natAbs ≤ 2 ^ 63 := by
    rw [← clamped_of_inRange hp]
    exact natAbs_clamped_le _
  refine ⟨(integerPart p).tmod (integerPart q), ?_, isRemainder_tmod h⟩
  rw [mod_eq_ofInt hx hy h, clamped_of_inRange hp, tmod_clamped hdividend hp hq]
  exact toRat?_ofInt (representable_tmod hdividend hdivisor hsize)

end Number

namespace BinaryOp

open Number (clamped InRange checkedRem? minInt)

variable {a b : Number} {p q : ℚ}

theorem rem_apply_eq (a b : Number) :
    rem.apply (.number a) (.number b) =
      if b.toInt = 0 then .error (.zeroDivision (.number a) (.number b))
      else .ok (.number (a % b)) := rfl

/-- **Integer remainder.** The remainder of two finite numbers fails, with a division by zero, if
and only if the divisor has a zero integer part. Otherwise it is the number nearest to the
remainder of the integer parts as 64-bit integers, where the one remainder that these do not have
counts as zero. It is the exact remainder where the dividend is within the range of these integers,
whatever the divisor, the dividend -2^63 with a divisor beyond the range apart. -/
theorem rem_truncated (ha : a.toRat? = some p) (hb : b.toRat? = some q) :
    (rem.apply (.number a) (.number b) = .error (.zeroDivision (.number a) (.number b)) ↔
      integerPart q = 0) ∧
    (integerPart q ≠ 0 → ∃ r : Number, rem.apply (.number a) (.number b) = .ok (.number r) ∧
      r = .ofInt ((checkedRem? a.toInt b.toInt).getD 0) ∧
      Binary.Rounds ((clamped (integerPart p)).tmod (clamped (integerPart q)) : Int)
        r.toFloat.toModel.unpack ∧
      (InRange (integerPart p) → InRange (integerPart q) ∨ integerPart p ≠ minInt →
        ∃ n : Int, r.toRat? = some (n : ℚ) ∧ IsRemainder p q n)) := by
  rw [rem_apply_eq]
  constructor
  · rw [← Number.toInt_eq_zero_iff hb]
    split
    · next hzero => exact iff_of_true rfl hzero
    · next hzero => exact iff_of_false (fun herror => by cases herror) hzero
  · intro hq
    have hzero : ¬b.toInt = 0 := fun h => hq ((Number.toInt_eq_zero_iff hb).mp h)
    rw [if_neg hzero]
    exact ⟨a % b, rfl, Number.mod_eq_checkedRem? a b, Number.rounds_mod ha hb hq,
      Number.exists_isRemainder_mod ha hb hq⟩

/-- The one remainder that the 64-bit integers do not have. -/
theorem rem_truncated_least :
    ∃ r : Number, rem.apply (.number (.ofInt minInt)) (.number (.ofInt (-1))) = .ok (.number r) ∧
      ∃ n : Int, r.toRat? = some (n : ℚ) ∧ IsRemainder (minInt : Int) (-1 : Int) n := by
  have hleast : Number.Representable minInt :=
    Number.representable_of_scaled (k := 1) (j := 63) (by norm_num) (by norm_num) rfl
  have hone : Number.Representable (-1 : Int) :=
    Number.representable_of_natAbs_le (by norm_num)
  obtain ⟨r, hr, -, -, hexact⟩ := (rem_truncated (Number.toRat?_ofInt hleast)
    (Number.toRat?_ofInt hone)).2 (by rw [integerPart_intCast]; decide)
  refine ⟨r, hr, hexact ?_ (.inl ?_)⟩
  · rw [integerPart_intCast]
    decide
  · rw [integerPart_intCast]
    decide

/-- A dividend beyond the range is moved into it: 10^20 % 7 is the remainder of 2^63 - 1. -/
example : Number.ofNat (10 ^ 20) % Number.ofNat 7 = 0 := by decide +kernel

end BinaryOp

end JsonFilter
