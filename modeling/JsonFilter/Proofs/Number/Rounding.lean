import Mathlib.Algebra.Order.Field.Basic
import Mathlib.Algebra.Order.Field.Power
import Mathlib.Data.Rat.Cast.Order
import Mathlib.Tactic.Linarith
import Mathlib.Tactic.NormNum
import Mathlib.Tactic.Ring

/-!
Rounding to binary64. A mantissa that is shifted to the right keeps, in two more bits, on which side
of the middle the lost part lies, so rounding it is rounding the exact value. Every value in the
interval around a binary64 number is rounded to that number, and the middle between two numbers goes
to the even one.
-/

namespace JsonFilter.Binary

open Float.Model Float.Model.UnpackedFloat

theorem two_pow_mul_zpow (n : Nat) (k : Int) : (2 : ℚ) ^ n * 2 ^ k = 2 ^ (n + k) := by
  rw [← zpow_natCast, ← zpow_add₀ (by norm_num)]

/-! ## Shifting -/

/-- A mantissa with its two further bits stands for `x`. -/
def StandsFor : ExtendedMantissa → ℚ → Prop
  | ⟨m, false, false⟩, x => x = m
  | ⟨m, false, true⟩, x => (m : ℚ) < x ∧ x < m + 1 / 2
  | ⟨m, true, false⟩, x => x = m + 1 / 2
  | ⟨m, true, true⟩, x => (m : ℚ) + 1 / 2 < x ∧ x < m + 1

theorem standsFor_exact (m : Nat) : StandsFor (.ofMantissaAndAccuracy m .exact) m := rfl

/-- A quotient with the accuracy of its remainder stands for the exact quotient. -/
theorem standsFor_div (n : Nat) {d : Nat} (hd : 0 < d) :
    StandsFor (.ofMantissaAndAccuracy (n / d) (accuracyOfFraction (n % d) d)) ((n : ℚ) / d) := by
  have hd' : (0 : ℚ) < d := by exact_mod_cast hd
  have hlt : ((n % d : Nat) : ℚ) < d := by exact_mod_cast Nat.mod_lt n hd
  have hsplit : (n : ℚ) = (n / d : Nat) * d + (n % d : Nat) := by
    exact_mod_cast (Nat.div_add_mod' n d).symm
  have hquotient : (n : ℚ) / d = (n / d : Nat) + (n % d : Nat) / (d : ℚ) := by
    rw [div_eq_iff hd'.ne', add_mul, div_mul_cancel₀ _ hd'.ne', ← hsplit]
  rw [hquotient, accuracyOfFraction]
  split
  · next hzero =>
    show _ = _
    rw [hzero, Nat.cast_zero, zero_div, add_zero]
  · next hne =>
    have hpos : (0 : ℚ) < (n % d : Nat) := by exact_mod_cast Nat.pos_of_ne_zero hne
    cases hcompare : compare (2 * (n % d)) d with
    | lt =>
      have h : (2 : ℚ) * (n % d : Nat) < d := by exact_mod_cast Nat.compare_eq_lt.mp hcompare
      refine ⟨lt_add_of_pos_right _ (div_pos hpos hd'), add_lt_add_right ?_ _⟩
      rw [div_lt_iff₀ hd']
      linarith
    | eq =>
      have h : (2 : ℚ) * (n % d : Nat) = d := by exact_mod_cast Nat.compare_eq_eq.mp hcompare
      refine congrArg _ ?_
      rw [div_eq_iff hd'.ne']
      linarith
    | gt =>
      have h : (d : ℚ) < 2 * (n % d : Nat) := by exact_mod_cast Nat.compare_eq_gt.mp hcompare
      refine ⟨add_lt_add_right ?_ _, add_lt_add_right ?_ _⟩
      · rw [lt_div_iff₀ hd']
        linarith
      · rw [div_lt_one hd']
        exact hlt

theorem StandsFor.bounds {em : ExtendedMantissa} {x : ℚ} (h : StandsFor em x) :
    (em.mantissa : ℚ) ≤ x ∧ x < em.mantissa + 1 := by
  obtain ⟨m, round, sticky⟩ := em
  cases round <;> cases sticky <;> simp only [StandsFor] at h ⊢ <;> constructor <;> linarith

theorem StandsFor.shiftRightOne {em : ExtendedMantissa} {x : ℚ} (h : StandsFor em x) :
    StandsFor em.shiftRightOne (x / 2) := by
  obtain ⟨m, round, sticky⟩ := em
  have hsplit : (m : ℚ) = 2 * (m / 2 : Nat) + (m % 2 : Nat) := by
    exact_mod_cast (Nat.div_add_mod m 2).symm
  -- The last bit of the mantissa becomes the round bit, and both old bits the sticky one.
  rcases Nat.mod_two_eq_zero_or_one m with hm | hm
  · have hbit : (m % 2 != 0) = false := by rw [hm]; rfl
    rw [hm, Nat.cast_zero] at hsplit
    cases round <;> cases sticky <;>
      simp only [StandsFor, ExtendedMantissa.shiftRightOne, hbit, Bool.or_false, Bool.or_true]
        at h ⊢ <;> grind
  · have hbit : (m % 2 != 0) = true := by rw [hm]; rfl
    rw [hm, Nat.cast_one] at hsplit
    cases round <;> cases sticky <;>
      simp only [StandsFor, ExtendedMantissa.shiftRightOne, hbit, Bool.or_false, Bool.or_true]
        at h ⊢ <;> grind

theorem StandsFor.shiftRight {em : ExtendedMantissa} {x : ℚ} (h : StandsFor em x) (n : Nat) :
    StandsFor (em >>> n) (x / 2 ^ n) := by
  induction n with
  | zero => rwa [pow_zero, div_one]
  | succ n ih =>
    rw [pow_succ, ← div_div]
    exact ih.shiftRightOne

/-- The value `x` is rounded to `n`, the middle to the even neighbour. -/
def Nearest (n : Nat) (x : ℚ) : Prop :=
  (n : ℚ) - 1 / 2 ≤ x ∧ x ≤ n + 1 / 2 ∧
    (n % 2 = 0 ∨ ((n : ℚ) - 1 / 2 < x ∧ x < n + 1 / 2))

theorem StandsFor.roundedMantissa {em : ExtendedMantissa} {x : ℚ} {n : Nat} (h : StandsFor em x)
    (hn : Nearest n x) : em.roundedMantissa = n := by
  obtain ⟨m, round, sticky⟩ := em
  obtain ⟨hlow, hhigh, htie⟩ := hn
  cases round <;> cases sticky <;> simp only [StandsFor] at h
  · show m = n
    have h₁ : (n : ℚ) < m + 1 := by linarith
    have h₂ : (m : ℚ) < n + 1 := by linarith
    norm_cast at h₁ h₂
    omega
  · show m = n
    have h₁ : (n : ℚ) < m + 1 := by linarith
    have h₂ : (m : ℚ) < n + 1 := by linarith
    norm_cast at h₁ h₂
    omega
  · show m + m % 2 = n
    have h₁ : (n : ℚ) ≤ m + 1 := by linarith
    have h₂ : (m : ℚ) ≤ n := by linarith
    norm_cast at h₁ h₂
    -- The value is in the middle, so it is the neighbour that is even.
    rcases htie with heven | ⟨h₃, h₄⟩
    · omega
    · have h₅ : (n : ℚ) < m + 1 := by linarith
      have h₆ : (m : ℚ) < n := by linarith
      norm_cast at h₅ h₆
      omega
  · show m + 1 = n
    have h₁ : (n : ℚ) < m + 2 := by linarith
    have h₂ : (m : ℚ) < n := by linarith
    norm_cast at h₁ h₂
    omega

/-! ## Intervals -/

/-- The mantissa and the exponent of a positive binary64 number. -/
structure Canonical (m : Nat) (e : Int) : Prop where
  pos : 0 < m
  lt : m < 2 ^ 53
  least : -1074 ≤ e
  most : e ≤ 971
  normal : e ≠ -1074 → 2 ^ 52 ≤ m

/-- How far below `m * 2 ^ e` the values are that round to it, in units of `2 ^ e`: below a power of
two the numbers lie twice as dense. -/
def below (m : Nat) (e : Int) : ℚ := if m = 2 ^ 52 ∧ -1074 < e then 1 / 4 else 1 / 2

theorem below_pos (m : Nat) (e : Int) : 0 < below m e := by
  unfold below
  split <;> norm_num

theorem below_le (m : Nat) (e : Int) : below m e ≤ 1 / 2 := by
  unfold below
  split <;> norm_num

/-- The value `v` is in the interval of those that round to `m * 2 ^ e`, whose ends belong to it if
`m` is even. -/
def Around (m : Nat) (e : Int) (v : ℚ) : Prop :=
  (m - below m e) * 2 ^ e ≤ v ∧ v ≤ (m + 1 / 2) * 2 ^ e ∧
    (m % 2 = 0 ∨ ((m - below m e) * 2 ^ e < v ∧ v < (m + 1 / 2) * 2 ^ e))

theorem around_self (m : Nat) (e : Int) : Around m e (m * 2 ^ e) := by
  have hbelow := below_pos m e
  have hunit : (0 : ℚ) < 2 ^ e := by positivity
  have hlow : (m - below m e) * 2 ^ e < m * 2 ^ e :=
    mul_lt_mul_of_pos_right (by linarith) hunit
  have hhigh : (m : ℚ) * 2 ^ e < (m + 1 / 2) * 2 ^ e :=
    mul_lt_mul_of_pos_right (by linarith) hunit
  exact ⟨hlow.le, hhigh.le, .inr ⟨hlow, hhigh⟩⟩

section
variable {m : Nat} {e : Int} {v : ℚ}

/-- In units of `2 ^ e`, a value around `m * 2 ^ e` is nearest to `m`. -/
theorem Around.nearest (h : Around m e v) : Nearest m (v / 2 ^ e) := by
  have hunit : (0 : ℚ) < 2 ^ e := by positivity
  have hbelow := below_le m e
  obtain ⟨hlow, hhigh, htie⟩ := h
  rw [← le_div_iff₀ hunit] at hlow
  rw [← div_le_iff₀ hunit] at hhigh
  refine ⟨by linarith, hhigh, htie.imp_right fun ⟨hlow, hhigh⟩ => ?_⟩
  rw [← lt_div_iff₀ hunit] at hlow
  rw [← div_lt_iff₀ hunit] at hhigh
  exact ⟨by linarith, hhigh⟩

/-- Just below a power of two, units of half the size make it the nearest number. -/
theorem Around.nearest_half (h : Around (2 ^ 52) e v) (he : -1074 < e) (hv : v < 2 ^ 52 * 2 ^ e) :
    Nearest (2 ^ 53) (v / 2 ^ (e - 1)) := by
  have hunit : (0 : ℚ) < 2 ^ (e - 1) := by positivity
  have hdouble : (2 : ℚ) ^ e = 2 * 2 ^ (e - 1) := by
    rw [← zpow_one_add₀ (by norm_num), add_sub_cancel]
  have hbelow : below (2 ^ 52) e = 1 / 4 := if_pos ⟨rfl, he⟩
  obtain ⟨hlow, _, _⟩ := h
  rw [hbelow, hdouble] at hlow
  rw [hdouble] at hv
  have h₁ : ((2 : ℚ) ^ 53 - 1 / 2) ≤ v / 2 ^ (e - 1) := by
    rw [le_div_iff₀ hunit]
    push_cast at hlow
    linarith
  have h₂ : v / 2 ^ (e - 1) < (2 : ℚ) ^ 53 := by
    rw [div_lt_iff₀ hunit]
    linarith
  refine ⟨?_, ?_, .inl (by norm_num)⟩
  · push_cast
    exact h₁
  · push_cast
    linarith

theorem Around.lt (h : Around m e v) (hc : Canonical m e) : v < 2 ^ (53 + e) := by
  have hunit : (0 : ℚ) < 2 ^ e := by positivity
  have hm : (m : ℚ) + 1 ≤ 2 ^ 53 := by exact_mod_cast hc.lt
  have hpower : (2 : ℚ) ^ (53 : Int) = 2 ^ 53 := by norm_num
  rw [zpow_add₀ (by norm_num), hpower]
  exact h.2.1.trans_lt (mul_lt_mul_of_pos_right (by linarith) hunit)

theorem Around.gt (h : Around m e v) (hc : Canonical m e) (he : e ≠ -1074) : 2 ^ (51 + e) < v := by
  have hunit : (0 : ℚ) < 2 ^ e := by positivity
  have hm : (2 : ℚ) ^ 52 ≤ m := by exact_mod_cast hc.normal he
  have hbelow := below_le m e
  have hpower : (2 : ℚ) ^ (51 : Int) = 2 ^ 51 := by norm_num
  rw [zpow_add₀ (by norm_num), hpower]
  exact (mul_lt_mul_of_pos_right (by linarith) hunit).trans_le h.1

/-- Only at a power of two are there values around a number that lie below its binade. -/
theorem Around.gt_of_ne (h : Around m e v) (hc : Canonical m e) (he : e ≠ -1074) (hm : m ≠ 2 ^ 52) :
    2 ^ 52 * 2 ^ e < v := by
  have hunit : (0 : ℚ) < 2 ^ e := by positivity
  have hlt : 2 ^ 52 + 1 ≤ m := by
    have hle := hc.normal he
    omega
  have hlt' : (2 : ℚ) ^ 52 + 1 ≤ m := by exact_mod_cast hlt
  have hbelow := below_le m e
  exact (mul_lt_mul_of_pos_right (by linarith) hunit).trans_le h.1

/-! ## Exponents -/

/-- The exponent that the rounding of `n * 2 ^ t` aims at. -/
def target (n : Nat) (t : Int) : Int := max (n.log2 + t - 52) (-1074)

theorem targetExponent_eq (n : Nat) (t : Int) :
    Format.binary64.targetExponent (totalExponent n t) = target n t := by
  have hmin : Format.binary64.minExponent = -1074 := by decide
  have hbits : (Format.binary64.mantissaBits : Int) = 53 := by decide
  rw [Format.targetExponent, totalExponent, hmin, hbits, target]
  congr 1
  omega

/-- The binade of a value whose integer part is known. -/
theorem binade {n : Nat} {x : ℚ} (t : Int) (hn : n ≠ 0) (hle : (n : ℚ) ≤ x) (hlt : x < n + 1) :
    2 ^ (n.log2 + t) ≤ x * 2 ^ t ∧ x * 2 ^ t < 2 ^ (n.log2 + 1 + t) := by
  have hunit : (0 : ℚ) < 2 ^ t := by positivity
  have hlow : (2 : ℚ) ^ n.log2 ≤ n := by exact_mod_cast Nat.log2_self_le hn
  have hhigh : (n : ℚ) + 1 ≤ 2 ^ (n.log2 + 1) := by exact_mod_cast Nat.lt_log2_self (n := n)
  rw [zpow_add₀ (by norm_num), zpow_add₀ (by norm_num)]
  refine ⟨mul_le_mul_of_nonneg_right ?_ hunit.le, mul_lt_mul_of_pos_right ?_ hunit⟩
  · exact_mod_cast hlow.trans hle
  · exact_mod_cast hlt.trans_le hhigh

theorem exponent_lt {a b : Int} {v : ℚ} (ha : 2 ^ a ≤ v) (hb : v < 2 ^ b) : a < b :=
  (zpow_lt_zpow_iff_right₀ (by norm_num : (1 : ℚ) < 2)).mp (ha.trans_lt hb)

/-- A value around a number, by the mantissa and the exponent that its rounding starts from. The
exponent that is aimed at is that of the number or, just below a power of two, one less. -/
theorem target_of_around {n : Nat} {x : ℚ} {t : Int} (hc : Canonical m e) (hle : (n : ℚ) ≤ x)
    (hlt : x < n + 1) (hv : Around m e (x * 2 ^ t)) (ht : t ≤ target n t) :
    target n t = e ∨
      target n t = e - 1 ∧ m = 2 ^ 52 ∧ -1074 < e ∧ x * 2 ^ t < 2 ^ 52 * 2 ^ e := by
  have hleast := hc.least
  rw [target] at *
  by_cases hn : n = 0
  · subst hn
    have hlog : Nat.log2 0 = 0 := Nat.log2_zero
    have hsmall : x * 2 ^ t < 2 ^ t := by
      have hunit : (0 : ℚ) < 2 ^ t := by positivity
      have hone : x < 1 := by simpa using hlt
      nlinarith
    refine .inl ?_
    by_cases he : e = -1074
    · omega
    · have hexp := exponent_lt (hv.gt hc he).le hsmall
      omega
  · obtain ⟨hlow, hhigh⟩ := binade t hn hle hlt
    have htop := exponent_lt hlow (hv.lt hc)
    by_cases he : e = -1074
    · omega
    · have hbottom := exponent_lt (hv.gt hc he).le hhigh
      by_cases hlast : n.log2 + t = e + 52
      · omega
      · have hexp : (n.log2 : Int) + 1 + t = 52 + e := by omega
        rw [hexp, zpow_add₀ (by norm_num)] at hhigh
        refine .inr ⟨by omega, ?_, by omega, hhigh⟩
        by_contra hm
        exact absurd hhigh (hv.gt_of_ne hc he hm).le.not_gt

/-! ## Rounding -/

theorem shiftToTargetExponent_eq (n : Nat) (t : Int) (a : Accuracy) :
    shiftToTargetExponent Format.binary64 n t a =
      (ExtendedMantissa.ofMantissaAndAccuracy n a >>> (target n t - t).toNat,
        t + (target n t - t).toNat) := by
  rw [← targetExponent_eq]
  rfl

/-- A number that is rounded already stays. -/
theorem shiftToTargetExponent_canonical (hc : Canonical m e) :
    shiftToTargetExponent Format.binary64 m e .exact = (⟨m, false, false⟩, e) := by
  have hlog : m.log2 < 53 := (Nat.log2_lt hc.pos.ne').mpr hc.lt
  have hleast := hc.least
  have hshift : (target m e - e).toNat = 0 := by
    rw [target]
    omega
  rw [shiftToTargetExponent_eq, hshift, Nat.cast_zero, add_zero]
  rfl

/-- A power of two that came out of rounding is written with one bit less. -/
theorem shiftToTargetExponent_carry (he : -1074 < e) :
    shiftToTargetExponent Format.binary64 (2 ^ 53) (e - 1) .exact =
      (⟨2 ^ 52, false, false⟩, e) := by
  have hlog : Nat.log2 (2 ^ 53) = 53 := Nat.log2_two_pow
  have hshift : (target (2 ^ 53) (e - 1) - (e - 1)).toNat = 1 := by
    rw [target, hlog]
    omega
  rw [shiftToTargetExponent_eq, hshift, Nat.cast_one, sub_add_cancel]
  rfl

theorem mantissa_ofMantissaAndAccuracy (n : Nat) (a : Accuracy) :
    (ExtendedMantissa.ofMantissaAndAccuracy n a).mantissa = n := by
  unfold ExtendedMantissa.ofMantissaAndAccuracy
  split <;> rfl

/-- Shifting to an exponent divides by the difference of the units. -/
theorem StandsFor.shiftTo {em : ExtendedMantissa} {x : ℚ} {t u : Int} (h : StandsFor em x)
    (htu : t ≤ u) : StandsFor (em >>> (u - t).toNat) (x * 2 ^ t / 2 ^ u) := by
  have hu : u = t + (u - t).toNat := by omega
  have hunit : (2 : ℚ) ^ u = 2 ^ t * 2 ^ (u - t).toNat := by
    rw [mul_comm, two_pow_mul_zpow, add_comm, ← hu]
  rw [hunit, mul_comm x, mul_div_mul_left _ _ (by positivity)]
  exact h.shiftRight _

/-- Every value around a number is rounded to it. -/
theorem roundWithAccuracy_of_around (sign : Sign) {n : Nat} {x : ℚ} {t : Int} {a : Accuracy}
    (hc : Canonical m e) (hx : StandsFor (.ofMantissaAndAccuracy n a) x)
    (hv : Around m e (x * 2 ^ t)) (ht : t ≤ target n t) :
    roundWithAccuracy Format.binary64 sign n t a = .finite sign m e hc.pos := by
  obtain ⟨hle, hlt⟩ := hx.bounds
  rw [mantissa_ofMantissaAndAccuracy] at hle hlt
  have hshift := hx.shiftTo ht
  have hsum : t + (target n t - t).toNat = target n t := by omega
  rw [roundWithAccuracy, shiftToTargetExponent_eq, hsum]
  rcases target_of_around hc hle hlt hv ht with he | ⟨he, rfl, hleast, hsmall⟩
  · rw [he] at hshift ⊢
    dsimp only
    rw [hshift.roundedMantissa hv.nearest, shiftToTargetExponent_canonical hc]
    exact dif_neg hc.pos.ne'
  · rw [he] at hshift ⊢
    dsimp only
    rw [hshift.roundedMantissa (hv.nearest_half hleast hsmall), shiftToTargetExponent_carry hleast]
    exact dif_neg (by norm_num)

end

end JsonFilter.Binary
