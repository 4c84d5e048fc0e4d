import JsonFilter.Proofs.Number.Rounding
import Mathlib.Data.Int.Log
import Mathlib.Data.Rat.Floor

/-!
Neighbours among the binary64 numbers. Every value in their range is around one of them, the one it
is rounded to, and rounding never carries a value past another binary64 number: one that is not
above the value is not above its rounding either, and the same below.
-/

namespace JsonFilter.Binary

variable {m m' : Nat} {e e' : Int} {v : ℚ}

/-! ## Every value is around a number -/

theorem exists_nearest {x : ℚ} (hx : 0 ≤ x) : ∃ n : Nat, Nearest n x := by
  have hlow : (⌊x⌋₊ : ℚ) ≤ x := Nat.floor_le hx
  have hhigh : x < ⌊x⌋₊ + 1 := Nat.lt_floor_add_one x
  rcases lt_trichotomy x (⌊x⌋₊ + 1 / 2) with h | h | h
  · exact ⟨⌊x⌋₊, by linarith, h.le, .inr ⟨by linarith, h⟩⟩
  · -- In the middle, one of the two neighbours is even.
    rcases Nat.mod_two_eq_zero_or_one ⌊x⌋₊ with heven | hodd
    · exact ⟨⌊x⌋₊, by linarith, h.le, .inl heven⟩
    · refine ⟨⌊x⌋₊ + 1, ?_, ?_, .inl (by omega)⟩
      · push_cast
        linarith
      · push_cast
        linarith
  · refine ⟨⌊x⌋₊ + 1, ?_, ?_, .inr ⟨?_, ?_⟩⟩ <;> push_cast <;> linarith

/-- A value is around the number whose mantissa is nearest to it in units of `2 ^ e`, unless that
number is a power of two and the value lies below it. -/
theorem Nearest.around {n : Nat} (h : Nearest n (v / 2 ^ e))
    (hpower : n = 2 ^ 52 → -1074 < e → 2 ^ 52 ≤ v / 2 ^ e) : Around n e v := by
  have hunit : (0 : ℚ) < 2 ^ e := by positivity
  obtain ⟨hlow, hhigh, htie⟩ := h
  have hv : v = v / 2 ^ e * 2 ^ e := (div_mul_cancel₀ v hunit.ne').symm
  have hbound : (n - below n e) * 2 ^ e ≤ v ∧ ((n - 1 / 2 < v / 2 ^ e) →
      (n - below n e) * 2 ^ e < v) := by
    unfold below
    split
    · next hm =>
      have hge := hpower hm.1 hm.2
      have hn : (n : ℚ) = 2 ^ 52 := by exact_mod_cast hm.1
      have hlt : (n - 1 / 4) * 2 ^ e < v := by
        rw [hv]
        exact mul_lt_mul_of_pos_right (by linarith) hunit
      exact ⟨hlt.le, fun _ => hlt⟩
    · refine ⟨?_, fun hlt => ?_⟩
      · rw [hv]
        exact mul_le_mul_of_nonneg_right hlow hunit.le
      · rw [hv]
        exact mul_lt_mul_of_pos_right hlt hunit
  refine ⟨hbound.1, ?_, htie.imp_right fun ⟨hlt, hgt⟩ => ⟨hbound.2 hlt, ?_⟩⟩
  · rw [hv]
    exact mul_le_mul_of_nonneg_right hhigh hunit.le
  · rw [hv]
    exact mul_lt_mul_of_pos_right hgt hunit

/-- Just below a power of two, a value whose mantissa would need one more bit is around the power. -/
theorem Nearest.around_carry (h : Nearest (2 ^ 53) (v / 2 ^ e)) (hlt : v / 2 ^ e < 2 ^ 53)
    (he : -1074 ≤ e) : Around (2 ^ 52) (e + 1) v := by
  have hunit : (0 : ℚ) < 2 ^ e := by positivity
  have hdouble : (2 : ℚ) ^ (e + 1) = 2 * 2 ^ e := by
    rw [zpow_add₀ (by norm_num), zpow_one, mul_comm]
  have hbelow : below (2 ^ 52) (e + 1) = 1 / 4 := if_pos ⟨rfl, by omega⟩
  have hlow := h.1
  rw [le_div_iff₀ hunit] at hlow
  rw [div_lt_iff₀ hunit] at hlt
  rw [Around, hbelow, hdouble]
  push_cast at hlow ⊢
  exact ⟨by linarith, by linarith, .inl (by norm_num)⟩

/-- The largest finite number. -/
def greatest : ℚ := (2 ^ 53 - 1) * 2 ^ (971 : Int)

/-- Every value in the range of the binary64 numbers has a unit that leaves 53 bits to its mantissa,
or it has the least unit. -/
theorem exists_unit (hleast : 2 ^ (-1074 : Int) ≤ v) (hmost : v < 2 ^ (1024 : Int)) :
    ∃ e : Int, -1074 ≤ e ∧ e ≤ 971 ∧ 1 ≤ v / 2 ^ e ∧ v / 2 ^ e < 2 ^ 53 ∧
      (e ≠ -1074 → 2 ^ 52 ≤ v / 2 ^ e) := by
  have hpos : 0 < v := lt_of_lt_of_le (by positivity) hleast
  obtain ⟨k, hlow, hhigh⟩ : ∃ k : Int, (2 : ℚ) ^ k ≤ v ∧ v < 2 ^ (k + 1) :=
    ⟨Int.log 2 v, by exact_mod_cast Int.zpow_log_le_self (by norm_num) hpos,
      by exact_mod_cast Int.lt_zpow_succ_log_self (by norm_num : 1 < 2) v⟩
  have hkmost : k < 1024 := exponent_lt hlow hmost
  rcases le_total (-1074) (k - 52) with h | h
  · have hunit : (0 : ℚ) < 2 ^ (k - 52) := by positivity
    have hnormal : 2 ^ 52 ≤ v / 2 ^ (k - 52) := by
      rw [le_div_iff₀ hunit]
      calc (2 : ℚ) ^ 52 * 2 ^ (k - 52)
          = 2 ^ k := by rw [two_pow_mul_zpow, Nat.cast_ofNat, add_sub_cancel]
        _ ≤ v := hlow
    have hbits : v / 2 ^ (k - 52) < 2 ^ 53 := by
      rw [div_lt_iff₀ hunit]
      calc v < 2 ^ (k + 1) := hhigh
        _ = 2 ^ ((53 : Nat) + (k - 52)) := by congr 1; push_cast; ring
        _ = 2 ^ 53 * 2 ^ (k - 52) := (two_pow_mul_zpow 53 (k - 52)).symm
    exact ⟨k - 52, h, by omega, le_trans (by norm_num) hnormal, hbits, fun _ => hnormal⟩
  · have hunit : (0 : ℚ) < 2 ^ (-1074 : Int) := by positivity
    have hbits : v / 2 ^ (-1074 : Int) < 2 ^ 53 := by
      rw [div_lt_iff₀ hunit]
      calc v < 2 ^ (k + 1) := hhigh
        _ ≤ 2 ^ ((53 : Nat) + (-1074) : Int) :=
          zpow_le_zpow_right₀ (by norm_num) (by push_cast; omega)
        _ = 2 ^ 53 * 2 ^ (-1074 : Int) := (two_pow_mul_zpow 53 (-1074)).symm
    exact ⟨-1074, le_rfl, by norm_num, by rwa [le_div_iff₀ hunit, one_mul], hbits,
      fun hne => absurd rfl hne⟩

theorem greatest_lt : greatest < 2 ^ (1024 : Int) := by
  have hpower : (2 : ℚ) ^ (1024 : Int) = 2 ^ 53 * 2 ^ (971 : Int) := by
    rw [two_pow_mul_zpow]
    rfl
  rw [greatest, hpower]
  exact mul_lt_mul_of_pos_right (by norm_num) (by positivity)

theorem two_zpow_le_greatest {k : Int} (hk : k ≤ 1023) : 2 ^ k ≤ greatest := by
  have hpower : (2 : ℚ) ^ (1023 : Int) = 2 ^ 52 * 2 ^ (971 : Int) := by
    rw [two_pow_mul_zpow]
    rfl
  refine (zpow_le_zpow_right₀ (by norm_num) hk).trans ?_
  rw [greatest, hpower]
  exact mul_le_mul_of_nonneg_right (by norm_num) (by positivity)

/-- Every value in the range of the binary64 numbers is around one of them. -/
theorem exists_around (hleast : 2 ^ (-1074 : Int) ≤ v) (hmost : v ≤ greatest) :
    ∃ m e, Canonical m e ∧ Around m e v := by
  obtain ⟨e, he, hemost, hone, hbits, hnormal⟩ := exists_unit hleast (hmost.trans_lt greatest_lt)
  obtain ⟨n, hn⟩ := exists_nearest (zero_le_one.trans hone)
  have hnlow := hn.1
  have hnhigh := hn.2.1
  have hnpos : 0 < n := by
    have h : (0 : ℚ) < n := by linarith
    exact_mod_cast h
  have hnle : n ≤ 2 ^ 53 := by
    have h : (n : ℚ) < (2 ^ 53 + 1 : Nat) := by
      push_cast
      linarith
    have h' : n < 2 ^ 53 + 1 := by exact_mod_cast h
    omega
  rcases hnle.lt_or_eq with hlt | rfl
  · have hlarge (hne : e ≠ -1074) : 2 ^ 52 ≤ n := by
      have h : ((2 ^ 52 - 1 : Nat) : ℚ) < n := by
        have hleft := hnormal hne
        push_cast
        linarith
      have h' : 2 ^ 52 - 1 < n := by exact_mod_cast h
      omega
    exact ⟨n, e, ⟨hnpos, hlt, he, by omega, hlarge⟩, hn.around fun _ he' => hnormal (by omega)⟩
  · have hroom : e ≠ 971 := by
      rintro rfl
      have hunit : (0 : ℚ) < 2 ^ (971 : Int) := by positivity
      rw [greatest, ← div_le_iff₀ hunit] at hmost
      have hnone := hnlow.trans hmost
      norm_num at hnone
    exact ⟨2 ^ 52, e + 1, ⟨by norm_num, by norm_num, by omega, by omega, fun _ => le_rfl⟩,
      hn.around_carry hbits he⟩

/-! ## Rounding carries no value past a number -/

/-- A mantissa written in smaller units. -/
theorem mul_zpow_of_le (m : Nat) (h : e ≤ e') :
    (m : ℚ) * 2 ^ e' = (m * 2 ^ (e' - e).toNat : Nat) * 2 ^ e := by
  have he : e' = e + (e' - e).toNat := by omega
  conv_lhs => rw [he, zpow_add₀ (by norm_num), zpow_natCast]
  push_cast
  ring

/-- A unit is at least twice as large as one with a smaller exponent. -/
theorem two_mul_zpow_le (he : e' < e) : (2 : ℚ) * 2 ^ e' ≤ 2 ^ e := by
  rw [← zpow_one_add₀ (by norm_num)]
  exact zpow_le_zpow_right₀ (by norm_num) (by omega)

/-- A number with a larger exponent is larger. -/
theorem Canonical.lt_of_exponent_lt (hc : Canonical m e) (hc' : Canonical m' e') (he : e' < e) :
    (m' : ℚ) * 2 ^ e' < m * 2 ^ e := by
  have hleast := hc'.least
  have hunit : (0 : ℚ) < 2 ^ e' := by positivity
  have hm : (2 : ℚ) ^ 52 ≤ m := by exact_mod_cast hc.normal (by omega)
  have hm' : (m' : ℚ) < 2 ^ 53 := by exact_mod_cast hc'.lt
  have hscale := two_mul_zpow_le he
  nlinarith

/-- A number above another one is above it by a unit at least. -/
theorem Canonical.succ_le (hc : Canonical m e) (hc' : Canonical m' e')
    (h : (m : ℚ) * 2 ^ e < m' * 2 ^ e') : ((m : ℚ) + 1) * 2 ^ e ≤ m' * 2 ^ e' := by
  have hunit : (0 : ℚ) < 2 ^ e := by positivity
  rcases le_or_gt e e' with he | he
  · rw [mul_zpow_of_le m' he] at h ⊢
    have hlt : m < m' * 2 ^ (e' - e).toNat := by
      exact_mod_cast lt_of_mul_lt_mul_right h hunit.le
    have hle : (m : ℚ) + 1 ≤ (m' * 2 ^ (e' - e).toNat : Nat) := by exact_mod_cast hlt
    exact mul_le_mul_of_nonneg_right hle hunit.le
  · exact absurd h (hc.lt_of_exponent_lt hc' he).not_gt

/-- A number below another one is below it by the distance of the values that round to it, twice. -/
theorem Canonical.le_pred (hc : Canonical m e) (hc' : Canonical m' e')
    (h : (m' : ℚ) * 2 ^ e' < m * 2 ^ e) : (m' : ℚ) * 2 ^ e' ≤ (m - 2 * below m e) * 2 ^ e := by
  have hunit : (0 : ℚ) < 2 ^ e := by positivity
  rcases le_or_gt e e' with he | he
  · have hbelow := below_le m e
    rw [mul_zpow_of_le m' he] at h ⊢
    have hlt : m' * 2 ^ (e' - e).toNat < m := by
      exact_mod_cast lt_of_mul_lt_mul_right h hunit.le
    have hle : ((m' * 2 ^ (e' - e).toNat : Nat) : ℚ) + 1 ≤ m := by exact_mod_cast hlt
    exact mul_le_mul_of_nonneg_right (by linarith) hunit.le
  · have hleast := hc'.least
    have hm : 2 ^ 52 ≤ m := hc.normal (by omega)
    have hm' : (m' : ℚ) + 1 ≤ 2 ^ 53 := by exact_mod_cast hc'.lt
    have hscale := two_mul_zpow_le he
    have hle : (m' : ℚ) * 2 ^ e' ≤ (2 ^ 52 - 1 / 2) * 2 ^ e := by
      have hunit' : (0 : ℚ) < 2 ^ e' := by positivity
      nlinarith
    refine hle.trans (mul_le_mul_of_nonneg_right ?_ hunit.le)
    unfold below
    split
    · next hpower =>
      rw [hpower.1]
      norm_num
    · next hpower =>
      have hgt : 2 ^ 52 + 1 ≤ m := by omega
      have hgt' : (2 : ℚ) ^ 52 + 1 ≤ m := by exact_mod_cast hgt
      linarith

/-- The number next above. -/
theorem Canonical.exists_succ (hc : Canonical m e) (he : e < 971) :
    ∃ m' e', Canonical m' e' ∧ (m' : ℚ) * 2 ^ e' = (m + 1) * 2 ^ e := by
  have hlt := hc.lt
  have hleast := hc.least
  rcases (by omega : m + 1 < 2 ^ 53 ∨ m + 1 = 2 ^ 53) with h | h
  · refine ⟨m + 1, e, ⟨by omega, h, hleast, hc.most, fun hne => ?_⟩, by push_cast; rfl⟩
    have hnormal := hc.normal hne
    omega
  · refine ⟨2 ^ 52, e + 1, ⟨by norm_num, by norm_num, by omega, by omega, fun _ => le_rfl⟩, ?_⟩
    have hm : (m : ℚ) + 1 = 2 ^ 53 := by exact_mod_cast h
    rw [hm, zpow_add₀ (by norm_num)]
    push_cast
    ring

/-- The number next below. -/
theorem Canonical.exists_pred (hc : Canonical m e) (hm : 1 < m) :
    ∃ m' e', Canonical m' e' ∧ (m' : ℚ) * 2 ^ e' = (m - 2 * below m e) * 2 ^ e := by
  have hlt := hc.lt
  have hleast := hc.least
  have hmost := hc.most
  unfold below
  split
  · next hpower =>
    refine ⟨2 ^ 53 - 1, e - 1, ⟨by norm_num, by norm_num, by omega, by omega, fun _ => by norm_num⟩,
      ?_⟩
    rw [hpower.1, zpow_sub₀ (by norm_num)]
    push_cast
    ring
  · next hpower =>
    refine ⟨m - 1, e, ⟨by omega, by omega, hleast, hmost, fun hne => ?_⟩, ?_⟩
    · have hnormal := hc.normal hne
      omega
    · rw [Nat.cast_sub hm.le]
      norm_num

/-- What is not above a value is not above its rounding. -/
theorem Around.le_of_le (hv : Around m e v) (hc : Canonical m e) (hc' : Canonical m' e')
    (h : (m' : ℚ) * 2 ^ e' ≤ v) : (m' : ℚ) * 2 ^ e' ≤ m * 2 ^ e := by
  by_contra! hlt
  have hunit : (0 : ℚ) < 2 ^ e := by positivity
  have hsucc := hc.succ_le hc' hlt
  have hhigh := hv.2.1
  nlinarith

/-- What is not below a value is not below its rounding. -/
theorem Around.ge_of_ge (hv : Around m e v) (hc : Canonical m e) (hc' : Canonical m' e')
    (h : v ≤ m' * 2 ^ e') : (m : ℚ) * 2 ^ e ≤ m' * 2 ^ e' := by
  by_contra! hlt
  have hunit : (0 : ℚ) < 2 ^ e := by positivity
  have hbelow := below_pos m e
  have hpred := hc.le_pred hc' hlt
  have hlow := hv.1
  nlinarith

/-- A number has one mantissa and one exponent. -/
theorem Canonical.eq_of_value_eq (hc : Canonical m e) (hc' : Canonical m' e')
    (h : (m : ℚ) * 2 ^ e = m' * 2 ^ e') : m = m' ∧ e = e' := by
  rcases lt_trichotomy e e' with he | rfl | he
  · exact absurd h (hc'.lt_of_exponent_lt hc he).ne
  · have hunit : (2 : ℚ) ^ e ≠ 0 := by positivity
    exact ⟨by exact_mod_cast mul_right_cancel₀ hunit h, rfl⟩
  · exact absurd h (hc.lt_of_exponent_lt hc' he).ne'

/-- Rounding keeps every number. -/
theorem Around.eq_of_canonical (hv : Around m e (m' * 2 ^ e')) (hc : Canonical m e)
    (hc' : Canonical m' e') : m = m' ∧ e = e' :=
  hc.eq_of_value_eq hc' (le_antisymm (hv.ge_of_ge hc hc' le_rfl) (hv.le_of_le hc hc' le_rfl))

/-- Numbers in the order of their values have larger exponents or, with the same one, larger
mantissas. -/
theorem Canonical.lex_of_lt (hc : Canonical m e) (hc' : Canonical m' e')
    (h : (m : ℚ) * 2 ^ e < m' * 2 ^ e') : e < e' ∨ e = e' ∧ m < m' := by
  rcases lt_trichotomy e e' with he | rfl | he
  · exact .inl he
  · have hunit : (0 : ℚ) < 2 ^ e := by positivity
    exact .inr ⟨rfl, by exact_mod_cast lt_of_mul_lt_mul_right h hunit.le⟩
  · exact absurd h (hc.lt_of_exponent_lt hc' he).not_gt

end JsonFilter.Binary
