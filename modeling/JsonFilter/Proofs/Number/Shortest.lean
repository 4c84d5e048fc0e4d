import JsonFilter.Number.Decimal
import JsonFilter.Proofs.Number.Scientific

/-!
Shortest decimals are around the number that they are made for. A grid of decimals with seventeen
digits is so fine that one of its points lies in the interval of every number, so the search for the
coarsest grid ends with a point in the interval.
-/

namespace JsonFilter.Decimal.Interval

open JsonFilter.Binary

/-! ## Intervals as fractions -/

section
variable {a b c d n : Nat} (hb : 0 < b) (hd : 0 < d)
include hb hd

theorem mul_le_mul_mul : a * d ≤ n * c * b ↔ (a : ℚ) / b ≤ n * (c / d) := by
  have hb' : (0 : ℚ) < b := by exact_mod_cast hb
  have hd' : (0 : ℚ) < d := by exact_mod_cast hd
  rw [mul_div_assoc', div_le_div_iff₀ hb' hd']
  norm_cast

theorem mul_mul_le_mul : n * c * b ≤ a * d ↔ n * (c / d) ≤ (a : ℚ) / b := by
  have hb' : (0 : ℚ) < b := by exact_mod_cast hb
  have hd' : (0 : ℚ) < d := by exact_mod_cast hd
  rw [mul_div_assoc', div_le_div_iff₀ hd' hb']
  norm_cast

end

/-- A power of ten is a fraction of which one side is one. -/
def up (k : Int) : Nat := if 0 ≤ k then Nat.pow 10 k.toNat else 1

def down (k : Int) : Nat := if 0 ≤ k then 1 else Nat.pow 10 (-k).toNat

theorem down_pos (k : Int) : 0 < down k := by
  unfold down
  split
  · exact Nat.one_pos
  · exact Nat.pow_pos (by norm_num)

theorem up_div_down (k : Int) : (up k / down k : ℚ) = 10 ^ k := by
  unfold up down
  split
  · next hk =>
    rw [ten_zpow_of_nonneg hk, Nat.cast_one, div_one]
    rfl
  · next hk =>
    rw [ten_zpow_of_nonpos (by omega), Nat.cast_one, one_div]
    rfl

/-- The quarter of a unit of the last bit is a fraction of which one side is one, too. -/
def quarter (e : Int) : Nat := if 2 ≤ e then Nat.pow 2 (e - 2).toNat else 1

section
variable {m : Nat} {e : Int}

theorem denominator_pos (m : Nat) (e : Int) : 0 < (ofBinary m e).denominator := by
  show 0 < if 2 ≤ e then 1 else Nat.pow 2 (2 - e).toNat
  split
  · exact Nat.one_pos
  · exact Nat.pow_pos (by norm_num)

theorem quarter_div (m : Nat) (e : Int) :
    (quarter e / (ofBinary m e).denominator : ℚ) = 2 ^ e / 4 := by
  have hfour : (2 : ℚ) ^ e / 4 = 2 ^ (e - 2) := by
    rw [zpow_sub₀ (by norm_num)]
    norm_num
  show ((if 2 ≤ e then Nat.pow 2 (e - 2).toNat else 1 : Nat) : ℚ) /
    (if 2 ≤ e then 1 else Nat.pow 2 (2 - e).toNat : Nat) = _
  rw [hfour]
  split
  · next he =>
    obtain ⟨j, hj⟩ := Int.eq_ofNat_of_zero_le (show 0 ≤ e - 2 by omega)
    rw [hj, Int.toNat_natCast, Nat.cast_one, div_one, zpow_natCast, Nat.pow_eq, Nat.cast_pow]
    rfl
  · next he =>
    obtain ⟨j, hj⟩ := Int.eq_ofNat_of_zero_le (show 0 ≤ 2 - e by omega)
    have hneg : e - 2 = -(j : Int) := by omega
    rw [hj, hneg, Int.toNat_natCast, Nat.cast_one, one_div, zpow_neg, zpow_natCast, Nat.pow_eq,
      Nat.cast_pow]
    rfl

theorem low_div (hm : 0 < m) :
    ((ofBinary m e).low : ℚ) / (ofBinary m e).denominator = (m - below m e) * 2 ^ e := by
  have hlow : (ofBinary m e).low =
      (4 * m - if m = Nat.pow 2 52 ∧ e > -1074 then 1 else 2) * quarter e := rfl
  have hbelow : ((4 * m - if m = Nat.pow 2 52 ∧ e > -1074 then 1 else 2 : Nat) : ℚ) =
      4 * (m - below m e) := by
    unfold below
    split
    · next h =>
      rw [if_pos (show m = 2 ^ 52 ∧ -1074 < e from h), Nat.cast_sub (by omega)]
      push_cast
      ring
    · next h =>
      rw [if_neg (show ¬(m = 2 ^ 52 ∧ -1074 < e) from h), Nat.cast_sub (by omega)]
      push_cast
      ring
  rw [hlow, Nat.cast_mul, mul_div_assoc, quarter_div, hbelow]
  ring

theorem value_div (m : Nat) (e : Int) :
    ((ofBinary m e).value : ℚ) / (ofBinary m e).denominator = m * 2 ^ e := by
  have hvalue : (ofBinary m e).value = 4 * m * quarter e := rfl
  rw [hvalue, Nat.cast_mul, mul_div_assoc, quarter_div]
  push_cast
  ring

theorem high_div (m : Nat) (e : Int) :
    ((ofBinary m e).high : ℚ) / (ofBinary m e).denominator = (m + 1 / 2) * 2 ^ e := by
  have hhigh : (ofBinary m e).high = (4 * m + 2) * quarter e := rfl
  rw [hhigh, Nat.cast_mul, mul_div_assoc, quarter_div]
  push_cast
  ring

/-- The interval holds what is around the number. -/
theorem contains_iff (hm : 0 < m) {n : Nat} {k : Int} :
    (ofBinary m e).contains n k = true ↔ Around m e (n * 10 ^ k) := by
  have hlow := mul_le_mul_mul (denominator_pos m e) (down_pos k) (a := (ofBinary m e).low)
    (c := up k) (n := n)
  have hhigh := mul_mul_le_mul (denominator_pos m e) (down_pos k) (a := (ofBinary m e).high)
    (c := up k) (n := n)
  have hlow' := mul_mul_le_mul (denominator_pos m e) (down_pos k) (a := (ofBinary m e).low)
    (c := up k) (n := n)
  have hhigh' := mul_le_mul_mul (denominator_pos m e) (down_pos k) (a := (ofBinary m e).high)
    (c := up k) (n := n)
  rw [up_div_down, low_div hm] at hlow hlow'
  rw [up_div_down, high_div] at hhigh hhigh'
  show (if m % 2 == 0 then
      decide ((ofBinary m e).low * down k ≤ n * up k * (ofBinary m e).denominator) &&
        decide (n * up k * (ofBinary m e).denominator ≤ (ofBinary m e).high * down k)
    else
      decide ((ofBinary m e).low * down k < n * up k * (ofBinary m e).denominator) &&
        decide (n * up k * (ofBinary m e).denominator < (ofBinary m e).high * down k)) = true ↔ _
  split
  · next heven =>
    have heven : m % 2 = 0 := by simpa using heven
    rw [Bool.and_eq_true, decide_eq_true_eq, decide_eq_true_eq, hlow, hhigh]
    exact ⟨fun h => ⟨h.1, h.2, .inl heven⟩, fun h => ⟨h.1, h.2.1⟩⟩
  · next hodd =>
    have hodd : m % 2 ≠ 0 := by simpa using hodd
    rw [Bool.and_eq_true, decide_eq_true_eq, decide_eq_true_eq, ← not_le, ← not_le, hlow', hhigh',
      not_le, not_le]
    exact ⟨fun h => ⟨h.1.le, h.2.le, .inr h⟩, fun h => h.2.2.resolve_left hodd⟩

/-! ## Grids -/

/-- On a grid that is finer than a tenth of a thousandth of the last bit's size there is a point
around the number, next to the number. -/
theorem around_floor (hc : Canonical m e) {n : Nat} {k : Int}
    (hgrid : 10 ^ 16 * 10 ^ k ≤ (m : ℚ) * 2 ^ e) (hle : n * 10 ^ k ≤ (m : ℚ) * 2 ^ e)
    (hlt : (m : ℚ) * 2 ^ e < (n + 1) * 10 ^ k) :
    Around m e (n * 10 ^ k) ∨ Around m e ((n + 1 : Nat) * 10 ^ k) := by
  have hunit : (0 : ℚ) < 2 ^ e := by positivity
  have hstep : (0 : ℚ) < 10 ^ k := by positivity
  have hm : (m : ℚ) + 1 ≤ 2 ^ 53 := by exact_mod_cast hc.lt
  have hhalf : (10 : ℚ) ^ k / 2 < below m e * 2 ^ e := by
    unfold below
    split
    · next hpower =>
      have hm' : (m : ℚ) = 2 ^ 52 := by exact_mod_cast hpower.1
      rw [hm'] at hgrid
      linarith
    · nlinarith
  have hbelow := below_le m e
  have hhalf' : (10 : ℚ) ^ k / 2 < 1 / 2 * 2 ^ e :=
    hhalf.trans_le (mul_le_mul_of_nonneg_right hbelow hunit.le)
  rcases le_total ((m : ℚ) * 2 ^ e - n * 10 ^ k) (10 ^ k / 2) with hnear | hfar
  · have h₁ : (m - below m e) * 2 ^ e < (n : ℚ) * 10 ^ k := by linarith
    have h₂ : (n : ℚ) * 10 ^ k < (m + 1 / 2) * 2 ^ e := by linarith
    exact .inl ⟨h₁.le, h₂.le, .inr ⟨h₁, h₂⟩⟩
  · push_cast
    have h₁ : (m - below m e) * 2 ^ e < ((n : ℚ) + 1) * 10 ^ k := by
      have hpos := mul_pos (below_pos m e) hunit
      linarith
    have h₂ : ((n : ℚ) + 1) * 10 ^ k < (m + 1 / 2) * 2 ^ e := by linarith
    exact .inr ⟨h₁.le, h₂.le, .inr ⟨h₁, h₂⟩⟩

/-- The point of a grid that is not above the value. -/
def lower (i : Interval) (k : Int) : Nat := i.value * down k / (i.denominator * up k)

theorem contains_of_nearest? {i : Interval} {tie : Tie} {k : Int} {d : Decimal}
    (h : i.nearest? tie k = some d) : i.contains d.digits d.exponent = true := by
  unfold nearest? at h
  dsimp only at h
  rw [← up, ← down] at h
  split at h
  · cases h
  · next hlow _ =>
    obtain rfl := Option.some.inj h
    exact hlow
  · next _ hhigh =>
    obtain rfl := Option.some.inj h
    exact hhigh
  · next hlow hhigh =>
    split at h
    · obtain rfl := Option.some.inj h
      exact hlow
    split at h
    · obtain rfl := Option.some.inj h
      exact hhigh
    split at h
    · obtain rfl := Option.some.inj h
      exact hhigh
    · obtain rfl := Option.some.inj h
      rcases Nat.mod_two_eq_zero_or_one (i.value * down k / (i.denominator * up k)) with hbit | hbit
      · show i.contains (_ + i.value * down k / (i.denominator * up k) % 2) k = true
        rw [hbit]
        exact hlow
      · show i.contains (_ + i.value * down k / (i.denominator * up k) % 2) k = true
        rw [hbit]
        exact hhigh

theorem exists_nearest? {i : Interval} (tie : Tie) {k : Int}
    (h : i.contains (i.lower k) k = true ∨ i.contains (i.lower k + 1) k = true) :
    ∃ d, i.nearest? tie k = some d := by
  unfold nearest?
  dsimp only
  rw [← up, ← down]
  split
  · next hlow hhigh =>
    rcases h with h | h
    · cases hlow.symm.trans h
    · cases hhigh.symm.trans h
  · exact ⟨_, rfl⟩
  · exact ⟨_, rfl⟩
  · split
    · exact ⟨_, rfl⟩
    split
    · exact ⟨_, rfl⟩
    split
    · exact ⟨_, rfl⟩
    · exact ⟨_, rfl⟩

/-! ## The leading digit -/

/-- Whether a power of ten is not above the value. -/
def reaches (i : Interval) (k : Int) : Bool :=
  if 0 ≤ k then Nat.pow 10 k.toNat * i.denominator ≤ i.value
  else i.denominator ≤ i.value * Nat.pow 10 (-k).toNat

theorem reaches_iff {k : Int} :
    (ofBinary m e).reaches k = true ↔ (10 : ℚ) ^ k ≤ m * 2 ^ e := by
  have hden : (0 : ℚ) < (ofBinary m e).denominator := by exact_mod_cast denominator_pos m e
  rw [← value_div, le_div_iff₀ hden, reaches]
  split
  · next hk =>
    rw [decide_eq_true_eq, ten_zpow_of_nonneg hk]
    norm_cast
  · next hk =>
    have hpos : (0 : ℚ) < (10 ^ (-k).toNat : Nat) := by positivity
    rw [decide_eq_true_eq, ten_zpow_of_nonpos (by omega), inv_mul_le_iff₀ hpos, mul_comm]
    norm_cast

/-- The first guess of the leading power of ten, from the difference of the binary logarithms. -/
def guess (l : Int) : Int := (l * 30103).fdiv 100000

/-- The power of ten below the guess is not above the power of two that is surely reached. -/
theorem ten_pow_guess_le {l : Int} (hleast : -1074 ≤ l) (hmost : l ≤ 1024) :
    (10 : ℚ) ^ (guess l - 1) ≤ 2 ^ (l - 1) := by
  have hall : ((List.range 2099).all fun j =>
      decide (10 ^ (guess (j - 1074) + 324).toNat * 2 ^ 1075 ≤ 2 ^ j * 10 ^ 325)) = true := by
    decide +kernel
  obtain ⟨j, hj⟩ := Int.eq_ofNat_of_zero_le (show 0 ≤ l + 1074 by omega)
  obtain rfl : l = j - 1074 := by omega
  have hle := of_decide_eq_true (List.all_eq_true.mp hall j (List.mem_range.mpr (by omega)))
  have hguess : ((guess (j - 1074) + 324).toNat : Int) = guess (j - 1074) - 1 + 325 := by
    have hfloor : guess (j - 1074) = (j - 1074) * 30103 / 100000 :=
      Int.fdiv_eq_ediv_of_nonneg _ (by norm_num)
    rw [hfloor]
    omega
  have hten : (10 : ℚ) ^ (guess (j - 1074) - 1) =
      10 ^ (guess (j - 1074) + 324).toNat / 10 ^ 325 := by
    rw [eq_div_iff (by norm_num), ← zpow_natCast, ← zpow_natCast, hguess, ← zpow_add₀ (by norm_num)]
    rfl
  have htwo : (2 : ℚ) ^ ((j : Int) - 1074 - 1) = 2 ^ j / 2 ^ 1075 := by
    have hsum : (j : Int) - 1074 - 1 + (1075 : Nat) = j := by omega
    rw [eq_div_iff (by norm_num), ← zpow_natCast, ← zpow_natCast, ← zpow_add₀ (by norm_num), hsum]
  rw [hten, htwo, div_le_div_iff₀ (by norm_num) (by norm_num)]
  exact_mod_cast hle

/-- The binary logarithm of the value, which may be one too large. -/
def logarithm (i : Interval) : Int := i.value.log2 - i.denominator.log2

theorem logarithm_bounds (hc : Canonical m e) :
    -1074 ≤ (ofBinary m e).logarithm ∧ (ofBinary m e).logarithm ≤ 1024 ∧
      (2 : ℚ) ^ ((ofBinary m e).logarithm - 1) ≤ m * 2 ^ e := by
  have hunit : (0 : ℚ) < 2 ^ e := by positivity
  have hden := denominator_pos m e
  have hden' : (0 : ℚ) < (ofBinary m e).denominator := by exact_mod_cast hden
  have hm : (1 : ℚ) ≤ m := by exact_mod_cast hc.pos
  have hvalue := value_div m e
  rw [div_eq_iff hden'.ne'] at hvalue
  have hpos : (0 : ℚ) < (ofBinary m e).value := by
    rw [hvalue]
    exact mul_pos (mul_pos (by linarith) hunit) hden'
  rw [logarithm]
  generalize (ofBinary m e).value = v at *
  generalize (ofBinary m e).denominator = d at *
  have hv : v ≠ 0 := by
    rintro rfl
    exact absurd hpos (by norm_num)
  have hlow : (2 : ℚ) ^ v.log2 ≤ v := by exact_mod_cast Nat.log2_self_le hv
  have hhigh : (v : ℚ) < 2 ^ (v.log2 + 1) := by exact_mod_cast Nat.lt_log2_self (n := v)
  have hlow' : (2 : ℚ) ^ d.log2 ≤ d := by exact_mod_cast Nat.log2_self_le hden.ne'
  have hhigh' : (d : ℚ) < 2 ^ (d.log2 + 1) := by exact_mod_cast Nat.lt_log2_self (n := d)
  have hge : (2 : ℚ) ^ ((v.log2 : Int) - d.log2 - 1) ≤ m * 2 ^ e := by
    have hsum : (v.log2 : Int) - d.log2 - 1 + (d.log2 + 1 : Nat) = v.log2 := by omega
    have hpower : (2 : ℚ) ^ ((v.log2 : Int) - d.log2 - 1) * 2 ^ (d.log2 + 1) = 2 ^ v.log2 := by
      rw [← zpow_natCast, ← zpow_natCast, ← zpow_add₀ (by norm_num), hsum]
    have hscale : (m : ℚ) * 2 ^ e * d ≤ m * 2 ^ e * 2 ^ (d.log2 + 1) :=
      mul_le_mul_of_nonneg_left hhigh'.le (by positivity)
    refine le_of_mul_le_mul_right ?_ (by positivity : (0 : ℚ) < 2 ^ (d.log2 + 1))
    linarith
  have hlt : (m : ℚ) * 2 ^ e < 2 ^ ((v.log2 : Int) - d.log2 + 1) := by
    have hsum : (v.log2 : Int) - d.log2 + 1 + d.log2 = (v.log2 + 1 : Nat) := by omega
    have hpower : (2 : ℚ) ^ ((v.log2 : Int) - d.log2 + 1) * 2 ^ d.log2 = 2 ^ (v.log2 + 1) := by
      rw [← zpow_natCast, ← zpow_natCast, ← zpow_add₀ (by norm_num), hsum]
    have hscale : (m : ℚ) * 2 ^ e * 2 ^ d.log2 ≤ m * 2 ^ e * d :=
      mul_le_mul_of_nonneg_left hlow' (by positivity)
    refine lt_of_mul_lt_mul_right ?_ (by positivity : (0 : ℚ) ≤ 2 ^ d.log2)
    linarith
  refine ⟨?_, ?_, hge⟩
  · have hleast : (2 : ℚ) ^ (-1074 : Int) ≤ m * 2 ^ e :=
      (zpow_le_zpow_right₀ (by norm_num) hc.least).trans (le_mul_of_one_le_left hunit.le hm)
    have hexp := exponent_lt hleast hlt
    omega
  · have hexp := exponent_lt hge ((around_self m e).lt hc)
    have hmost := hc.most
    omega

/-- The power of ten that is taken for the leading digit is not above the value. -/
theorem ten_pow_leading_le (hc : Canonical m e) :
    (10 : ℚ) ^ (ofBinary m e).leading ≤ m * 2 ^ e := by
  obtain ⟨hleast, hmost, hle⟩ := logarithm_bounds hc
  have hguess := (ten_pow_guess_le hleast hmost).trans hle
  show (10 : ℚ) ^ (if (ofBinary m e).reaches (guess (ofBinary m e).logarithm + 1) then
    guess (ofBinary m e).logarithm + 1
    else if (ofBinary m e).reaches (guess (ofBinary m e).logarithm) then
      guess (ofBinary m e).logarithm
    else guess (ofBinary m e).logarithm - 1) ≤ _
  split
  · next h => exact reaches_iff.mp h
  split
  · next h => exact reaches_iff.mp h
  · exact hguess

/-! ## The search -/

/-- The value is not below its lower neighbour on a grid, but below the next point. -/
theorem lower_le (m : Nat) (e k : Int) :
    (ofBinary m e).lower k * 10 ^ k ≤ (m : ℚ) * 2 ^ e ∧
      (m : ℚ) * 2 ^ e < ((ofBinary m e).lower k + 1) * 10 ^ k := by
  have hup : 0 < up k := by
    unfold up
    split
    · exact Nat.pow_pos (by norm_num)
    · exact Nat.one_pos
  have hden := denominator_pos m e
  have hstep : 0 < (ofBinary m e).denominator * up k := Nat.mul_pos hden hup
  have hfloor := Nat.div_mul_le_self ((ofBinary m e).value * down k)
    ((ofBinary m e).denominator * up k)
  have hnext := Nat.lt_mul_div_succ ((ofBinary m e).value * down k) hstep
  rw [← lower, mul_comm (ofBinary m e).denominator, ← mul_assoc,
    mul_mul_le_mul hden (down_pos k), up_div_down, value_div] at hfloor
  rw [← lower, mul_comm _ (_ + 1), mul_comm (ofBinary m e).denominator, ← mul_assoc, ← not_le,
    mul_mul_le_mul hden (down_pos k), up_div_down, value_div, not_le] at hnext
  refine ⟨hfloor, ?_⟩
  exact_mod_cast hnext

/-- Seventeen digits suffice. -/
theorem exists_nearest?_finest (tie : Tie) (hc : Canonical m e) :
    ∃ d, (ofBinary m e).nearest? tie ((ofBinary m e).leading - 16) = some d := by
  obtain ⟨hle, hlt⟩ := lower_le m e ((ofBinary m e).leading - 16)
  have hgrid : (10 : ℚ) ^ 16 * 10 ^ ((ofBinary m e).leading - 16) ≤ m * 2 ^ e := by
    rw [← zpow_natCast, ← zpow_add₀ (by norm_num), Nat.cast_ofNat, add_sub_cancel]
    exact ten_pow_leading_le hc
  refine exists_nearest? tie ?_
  rw [contains_iff hc.pos, contains_iff hc.pos]
  exact around_floor hc hgrid hle hlt

/-- The shortest decimal lies in the interval. -/
theorem around_shortest (tie : Tie) (hc : Canonical m e) :
    Around m e (((ofBinary m e).shortest tie).digits *
      10 ^ ((ofBinary m e).shortest tie).exponent) := by
  unfold shortest
  dsimp only
  split
  · next d hfound =>
    obtain ⟨k, _, hk⟩ := List.exists_of_findSome?_eq_some hfound
    exact (contains_iff hc.pos).mp (contains_of_nearest? hk)
  · next hnone =>
    obtain ⟨d, hd⟩ := exists_nearest?_finest tie hc
    have hlast := List.findSome?_eq_none_iff.mp hnone 17 (by simp)
    have hsum : (ofBinary m e).leading + 1 - (17 : Nat) = (ofBinary m e).leading - 16 := by omega
    rw [hsum, hd] at hlast
    cases hlast

end

end JsonFilter.Decimal.Interval
