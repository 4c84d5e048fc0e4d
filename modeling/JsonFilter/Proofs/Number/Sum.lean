import JsonFilter.Proofs.Number.Neighbours
import JsonFilter.Proofs.Number.Scientific

/-!
Sums of binary64 numbers. The arithmetic adds two numbers in a unit that divides both, which is
exact, and rounds the sum once, to the number that it is around.
-/

namespace JsonFilter.Binary

open Float.Model Float.Model.UnpackedFloat

variable {m : Nat} {e : Int}

/-! ## Rounding -/

/-- The value of a mantissa with a sign. -/
def value (sign : Sign) (m : Nat) (e : Int) : ℚ := (sign.apply m : Int) * 2 ^ e

theorem value_positive (m : Nat) (e : Int) : value .positive m e = m * 2 ^ e := rfl

theorem value_negative (m : Nat) (e : Int) : value .negative m e = -(m * 2 ^ e) := by
  show ((-(m : Int) : Int) : ℚ) * 2 ^ e = _
  push_cast
  ring

theorem Canonical.value_pos (hc : Canonical m e) : (0 : ℚ) < m * 2 ^ e :=
  mul_pos (by exact_mod_cast hc.pos) (by positivity)

theorem Canonical.mantissa_le (hc : Canonical m e) : (m : ℚ) ≤ 2 ^ 53 - 1 := by
  have hlt : (m : ℚ) + 1 ≤ 2 ^ 53 := by exact_mod_cast hc.lt
  linarith

theorem abs_value (s : Sign) (m : Nat) (e : Int) : |value s m e| = m * 2 ^ e := by
  have hpos : (0 : ℚ) ≤ m * 2 ^ e := by positivity
  cases s with
  | positive => rw [value_positive, abs_of_nonneg hpos]
  | negative => rw [value_negative, abs_neg, abs_of_nonneg hpos]

theorem value_ne_zero {s : Sign} (hc : Canonical m e) : value s m e ≠ 0 := by
  rw [← abs_ne_zero, abs_value]
  exact hc.value_pos.ne'

/-- A mantissa with its sign and exponent is determined by the value. -/
theorem value_inj {s t : Sign} {n : Nat} {d : Int} (hc : Canonical m e) (hd : Canonical n d)
    (h : value s m e = value t n d) : s = t ∧ m = n ∧ e = d := by
  have hm := hc.value_pos
  have hn := hd.value_pos
  cases s <;> cases t <;> simp only [value_positive, value_negative, neg_inj] at h
  · exact ⟨rfl, hc.eq_of_value_eq hd h⟩
  · linarith
  · linarith
  · exact ⟨rfl, hc.eq_of_value_eq hd h⟩

/-- A value and what it is rounded to. -/
inductive Rounds : ℚ → UnpackedFloat → Prop where
  | zero : Rounds 0 (.zero .positive)
  | positive {m : Nat} {e : Int} {v : ℚ} (hc : Canonical m e) (hv : Around m e v) :
      Rounds v (.finite .positive m e hc.pos)
  | negative {m : Nat} {e : Int} {v : ℚ} (hc : Canonical m e) (hv : Around m e (-v)) :
      Rounds v (.finite .negative m e hc.pos)

theorem Around.pos {v : ℚ} (h : Around m e v) (hm : 0 < m) : 0 < v := by
  have hone : (1 : ℚ) ≤ m := by exact_mod_cast hm
  have hbelow := below_le m e
  have hunit : (0 : ℚ) < 2 ^ e := by positivity
  exact (mul_pos (by linarith) hunit).trans_le h.1

namespace Rounds

variable {v : ℚ} {u : UnpackedFloat}

theorem of_pos (h : Rounds v u) (hpos : 0 < v) :
    ∃ m e, ∃ hc : Canonical m e, Around m e v ∧ u = .finite .positive m e hc.pos := by
  cases h with
  | zero => exact absurd hpos (lt_irrefl 0)
  | positive hc hv => exact ⟨_, _, hc, hv, rfl⟩
  | negative hc hv => linarith [hv.pos hc.pos]

theorem of_neg (h : Rounds v u) (hneg : v < 0) :
    ∃ m e, ∃ hc : Canonical m e, Around m e (-v) ∧ u = .finite .negative m e hc.pos := by
  cases h with
  | zero => exact absurd hneg (lt_irrefl 0)
  | positive hc hv => linarith [hv.pos hc.pos]
  | negative hc hv => exact ⟨_, _, hc, hv, rfl⟩

theorem of_zero (h : Rounds 0 u) : u = .zero .positive := by
  generalize hv : (0 : ℚ) = v at h
  cases h with
  | zero => rfl
  | positive hc hv' => linarith [hv'.pos hc.pos]
  | negative hc hv' => linarith [hv'.pos hc.pos]

/-- The value of a number is rounded to the number. -/
theorem of_value {sign : Sign} (hc : Canonical m e) (h : Rounds (value sign m e) u) :
    u = .finite sign m e hc.pos := by
  have hpos := hc.value_pos
  cases sign with
  | positive =>
    obtain ⟨m', e', hc', hv, rfl⟩ := h.of_pos hpos
    obtain ⟨rfl, rfl⟩ := hv.eq_of_canonical hc' hc
    rfl
  | negative =>
    rw [value_negative] at h
    obtain ⟨m', e', hc', hv, rfl⟩ := h.of_neg (neg_lt_zero.mpr hpos)
    rw [neg_neg] at hv
    obtain ⟨rfl, rfl⟩ := hv.eq_of_canonical hc' hc
    rfl

end Rounds

/-- What a whole multiple of a power of two is rounded to, as it is read off the bits. -/
theorem exists_unpack_round (sign : Sign) {n : Nat} {t : Int} (hn : 0 < n) (ht : -1074 ≤ t)
    (hmost : (n : ℚ) * 2 ^ t ≤ greatest) :
    ∃ m e, ∃ hc : Canonical m e, Around m e (n * 2 ^ t) ∧
      (Float.Model.pack (UnpackedFloat.round Format.binary64 sign n t)).unpack =
        .finite sign m e hc.pos := by
  have hone : (1 : ℚ) ≤ n := by exact_mod_cast hn
  have hleast : (2 : ℚ) ^ (-1074 : Int) ≤ n * 2 ^ t := by
    have hunit : (0 : ℚ) < 2 ^ t := by positivity
    have hpower : (2 : ℚ) ^ (-1074 : Int) ≤ 2 ^ t := zpow_le_zpow_right₀ (by norm_num) ht
    nlinarith
  obtain ⟨m, e, hc, hv⟩ := exists_around hleast hmost
  exact ⟨m, e, hc, hv, by rw [round_of_around sign hn hc hv, unpack_pack sign hc]⟩

/-- A whole multiple of a power of two, of either sign, is rounded correctly. -/
theorem rounds_normalize (s : Int) {t : Int} (ht : -1074 ≤ t)
    (hmost : |(s : ℚ) * 2 ^ t| ≤ greatest) :
    Rounds (s * 2 ^ t)
      (Float.Model.pack (UnpackedFloat.normalize Format.binary64 s t .positive)).unpack := by
  rcases lt_trichotomy s 0 with hs | rfl | hs
  · obtain ⟨n, rfl⟩ : ∃ n : Nat, s = -n := ⟨(-s).toNat, by omega⟩
    have hn : 0 < n := by omega
    have hnat : (-(-n : Int)).toNat = n := by omega
    have hcompare : compare (-n : Int) 0 = .lt := Int.compare_eq_lt.mpr hs
    have hvalue : ((-n : Int) : ℚ) * 2 ^ t = -(n * 2 ^ t) := by
      push_cast
      ring
    rw [hvalue, abs_neg] at hmost
    obtain ⟨m, e, hc, hv, hunpack⟩ :=
      exists_unpack_round .negative hn ht ((le_abs_self _).trans hmost)
    rw [UnpackedFloat.normalize, hcompare]
    show Rounds _ (Float.Model.pack
      (UnpackedFloat.round Format.binary64 .negative (-(-n : Int)).toNat t)).unpack
    rw [hnat, hunpack, hvalue]
    exact .negative hc (by rwa [neg_neg])
  · have hzero : UnpackedFloat.normalize Format.binary64 0 t .positive = .zero .positive := rfl
    rw [Int.cast_zero, zero_mul, hzero]
    exact .zero
  · obtain ⟨n, rfl⟩ := Int.eq_ofNat_of_zero_le hs.le
    have hn : 0 < n := by omega
    have hcompare : compare (n : Int) 0 = .gt := Int.compare_eq_gt.mpr hs
    rw [Int.cast_natCast] at hmost ⊢
    obtain ⟨m, e, hc, hv, hunpack⟩ :=
      exists_unpack_round .positive hn ht ((le_abs_self _).trans hmost)
    rw [UnpackedFloat.normalize, hcompare]
    show Rounds _ (Float.Model.pack (UnpackedFloat.round Format.binary64 .positive n t)).unpack
    rw [hunpack]
    exact .positive hc hv

/-! ## Sums -/

theorem apply_mul (sign : Sign) (a b : Nat) :
    sign.apply (a * b : Nat) = sign.apply (a : Int) * b := by
  cases sign with
  | positive => exact Int.natCast_mul a b
  | negative =>
    show -((a * b : Nat) : Int) = -(a : Int) * b
    rw [Int.natCast_mul, Int.neg_mul]

/-- A value in smaller units. -/
theorem value_eq_of_le (sign : Sign) (m : Nat) {t : Int} (ht : t ≤ e) :
    value sign m e = (sign.apply (m * 2 ^ (e - t).toNat : Nat) : Int) * 2 ^ t := by
  have he : e = t + (e - t).toNat := by omega
  have hunit : (2 : ℚ) ^ e = 2 ^ (e - t).toNat * 2 ^ t := by
    conv_lhs => rw [he, zpow_add₀ (by norm_num), zpow_natCast]
    ring
  rw [value, hunit, apply_mul]
  push_cast
  ring

section
variable {s₁ s₂ : Sign} {m₁ m₂ : Nat} {e₁ e₂ : Int}

/-- The sum of two finite numbers, in a unit that divides both. -/
theorem add_eq (h₁ : 0 < m₁) (h₂ : 0 < m₂) :
    UnpackedFloat.add Format.binary64 (.finite s₁ m₁ e₁ h₁) (.finite s₂ m₂ e₂ h₂) =
      UnpackedFloat.normalize Format.binary64
        (s₁.apply (m₁ * 2 ^ (e₁ - min e₁ e₂).toNat : Nat) +
          s₂.apply (m₂ * 2 ^ (e₂ - min e₁ e₂).toNat : Nat))
        (min e₁ e₂) .positive := by
  rw [← Nat.shiftLeft_eq, ← Nat.shiftLeft_eq]
  rfl

/-- The sum of two finite numbers is rounded correctly. -/
theorem rounds_add (h₁ : Canonical m₁ e₁) (h₂ : Canonical m₂ e₂)
    (hmost : |value s₁ m₁ e₁ + value s₂ m₂ e₂| ≤ greatest) :
    Rounds (value s₁ m₁ e₁ + value s₂ m₂ e₂)
      (Float.Model.pack (UnpackedFloat.add Format.binary64 (.finite s₁ m₁ e₁ h₁.pos)
        (.finite s₂ m₂ e₂ h₂.pos))).unpack := by
  have hleast : -1074 ≤ min e₁ e₂ := le_min h₁.least h₂.least
  have hsum : value s₁ m₁ e₁ + value s₂ m₂ e₂ =
      ((s₁.apply (m₁ * 2 ^ (e₁ - min e₁ e₂).toNat : Nat) +
        s₂.apply (m₂ * 2 ^ (e₂ - min e₁ e₂).toNat : Nat) : Int) : ℚ) * 2 ^ min e₁ e₂ := by
    rw [value_eq_of_le s₁ m₁ (min_le_left e₁ e₂), value_eq_of_le s₂ m₂ (min_le_right e₁ e₂),
      Int.cast_add, add_mul]
  rw [hsum] at hmost ⊢
  rw [add_eq]
  exact rounds_normalize _ hleast hmost

end

end JsonFilter.Binary
