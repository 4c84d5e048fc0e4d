import JsonFilter.Proofs.Number.Rounding
import Mathlib

/-!
Decimals as binary64 numbers. Of a decimal that lies around a number, the arithmetic gives that
number: by a product or a quotient of exact integers that is rounded once. Short decimals take a
quicker way, where both integers are binary64 numbers themselves.

The import is of all of Mathlib, as none of its modules alone brings the lemmas on the bits of a
`Float`.
-/

namespace JsonFilter.Binary

open Float.Model Float.Model.UnpackedFloat

section
variable {m : Nat} {e : Int}

/-! ## Packing -/

section
variable {spec : Format} {b : BitVec spec.numBits} {sign : Sign}

theorem unpack_of_normal (hinf : unpackExponent b ≠ -BitVec.ofNat spec.exponentBits 1)
    (hsub : unpackExponent b ≠ BitVec.ofNat spec.exponentBits 0)
    (hsign : Sign.ofBitVec (unpackSign b) = sign) (hm : (1#1 ++ unpackMantissa b).toNat = m)
    (he : ((unpackExponent b).toNat : Int) -
      (spec.exponentBias + spec.mantissaBitsWithoutImplicit) = e) (hpos : 0 < m) :
    UnpackedFloat.unpack spec b = .finite sign m e hpos := by
  subst hsign hm he
  rw [UnpackedFloat.unpack.eq_1, if_neg hinf, if_neg hsub]

theorem unpack_of_subnormal (hinf : unpackExponent b ≠ -BitVec.ofNat spec.exponentBits 1)
    (hsub : unpackExponent b = BitVec.ofNat spec.exponentBits 0)
    (hsign : Sign.ofBitVec (unpackSign b) = sign) (hm : (unpackMantissa b).toNat = m)
    (he : ((unpackExponent b).toNat : Int) -
      (spec.exponentBias + spec.mantissaBitsWithoutImplicit) + 1 = e) (hpos : 0 < m) :
    UnpackedFloat.unpack spec b = .finite sign m e hpos := by
  subst hsign hm he
  have hne : unpackMantissa b ≠ BitVec.ofNat spec.mantissaBitsWithoutImplicit 0 := by
    intro h
    rw [h] at hpos
    exact absurd hpos (by simp)
  rw [UnpackedFloat.unpack.eq_1, if_neg hinf, if_pos hsub, dif_neg hne]

end

theorem toNat_one_append {w : Nat} (x : BitVec w) : (1#1 ++ x).toNat = 2 ^ w + x.toNat := by
  rw [BitVec.toNat_append, ← Nat.shiftLeft_add_eq_or_of_lt x.isLt, Nat.shiftLeft_eq,
    BitVec.toNat_ofNat]
  norm_num

theorem ofNat_ne {w a b : Nat} (ha : a < 2 ^ w) (hb : b < 2 ^ w) (h : a ≠ b) :
    BitVec.ofNat w a ≠ BitVec.ofNat w b := by
  intro heq
  have hnat := congrArg BitVec.toNat heq
  rw [BitVec.toNat_ofNat, BitVec.toNat_ofNat, Nat.mod_eq_of_lt ha, Nat.mod_eq_of_lt hb] at hnat
  exact h hnat

theorem unpack_pack_normal (sign : Sign) (hc : Canonical m e) (hm : 2 ^ 52 ≤ m) :
    (Float.Model.pack (.finite sign m e hc.pos)).unpack = .finite sign m e hc.pos := by
  have hlog : m.log2 + 1 = 53 := by rw [(Nat.log2_eq_iff hc.pos.ne').mpr ⟨hm, hc.lt⟩]
  have hlow := hc.least
  have hhigh := hc.most
  have hlt := hc.lt
  obtain ⟨b, hb⟩ : ∃ b : Nat, e + 1023 + 52 = b := Int.eq_ofNat_of_zero_le (by omega)
  have hpack : UnpackedFloat.pack Format.binary64 (.finite sign m e hc.pos) =
      packComponents Format.binary64 sign (BitVec.ofNat 11 b) (BitVec.ofNat 52 m) := by
    show (if 2 ^ 11 ≤ (e + 1023 + 52).toNat + 1 then _ else if m.log2 + 1 = 53 then
      packComponents Format.binary64 sign (BitVec.ofNat 11 (e + 1023 + 52).toNat) _ else _) = _
    rw [hb, Int.toNat_natCast, if_neg (by omega), if_pos hlog]
  have hmantissa : (BitVec.ofNat 52 m).toNat = m - 2 ^ 52 := by
    rw [BitVec.toNat_ofNat, Nat.mod_eq_sub_mod hm, Nat.mod_eq_of_lt (by omega)]
  show UnpackedFloat.unpack Format.binary64 (UnpackedFloat.pack Format.binary64 _) = _
  rw [hpack]
  refine unpack_of_normal ?_ ?_ ?_ ?_ ?_ hc.pos
  · rw [unpackExponent_packComponents]
    exact ofNat_ne (b := 2047) (by omega) (by norm_num) (by omega)
  · rw [unpackExponent_packComponents]
    exact ofNat_ne (b := 0) (by omega) (by norm_num) (by omega)
  · rw [unpackSign_packComponents, Sign.ofBitVec_toBitVec]
  · rw [unpackMantissa_packComponents, toNat_one_append, hmantissa]
    show 2 ^ 52 + _ = _
    omega
  · rw [unpackExponent_packComponents, BitVec.toNat_ofNat,
      Nat.mod_eq_of_lt (show b < 2 ^ 11 by omega)]
    show (b : Int) - (1023 + 52) = e
    omega

theorem unpack_pack_subnormal (sign : Sign) (hpos : 0 < m) (hm : m < 2 ^ 52) :
    (Float.Model.pack (.finite sign m (-1074) hpos)).unpack = .finite sign m (-1074) hpos := by
  have hlog : ¬m.log2 + 1 = Format.binary64.mantissaBits := by
    have hlt := (Nat.log2_lt hpos.ne').mpr hm
    show ¬m.log2 + 1 = 53
    omega
  have hpack : UnpackedFloat.pack Format.binary64 (.finite sign m (-1074) hpos) =
      packComponents Format.binary64 sign (BitVec.ofNat 11 0) (BitVec.ofNat 52 m) := by
    rw [UnpackedFloat.pack, if_neg (by decide), if_neg hlog]
  show UnpackedFloat.unpack Format.binary64 (UnpackedFloat.pack Format.binary64 _) = _
  rw [hpack]
  refine unpack_of_subnormal ?_ ?_ ?_ ?_ ?_ hpos
  · rw [unpackExponent_packComponents]
    exact ofNat_ne (b := 2047) (by norm_num) (by norm_num) (by norm_num)
  · rw [unpackExponent_packComponents]
  · rw [unpackSign_packComponents, Sign.ofBitVec_toBitVec]
  · rw [unpackMantissa_packComponents, BitVec.toNat_ofNat, Nat.mod_eq_of_lt hm]
  · rw [unpackExponent_packComponents]
    rfl

/-- Packing keeps every binary64 number. -/
theorem unpack_pack (sign : Sign) (hc : Canonical m e) :
    (Float.Model.pack (.finite sign m e hc.pos)).unpack = .finite sign m e hc.pos := by
  by_cases hm : 2 ^ 52 ≤ m
  · exact unpack_pack_normal sign hc hm
  · obtain rfl : e = -1074 := by
      by_contra he
      exact hm (hc.normal he)
    exact unpack_pack_subnormal sign hc.pos (not_le.mp hm)

/-! ## Products and quotients -/

/-- A product of large mantissas is rounded correctly. -/
theorem mul_of_around {m₁ m₂ : Nat} {e₁ e₂ : Int} (h₁ : 0 < m₁) (h₂ : 0 < m₂)
    (hc : Canonical m e) (hlarge : 2 ^ 52 ≤ m₁ * m₂)
    (hv : Around m e ((m₁ : ℚ) * 2 ^ e₁ * (m₂ * 2 ^ e₂))) :
    UnpackedFloat.mul Format.binary64 (.finite .positive m₁ e₁ h₁) (.finite .positive m₂ e₂ h₂) =
      .finite .positive m e hc.pos := by
  have hvalue : (m₁ : ℚ) * 2 ^ e₁ * (m₂ * 2 ^ e₂) = (m₁ * m₂ : Nat) * 2 ^ (e₁ + e₂) := by
    rw [zpow_add₀ (by norm_num)]
    push_cast
    ring
  have hlog : 52 ≤ (m₁ * m₂).log2 := (Nat.le_log2 (Nat.mul_pos h₁ h₂).ne').mpr hlarge
  have htarget : e₁ + e₂ ≤ target (m₁ * m₂) (e₁ + e₂) := by
    rw [target]
    omega
  rw [hvalue] at hv
  exact roundWithAccuracy_of_around .positive hc (standsFor_exact _) hv htarget

/-- The exponent that a quotient is computed at. -/
def quotientExponent (m₁ : Nat) (e₁ : Int) (m₂ : Nat) (e₂ : Int) : Int :=
  min (e₁ - e₂) (max (m₁.log2 + e₁ - (m₂.log2 + e₂) - 53) (-1074))

theorem divCore_eq (m₁ : Nat) (e₁ : Int) (m₂ : Nat) (e₂ : Int) :
    divCore Format.binary64 m₁ e₁ m₂ e₂ =
      (m₁ * 2 ^ (e₁ - e₂ - quotientExponent m₁ e₁ m₂ e₂).toNat / m₂, quotientExponent m₁ e₁ m₂ e₂,
        accuracyOfFraction (m₁ * 2 ^ (e₁ - e₂ - quotientExponent m₁ e₁ m₂ e₂).toNat % m₂) m₂) := by
  have hmin : Format.binary64.minExponent = -1074 := by decide
  have hbits : (Format.binary64.mantissaBits : Int) = 53 := by decide
  have htotal : totalExponent m₁ e₁ - totalExponent m₂ e₂ = m₁.log2 + e₁ - (m₂.log2 + e₂) := by
    rw [totalExponent, totalExponent]
    omega
  have ht : min (e₁ - e₂) (Format.binary64.targetExponent
      (totalExponent m₁ e₁ - totalExponent m₂ e₂)) = quotientExponent m₁ e₁ m₂ e₂ := by
    rw [Format.targetExponent, hmin, hbits, htotal, quotientExponent]
  rw [← ht, ← Nat.shiftLeft_eq]
  rfl

/-- The integer part of a quotient has all the bits that its rounding looks at. -/
theorem quotientExponent_le_target {m₁ m₂ : Nat} {e₁ e₂ : Int} (h₁ : 0 < m₁) (h₂ : 0 < m₂) :
    quotientExponent m₁ e₁ m₂ e₂ ≤
      target (m₁ * 2 ^ (e₁ - e₂ - quotientExponent m₁ e₁ m₂ e₂).toNat / m₂)
        (quotientExponent m₁ e₁ m₂ e₂) := by
  by_cases hleast : quotientExponent m₁ e₁ m₂ e₂ ≤ -1074
  · rw [target]
    omega
  · have hbits : m₂.log2 + 1 + 52 ≤ m₁.log2 + (e₁ - e₂ - quotientExponent m₁ e₁ m₂ e₂).toNat := by
      rw [quotientExponent] at hleast ⊢
      omega
    have hle : 2 ^ 52 ≤ m₁ * 2 ^ (e₁ - e₂ - quotientExponent m₁ e₁ m₂ e₂).toNat / m₂ := by
      rw [Nat.le_div_iff_mul_le h₂]
      calc 2 ^ 52 * m₂
          ≤ 2 ^ 52 * 2 ^ (m₂.log2 + 1) := Nat.mul_le_mul_left _ Nat.lt_log2_self.le
        _ = 2 ^ (m₂.log2 + 1 + 52) := by rw [← pow_add, add_comm]
        _ ≤ 2 ^ (m₁.log2 + (e₁ - e₂ - quotientExponent m₁ e₁ m₂ e₂).toNat) :=
          Nat.pow_le_pow_right (by norm_num) hbits
        _ = 2 ^ m₁.log2 * 2 ^ (e₁ - e₂ - quotientExponent m₁ e₁ m₂ e₂).toNat := pow_add ..
        _ ≤ _ := Nat.mul_le_mul_right _ (Nat.log2_self_le h₁.ne')
    have hlog := (Nat.le_log2 (Nat.ne_of_gt (Nat.lt_of_lt_of_le (by norm_num) hle))).mpr hle
    rw [target]
    omega

theorem div_of_around {m₁ m₂ : Nat} {e₁ e₂ : Int} (h₁ : 0 < m₁) (h₂ : 0 < m₂)
    (hc : Canonical m e) (hv : Around m e ((m₁ : ℚ) * 2 ^ e₁ / (m₂ * 2 ^ e₂))) :
    UnpackedFloat.div Format.binary64 (.finite .positive m₁ e₁ h₁) (.finite .positive m₂ e₂ h₂) =
      .finite .positive m e hc.pos := by
  have hshift : ((e₁ - e₂ - quotientExponent m₁ e₁ m₂ e₂).toNat : Int) =
      e₁ - e₂ - quotientExponent m₁ e₁ m₂ e₂ := by
    rw [quotientExponent]
    omega
  have hquotient := standsFor_div (m₁ * 2 ^ (e₁ - e₂ - quotientExponent m₁ e₁ m₂ e₂).toNat) h₂
  have hvalue : (m₁ : ℚ) * 2 ^ e₁ / (m₂ * 2 ^ e₂) =
      ((m₁ * 2 ^ (e₁ - e₂ - quotientExponent m₁ e₁ m₂ e₂).toNat : Nat) : ℚ) / m₂ *
        2 ^ quotientExponent m₁ e₁ m₂ e₂ := by
    have hpower : (2 : ℚ) ^ (e₁ - e₂ - quotientExponent m₁ e₁ m₂ e₂).toNat *
        2 ^ quotientExponent m₁ e₁ m₂ e₂ = 2 ^ e₁ / 2 ^ e₂ := by
      rw [← zpow_natCast, hshift, ← zpow_add₀ (by norm_num), sub_add_cancel,
        zpow_sub₀ (by norm_num)]
    push_cast
    rw [div_mul_eq_mul_div, mul_assoc, hpower, mul_div_assoc', div_div, mul_comm (2 ^ e₂ : ℚ)]
  rw [hvalue] at hv
  have hdiv : UnpackedFloat.div Format.binary64 (.finite .positive m₁ e₁ h₁)
      (.finite .positive m₂ e₂ h₂) = roundWithAccuracy Format.binary64 .positive
        (divCore Format.binary64 m₁ e₁ m₂ e₂).1 (divCore Format.binary64 m₁ e₁ m₂ e₂).2.1
        (divCore Format.binary64 m₁ e₁ m₂ e₂).2.2 := rfl
  rw [hdiv, divCore_eq]
  exact roundWithAccuracy_of_around .positive hc hquotient hv (quotientExponent_le_target h₁ h₂)

/-! ## Integers -/

theorem log2_mul_two_pow {n : Nat} (hn : n ≠ 0) (k : Nat) : (n * 2 ^ k).log2 = n.log2 + k := by
  have hprod : n * 2 ^ k ≠ 0 := Nat.mul_ne_zero hn (Nat.two_pow_pos k).ne'
  refine (Nat.log2_eq_iff hprod).mpr ⟨?_, ?_⟩
  · rw [pow_add]
    exact Nat.mul_le_mul_right _ (Nat.log2_self_le hn)
  · rw [add_right_comm, pow_add]
    exact Nat.mul_lt_mul_of_pos_right Nat.lt_log2_self (Nat.two_pow_pos k)

/-- A whole multiple of a power of two is rounded to the number that it is around. -/
theorem round_of_around (sign : Sign) {n : Nat} {t : Int} (hn : 0 < n) (hc : Canonical m e)
    (hv : Around m e (n * 2 ^ t)) :
    UnpackedFloat.round Format.binary64 sign n t = .finite sign m e hc.pos := by
  have hround : UnpackedFloat.round Format.binary64 sign n t =
      roundWithAccuracy Format.binary64 sign
        (n <<< (t - Format.binary64.targetExponent (totalExponent n t)).toNat)
        (t - (t - Format.binary64.targetExponent (totalExponent n t)).toNat) .exact := rfl
  rw [hround, targetExponent_eq, Nat.shiftLeft_eq]
  generalize hshift : (t - target n t).toNat = k
  have hvalue : ((n * 2 ^ k : Nat) : ℚ) * 2 ^ (t - k) = n * 2 ^ t := by
    push_cast
    rw [mul_assoc, two_pow_mul_zpow, add_sub_cancel]
  refine roundWithAccuracy_of_around sign hc (standsFor_exact _) (hvalue.symm ▸ hv) ?_
  rw [target, log2_mul_two_pow hn.ne']
  rw [target] at hshift
  omega

/-- The float is the positive number `q`, with all bits of its mantissa. -/
def IsExactly (f : Float) (q : ℚ) : Prop :=
  ∃ m e, ∃ hc : Canonical m e, f.toModel.unpack = .finite .positive m e hc.pos ∧ 2 ^ 52 ≤ m ∧
    (m : ℚ) * 2 ^ e = q

/-- Integers of at most 53 bits and a power of two are binary64 numbers. -/
theorem canonical_scaled {a k : Nat} (ha : 0 < a) (hlt : a < 2 ^ 53) (hk : k ≤ 900) :
    Canonical (a * 2 ^ (52 - a.log2)) (k - (52 - a.log2 : Nat)) ∧
      2 ^ 52 ≤ a * 2 ^ (52 - a.log2) ∧
      ((a * 2 ^ (52 - a.log2) : Nat) : ℚ) * 2 ^ (k - (52 - a.log2 : Nat) : Int) =
        (a * 2 ^ k : Nat) := by
  have hlog : a.log2 ≤ 52 := Nat.lt_succ_iff.mp ((Nat.log2_lt ha.ne').mpr hlt)
  have hsum : a.log2 + (52 - a.log2) = 52 := by omega
  have hlarge : 2 ^ 52 ≤ a * 2 ^ (52 - a.log2) := by
    calc 2 ^ 52 = 2 ^ a.log2 * 2 ^ (52 - a.log2) := by rw [← pow_add, hsum]
      _ ≤ _ := Nat.mul_le_mul_right _ (Nat.log2_self_le ha.ne')
  have hsmall : a * 2 ^ (52 - a.log2) < 2 ^ 53 := by
    calc a * 2 ^ (52 - a.log2)
        < 2 ^ (a.log2 + 1) * 2 ^ (52 - a.log2) :=
          Nat.mul_lt_mul_of_pos_right Nat.lt_log2_self (Nat.two_pow_pos _)
      _ = 2 ^ 53 := by rw [← pow_add, Nat.add_right_comm, hsum]
  refine ⟨⟨Nat.mul_pos ha (Nat.two_pow_pos _), hsmall, by omega, by omega, fun _ => hlarge⟩,
    hlarge, ?_⟩
  push_cast
  rw [mul_assoc, two_pow_mul_zpow, add_sub_cancel, zpow_natCast]

theorem isExactly_pack {f : Float} {a k : Nat} (ha : 0 < a) (hlt : a < 2 ^ 53) (hk : k ≤ 900)
    (hf : f.toModel =
      Float.Model.pack (UnpackedFloat.round Format.binary64 .positive (a * 2 ^ k) 0)) :
    IsExactly f (a * 2 ^ k : Nat) := by
  obtain ⟨hc, hlarge, hvalue⟩ := canonical_scaled ha hlt hk
  have hround := round_of_around .positive (Nat.mul_pos ha (Nat.two_pow_pos k)) hc (by
    rw [zpow_zero, mul_one, ← hvalue]
    exact around_self _ _)
  refine ⟨_, _, hc, ?_, hlarge, hvalue⟩
  rw [hf, hround, unpack_pack .positive hc]

/-- The table of powers of ten holds what is rounded from them. -/
theorem toBits_power : ∀ i : Fin Float.exactlyRepresentablePowersOfTen.size,
    Float.exactlyRepresentablePowersOfTen[i].toBits =
      (Float.Model.pack
        (UnpackedFloat.round Format.binary64 .positive (5 ^ i.val * 2 ^ i.val) 0)).toBits := by
  decide +kernel

/-- The table of powers of ten is exact. -/
theorem isExactly_power {i : Nat} (hi : i < Float.exactlyRepresentablePowersOfTen.size) :
    IsExactly Float.exactlyRepresentablePowersOfTen[i] (10 ^ i : Nat) := by
  have hten : 10 ^ i = 5 ^ i * 2 ^ i := mul_pow 5 2 i
  have hi' : i ≤ 22 := Nat.lt_succ_iff.mp hi
  have hfive : 5 ^ i < 2 ^ 53 :=
    Nat.lt_of_le_of_lt (Nat.pow_le_pow_right (by norm_num) hi') (by norm_num)
  rw [hten]
  refine isExactly_pack (Nat.pos_of_neZero _) hfive (by omega) ?_
  exact congrArg Float.toModel (Float.toBits_inj.mp (toBits_power ⟨i, hi⟩))

theorem toFloat_toUInt64 {n : Nat} (hn : 0 < n) (hlt : n < 2 ^ 53) : n.toUInt64.toFloat.toModel =
    Float.Model.pack (UnpackedFloat.round Format.binary64 .positive n 0) := by
  have hwhole : n.toUInt64.toNat = n := by
    rw [Nat.toUInt64, UInt64.toNat_ofNat', Nat.mod_eq_of_lt (by omega)]
  have hcompare : compare (n : Int) 0 = .gt := compare_gt_iff_gt.mpr (by exact_mod_cast hn)
  show Float.Model.pack
    (UnpackedFloat.normalize Format.binary64 (n.toUInt64.toNat : Int) 0 .positive) = _
  rw [hwhole, UnpackedFloat.normalize, hcompare]
  rfl

theorem isExactly_ofNat {n : Nat} (hn : 0 < n) (hlt : n < 2 ^ 53) :
    IsExactly n.toUInt64.toFloat n := by
  have hround := toFloat_toUInt64 hn hlt
  rw [← mul_one n, ← pow_zero 2] at hround
  have hexact := isExactly_pack hn hlt (by norm_num) hround
  rwa [pow_zero, mul_one] at hexact

section
variable {f g : Float} {p q : ℚ}

theorem IsExactly.mul (hf : IsExactly f p) (hg : IsExactly g q) (hc : Canonical m e)
    (hv : Around m e (p * q)) : f * g = ⟨Float.Model.pack (.finite .positive m e hc.pos)⟩ := by
  obtain ⟨m₁, e₁, hc₁, hf, hlarge, rfl⟩ := hf
  obtain ⟨m₂, e₂, hc₂, hg, _, rfl⟩ := hg
  have hle : 2 ^ 52 ≤ m₁ * m₂ := hlarge.trans (Nat.le_mul_of_pos_right m₁ hc₂.pos)
  show Float.ofModel (Float.Model.pack
    (UnpackedFloat.mul Format.binary64 f.toModel.unpack g.toModel.unpack)) = _
  rw [hf, hg, mul_of_around hc₁.pos hc₂.pos hc hle hv]

theorem IsExactly.div (hf : IsExactly f p) (hg : IsExactly g q) (hc : Canonical m e)
    (hv : Around m e (p / q)) : f / g = ⟨Float.Model.pack (.finite .positive m e hc.pos)⟩ := by
  obtain ⟨m₁, e₁, hc₁, hf, _, rfl⟩ := hf
  obtain ⟨m₂, e₂, hc₂, hg, _, rfl⟩ := hg
  show Float.ofModel (Float.Model.pack
    (UnpackedFloat.div Format.binary64 f.toModel.unpack g.toModel.unpack)) = _
  rw [hf, hg, div_of_around hc₁.pos hc₂.pos hc hv]

end

/-! ## Decimals -/

section
variable {n : Nat} {k : Int}

theorem pos_of_around (hc : Canonical m e) (hv : Around m e (n * 10 ^ k)) : 0 < n := by
  have hone : (1 : ℚ) ≤ m := by exact_mod_cast hc.pos
  have hbelow := below_le m e
  have hlow : 0 < (m - below m e) * 2 ^ e := mul_pos (by linarith) (by positivity)
  rw [Nat.pos_iff_ne_zero]
  rintro rfl
  rw [Nat.cast_zero, zero_mul] at hv
  exact absurd hv.1 hlow.not_ge

theorem two_zpow_le_ten_zpow (hk : 0 ≤ k) : (2 : ℚ) ^ k ≤ 10 ^ k :=
  zpow_le_zpow_left₀ hk (by norm_num) (by norm_num)

theorem ten_zpow_le_two_zpow (hk : k ≤ 0) : (10 : ℚ) ^ k ≤ 2 ^ k := by
  obtain ⟨j, rfl⟩ : ∃ j : Nat, k = -j := ⟨(-k).toNat, by omega⟩
  rw [zpow_neg, zpow_neg, zpow_natCast, zpow_natCast]
  exact inv_anti₀ (by positivity) (pow_le_pow_left₀ (by norm_num) (by norm_num) j)

/-- The power of ten of a decimal around a number is not extremely large. -/
theorem exponent_le_of_around (hc : Canonical m e) (hv : Around m e (n * 10 ^ k)) : k ≤ 1024 := by
  by_contra hlarge
  have hn : (1 : ℚ) ≤ n := by exact_mod_cast pos_of_around hc hv
  have hpower : (2 : ℚ) ^ k ≤ n * 10 ^ k :=
    (two_zpow_le_ten_zpow (by omega)).trans (le_mul_of_one_le_left (by positivity) hn)
  have hexp := exponent_lt hpower (hv.lt hc)
  have hmost := hc.most
  omega

/-- No value around a number is below half of the least number. -/
theorem Around.least_le {v : ℚ} (hc : Canonical m e) (hv : Around m e v) :
    2 ^ (-1075 : Int) ≤ v := by
  have hone : (1 : ℚ) ≤ m := by exact_mod_cast hc.pos
  have hbelow := below_le m e
  have hunit : (2 : ℚ) ^ (-1074 : Int) ≤ 2 ^ e := zpow_le_zpow_right₀ (by norm_num) hc.least
  have hhalf : (2 : ℚ) ^ (-1075 : Int) = 1 / 2 * 2 ^ (-1074 : Int) := by
    rw [one_div, ← zpow_neg_one, ← zpow_add₀ (by norm_num)]
    rfl
  rw [hhalf]
  refine le_trans ?_ hv.1
  exact mul_le_mul (by linarith) hunit (by positivity) (by linarith)

/-- The power of ten of a decimal around a number is not extremely small. -/
theorem le_exponent_of_around (hc : Canonical m e) (hv : Around m e (n * 10 ^ k)) :
    -(1076 + n.log2 : Int) ≤ k := by
  by_contra hsmall
  have hhigh : (n : ℚ) * 10 ^ k < 2 ^ (n.log2 + 1 + k : Int) := by
    have hn : (n : ℚ) < 2 ^ (n.log2 + 1 : Int) := by exact_mod_cast Nat.lt_log2_self (n := n)
    rw [zpow_add₀ (by norm_num) _ k]
    exact mul_lt_mul hn (ten_zpow_le_two_zpow (by omega)) (by positivity) (by positivity)
  have hexp := exponent_lt (hv.least_le hc) hhigh
  omega

theorem ten_zpow_of_nonneg (hk : 0 ≤ k) : (10 : ℚ) ^ k = (10 ^ k.toNat : Nat) := by
  obtain ⟨j, rfl⟩ := Int.eq_ofNat_of_zero_le hk
  rw [Int.toNat_natCast, zpow_natCast, Nat.cast_pow]
  rfl

theorem ten_zpow_of_nonpos (hk : k ≤ 0) : (10 : ℚ) ^ k = ((10 ^ (-k).toNat : Nat) : ℚ)⁻¹ := by
  rw [← ten_zpow_of_nonneg (by omega), zpow_neg, inv_inv]

theorem model_ofScientific (hc : Canonical m e) (hv : Around m e (n * 10 ^ k)) :
    UnpackedFloat.ofScientific Format.binary64 n k = .finite .positive m e hc.pos := by
  have hn := pos_of_around hc hv
  have hmost := exponent_le_of_around hc hv
  have hleast := le_exponent_of_around hc hv
  have hlarge : ¬k > 2 ^ Format.binary64.exponentBits := by
    show ¬k > 2 ^ 11
    omega
  have hsmall : ¬k < -(2 ^ Format.binary64.exponentBits + n.log2) := by
    show ¬k < -(2 ^ 11 + (n.log2 : Int))
    omega
  rw [UnpackedFloat.ofScientific, dif_neg hn.ne', if_neg hlarge, if_neg hsmall]
  split
  · next hk =>
    have hbits : Format.binary64.mantissaBits = 53 := rfl
    have hshift : ((n <<< Format.binary64.mantissaBits : Nat) : ℚ) *
        2 ^ (-Format.binary64.mantissaBits : Int) = n := by
      rw [hbits, Nat.shiftLeft_eq, Nat.cast_mul, Nat.cast_pow, zpow_neg, zpow_natCast,
        Nat.cast_ofNat, mul_inv_cancel_right₀ (by norm_num)]
    refine mul_of_around _ _ hc ?_ ?_
    · rw [hbits, Nat.shiftLeft_eq, mul_assoc, mul_left_comm]
      calc 2 ^ 52 ≤ 2 ^ 53 := by norm_num
        _ ≤ _ := Nat.le_mul_of_pos_right _ (Nat.mul_pos hn (Nat.pos_of_neZero _))
    · rw [hshift, zpow_zero, mul_one, ← ten_zpow_of_nonneg hk]
      exact hv
  · next hk =>
    refine div_of_around _ _ hc ?_
    rw [zpow_zero, mul_one, mul_one, div_eq_mul_inv, ← ten_zpow_of_nonpos (by omega)]
    exact hv

/-- A decimal around a number denotes that number. -/
theorem ofScientific_of_around (hc : Canonical m e) (hv : Around m e (n * 10 ^ k)) :
    Float.ofScientific n (decide (k < 0)) k.natAbs =
      ⟨Float.Model.pack (.finite .positive m e hc.pos)⟩ := by
  rw [Float.ofScientific]
  split
  · next hshort =>
    have hn := isExactly_ofNat (pos_of_around hc hv) hshort.1
    have hpower := isExactly_power (Nat.lt_succ_of_le hshort.2)
    by_cases hneg : k < 0
    · have habs : k.natAbs = (-k).toNat := by omega
      rw [ten_zpow_of_nonpos hneg.le, ← habs, ← div_eq_mul_inv] at hv
      exact (if_pos (decide_eq_true hneg)).trans (hn.div hpower hc hv)
    · have habs : k.natAbs = k.toNat := by omega
      rw [ten_zpow_of_nonneg (not_lt.mp hneg), ← habs] at hv
      exact (if_neg (by simpa using hneg)).trans (hn.mul hpower hc hv)
  · have hexponent :
        (if decide (k < 0) = true then Int.negOfNat k.natAbs else .ofNat k.natAbs) = k := by
      split
      · next hneg =>
        have hk := of_decide_eq_true hneg
        rw [Int.negOfNat_eq, Int.ofNat_eq_natCast]
        omega
      · next hneg =>
        have hk : ¬k < 0 := by simpa using hneg
        exact Int.natAbs_of_nonneg (not_lt.mp hk)
    dsimp only
    rw [hexponent, Float.Model.ofScientific, model_ofScientific hc hv]

end

end

end JsonFilter.Binary
