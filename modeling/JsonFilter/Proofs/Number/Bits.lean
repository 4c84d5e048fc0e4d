import JsonFilter.Number.Whole
import JsonFilter.Proofs.Number.Scientific

/-!
Numbers and their exact values. What is read off the bits of a number as a sign, a mantissa and a
power of two is the number as the arithmetic has it, and it determines the number.
-/

namespace JsonFilter.Number

open Float.Model Float.Model.UnpackedFloat
open Binary (Canonical unpack_of_normal unpack_of_subnormal)

variable {x : Number} {d : Dyadic}

theorem toModel_eq_pack (f : Float) : f.toModel = Float.Model.pack f.toModel.unpack := by
  obtain ⟨⟨bits, hvalid⟩⟩ := f
  have hpack := pack_unpack_of_valid hvalid
  show Float.Model.mk bits hvalid = Float.Model.mk ⟨_⟩ _
  congr 1
  exact congrArg UInt64.ofBitVec hpack.symm

/-! ## Bits -/

/-- The sign that is read off the bits. -/
def sign (d : Dyadic) : Sign := if d.negative then .negative else .positive

/-- The bits of a number as the arithmetic reads them. -/
abbrev word (x : Number) : BitVec Format.binary64.numBits := x.toFloat.toModel.toBits.toBitVec

theorem toNat_unpackExponent (x : Number) :
    (unpackExponent x.word).toNat = x.bits.toNat / 2 ^ 52 % 2 ^ 11 := by
  rw [unpackExponent_def, BitVec.extractLsb'_toNat, Nat.shiftRight_eq_div_pow]
  rfl

theorem toNat_unpackMantissa (x : Number) :
    (unpackMantissa x.word).toNat = x.bits.toNat % 2 ^ 52 := by
  rw [unpackMantissa_def, BitVec.extractLsb'_toNat, Nat.shiftRight_zero]
  rfl

theorem ofBitVec_unpackSign (x : Number) : Sign.ofBitVec (unpackSign x.word) =
    if x.bits.toNat / 2 ^ 63 == 1 then .negative else .positive := by
  have hlt : x.bits.toNat < 2 ^ 64 := x.bits.toBitVec.isLt
  have hbit : (unpackSign x.word).toNat = x.bits.toNat / 2 ^ 63 := by
    rw [unpackSign_def, BitVec.extractLsb'_toNat, Nat.shiftRight_eq_div_pow]
    show x.bits.toNat / 2 ^ 63 % 2 = _
    omega
  have hzero : unpackSign x.word = 0#1 ↔ x.bits.toNat / 2 ^ 63 = 0 := by
    rw [← hbit, ← BitVec.toNat_inj]
    rfl
  rw [Sign.ofBitVec]
  rcases Nat.lt_or_ge (x.bits.toNat / 2 ^ 63) 1 with hclear | hset
  · have heq : x.bits.toNat / 2 ^ 63 = 0 := by omega
    rw [if_pos (hzero.mpr heq), heq]
    rfl
  · have heq : x.bits.toNat / 2 ^ 63 = 1 := by omega
    rw [if_neg (mt hzero.mp (by omega)), heq]
    rfl

/-- The exponent of all ones is that of no finite number. -/
theorem unpackExponent_eq_iff {k : Nat} (hk : k < 2 ^ 11) :
    unpackExponent x.word = BitVec.ofNat 11 k ↔ x.bits.toNat / 2 ^ 52 % 2 ^ 11 = k := by
  rw [← toNat_unpackExponent, ← BitVec.toNat_inj, BitVec.toNat_ofNat, Nat.mod_eq_of_lt hk]

theorem exists_dyadic (h : x.isFinite) : ∃ d, x.dyadic? = some d := by
  unfold dyadic?
  dsimp only
  split
  · next hones =>
    exfalso
    have hexponent : unpackExponent x.word = -BitVec.ofNat Format.binary64.exponentBits 1 :=
      (unpackExponent_eq_iff (by norm_num)).mpr hones
    have hfinite : (UnpackedFloat.unpack Format.binary64 x.word).isFinite = true := h
    rw [UnpackedFloat.unpack.eq_1, if_pos hexponent] at hfinite
    split at hfinite
    · cases hfinite
    · cases hfinite
  split
  · exact ⟨_, rfl⟩
  · exact ⟨_, rfl⟩

/-- The exact value of a number, by the fields of its bits: without an exponent it is subnormal, and
else its mantissa has one more bit. -/
theorem of_dyadic? (h : x.dyadic? = some d) :
    unpackExponent x.word ≠ -BitVec.ofNat Format.binary64.exponentBits 1 ∧
      Sign.ofBitVec (unpackSign x.word) = sign d ∧
      (unpackExponent x.word = BitVec.ofNat Format.binary64.exponentBits 0 ∧
          (unpackMantissa x.word).toNat = d.mantissa ∧ -1074 = d.exponent ∨
        unpackExponent x.word ≠ BitVec.ofNat Format.binary64.exponentBits 0 ∧
          2 ^ 52 + (unpackMantissa x.word).toNat = d.mantissa ∧
          ((unpackExponent x.word).toNat : Int) - 1075 = d.exponent) := by
  rw [toNat_unpackMantissa, toNat_unpackExponent, ofBitVec_unpackSign]
  unfold dyadic? at h
  dsimp only at h
  split at h
  · cases h
  next hones =>
  refine ⟨fun heq => hones ((unpackExponent_eq_iff (by norm_num)).mp heq), ?_⟩
  split at h
  · next hzero =>
    obtain rfl := Option.some.inj h
    exact ⟨rfl, .inl ⟨(unpackExponent_eq_iff (by norm_num)).mpr hzero, rfl, rfl⟩⟩
  · next hnonzero =>
    obtain rfl := Option.some.inj h
    refine ⟨rfl, .inr ⟨fun heq => hnonzero ((unpackExponent_eq_iff (by norm_num)).mp heq), ?_, rfl⟩⟩
    exact add_comm _ _

/-- A finite number other than zero, as the arithmetic has it. -/
theorem unpack_of_dyadic? (h : x.dyadic? = some d) (hm : 0 < d.mantissa) :
    ∃ hc : Canonical d.mantissa d.exponent,
      x.toFloat.toModel.unpack = .finite (sign d) d.mantissa d.exponent hc.pos := by
  have hfraction := (unpackMantissa x.word).isLt
  have hexponent := (unpackExponent x.word).isLt
  obtain ⟨hinf, hsign, ⟨hsub, hmantissa, he⟩ | ⟨hsub, hmantissa, he⟩⟩ := of_dyadic? h
  · have hc : Canonical d.mantissa d.exponent := by
      rw [hmantissa] at hfraction
      exact ⟨hm, hfraction.trans (by norm_num), he.le, he ▸ by norm_num,
        fun hne => absurd he.symm hne⟩
    refine ⟨hc, unpack_of_subnormal hinf hsub hsign hmantissa ?_ _⟩
    rw [hsub, ← he]
    rfl
  · have hones : (unpackExponent x.word).toNat ≠ 2047 := fun heq =>
      hinf (BitVec.eq_of_toNat_eq heq)
    have hzero : (unpackExponent x.word).toNat ≠ 0 := fun heq =>
      hsub (BitVec.eq_of_toNat_eq heq)
    replace hfraction : (unpackMantissa x.word).toNat < 2 ^ 52 := hfraction
    replace hexponent : (unpackExponent x.word).toNat < 2 ^ 11 := hexponent
    have hc : Canonical d.mantissa d.exponent :=
      ⟨hm, by omega, by omega, by omega, fun _ => by omega⟩
    refine ⟨hc, unpack_of_normal hinf hsub hsign ?_ he _⟩
    rw [Binary.toNat_one_append]
    exact hmantissa

/-- A zero, as the arithmetic has it. -/
theorem unpack_of_dyadic?_zero (h : x.dyadic? = some d) (hm : d.mantissa = 0) :
    x.toFloat.toModel.unpack = .zero (sign d) := by
  obtain ⟨hinf, hsign, ⟨hsub, hmantissa, _⟩ | ⟨_, hmantissa, _⟩⟩ := of_dyadic? h
  · have hzero : unpackMantissa x.word =
        BitVec.ofNat Format.binary64.mantissaBitsWithoutImplicit 0 :=
      BitVec.eq_of_toNat_eq (hmantissa.trans hm)
    show UnpackedFloat.unpack Format.binary64 x.word = _
    rw [UnpackedFloat.unpack.eq_1, if_neg hinf, if_pos hsub, dif_pos hzero, hsign]
  · omega

/-- What the arithmetic has of a finite number other than zero is its exact value. -/
theorem exists_dyadic_of_unpack {s : Sign} {m : Nat} {e : Int} {hm : 0 < m}
    (h : x.toFloat.toModel.unpack = .finite s m e hm) :
    ∃ d, x.dyadic? = some d ∧ sign d = s ∧ d.mantissa = m ∧ d.exponent = e := by
  have hfinite : x.isFinite = true := by
    show x.toFloat.toModel.unpack.isFinite = true
    rw [h]
    rfl
  obtain ⟨d, hd⟩ := exists_dyadic hfinite
  rcases Nat.eq_zero_or_pos d.mantissa with hzero | hpos
  · rw [unpack_of_dyadic?_zero hd hzero] at h
    cases h
  · obtain ⟨_, hunpack⟩ := unpack_of_dyadic? hd hpos
    rw [hunpack] at h
    obtain ⟨hsign, hmantissa, hexponent⟩ := UnpackedFloat.finite.inj h
    exact ⟨d, hd, hsign, hmantissa, hexponent⟩

/-- A number is determined by what the arithmetic has of it. -/
theorem eq_of_unpack {f g : Float} (h : f.toModel.unpack = g.toModel.unpack) : f = g := by
  have hmodel : f.toModel = g.toModel := by rw [toModel_eq_pack f, toModel_eq_pack g, h]
  exact congrArg Float.ofModel hmodel

end JsonFilter.Number
