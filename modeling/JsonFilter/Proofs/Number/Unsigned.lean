import JsonFilter.Proofs.Number.RoundTrip

/-!
Numbers of numerals without a sign. A numeral never denotes a NaN or a negative number: rounding
keeps the sign, and packing keeps it too. So what the JSON text of a literal denotes is the literal
itself, or the largest number for one beyond it.
-/

namespace JsonFilter.Binary

open Float.Model Float.Model.UnpackedFloat

/-! ## Signs -/

/-- Whether a number of the arithmetic has the sign of a positive one. -/
def isUnsigned : UnpackedFloat → Bool
  | .infinity .positive => true
  | .zero .positive => true
  | .finite .positive _ _ _ => true
  | _ => false

section
variable {u : UnpackedFloat}

/-- The forms of a number without a sign. -/
theorem isUnsigned_iff : isUnsigned u = true ↔ u = .infinity .positive ∨ u = .zero .positive ∨
    ∃ m e h, u = .finite .positive m e h := by
  constructor
  · intro h
    unfold isUnsigned at h
    split at h
    · exact .inl rfl
    · exact .inr (.inl rfl)
    · exact .inr (.inr ⟨_, _, _, rfl⟩)
    · cases h
  · rintro (rfl | rfl | ⟨m, e, h, rfl⟩)
    · rfl
    · rfl
    · rfl

theorem isUnsigned_roundWithAccuracy (m : Nat) (e : Int) (a : Accuracy) :
    isUnsigned (roundWithAccuracy Format.binary64 .positive m e a) := by
  unfold roundWithAccuracy
  dsimp only
  split
  · rfl
  · rfl

variable {m : Nat} {e : Int} (h : isUnsigned u) (hm : 0 < m)
include h

theorem isUnsigned_mul :
    isUnsigned (UnpackedFloat.mul Format.binary64 u (.finite .positive m e hm)) := by
  obtain rfl | rfl | ⟨_, _, _, rfl⟩ := isUnsigned_iff.mp h
  · rfl
  · rfl
  · exact isUnsigned_roundWithAccuracy _ _ _

theorem isUnsigned_div :
    isUnsigned (UnpackedFloat.div Format.binary64 u (.finite .positive m e hm)) := by
  obtain rfl | rfl | ⟨_, _, _, rfl⟩ := isUnsigned_iff.mp h
  · rfl
  · rfl
  · exact isUnsigned_roundWithAccuracy _ _ _

end

/-- What is packed without a sign, and with an exponent that is not all ones, has none. -/
theorem isUnsigned_packComponents {a : BitVec 11} (b : BitVec 52) (ha : a ≠ BitVec.ofNat 11 2047) :
    isUnsigned (UnpackedFloat.unpack Format.binary64
      (packComponents Format.binary64 .positive a b)) := by
  have hinf : ¬unpackExponent (packComponents Format.binary64 .positive a b) =
      -BitVec.ofNat Format.binary64.exponentBits 1 := by
    rw [unpackExponent_packComponents]
    exact ha
  have hsign : Sign.ofBitVec (unpackSign (packComponents Format.binary64 .positive a b)) =
      .positive := by
    rw [unpackSign_packComponents, Sign.ofBitVec_toBitVec]
  rw [UnpackedFloat.unpack.eq_1, if_neg hinf, hsign]
  split
  · split
    · rfl
    · rfl
  · rfl

theorem isUnsigned_pack {u : UnpackedFloat} (h : isUnsigned u) :
    isUnsigned (Float.Model.pack u).unpack := by
  show isUnsigned (UnpackedFloat.unpack Format.binary64 (UnpackedFloat.pack Format.binary64 u))
  have hinfinity : isUnsigned (UnpackedFloat.unpack Format.binary64
      (packedInfinity Format.binary64 .positive)) := rfl
  obtain rfl | rfl | ⟨m, e, hm, rfl⟩ := isUnsigned_iff.mp h
  · exact hinfinity
  · rfl
  · rw [UnpackedFloat.pack]
    dsimp only
    split
    · exact hinfinity
    · next hsmall =>
      split
      · replace hsmall : ¬2 ^ 11 ≤ (e + Format.binary64.exponentBias +
          Format.binary64.mantissaBitsWithoutImplicit).toNat + 1 := hsmall
        generalize (e + Format.binary64.exponentBias +
          Format.binary64.mantissaBitsWithoutImplicit).toNat = k at hsmall ⊢
        exact isUnsigned_packComponents _ (ofNat_ne (by omega) (by norm_num) (by omega))
      · exact isUnsigned_packComponents _ (by decide)

/-! ## Numerals -/

theorem isUnsigned_ofScientific (n : Nat) (k : Int) :
    isUnsigned (UnpackedFloat.ofScientific Format.binary64 n k) := by
  rw [UnpackedFloat.ofScientific]
  split
  · rfl
  split
  · rfl
  split
  · rfl
  split
  · exact isUnsigned_mul rfl _
  · exact isUnsigned_div rfl _

theorem isUnsigned_toFloat {n : Nat} (hlt : n < 2 ^ 53) :
    isUnsigned n.toUInt64.toFloat.toModel.unpack := by
  rcases Nat.eq_zero_or_pos n with rfl | hn
  · rfl
  · rw [toFloat_toUInt64 hn hlt]
    exact isUnsigned_pack (isUnsigned_roundWithAccuracy _ _ _)

section
variable {f g : Float} {q : ℚ} (hf : isUnsigned f.toModel.unpack) (hg : IsExactly g q)
include hf hg

theorem isUnsigned_mul_float : isUnsigned (f * g).toModel.unpack := by
  obtain ⟨m, e, hc, hunpack, _⟩ := hg
  show isUnsigned (Float.Model.pack
    (UnpackedFloat.mul Format.binary64 f.toModel.unpack g.toModel.unpack)).unpack
  rw [hunpack]
  exact isUnsigned_pack (isUnsigned_mul hf _)

theorem isUnsigned_div_float : isUnsigned (f / g).toModel.unpack := by
  obtain ⟨m, e, hc, hunpack, _⟩ := hg
  show isUnsigned (Float.Model.pack
    (UnpackedFloat.div Format.binary64 f.toModel.unpack g.toModel.unpack)).unpack
  rw [hunpack]
  exact isUnsigned_pack (isUnsigned_div hf _)

end

/-- Neither way of computing a decimal gives it a sign. -/
theorem isUnsigned_float (n : Nat) (s : Bool) (k : Nat) :
    isUnsigned (Float.ofScientific n s k).toModel.unpack := by
  rw [Float.ofScientific]
  split
  · next hshort =>
    have hn := isUnsigned_toFloat hshort.1
    have hpower := isExactly_power (Nat.lt_succ_of_le hshort.2)
    dsimp only
    split
    · exact isUnsigned_div_float hn hpower
    · exact isUnsigned_mul_float hn hpower
  · exact isUnsigned_pack (isUnsigned_ofScientific _ _)

end JsonFilter.Binary

namespace JsonFilter.Number

open Float.Model

/-- Whether a number has the sign of a positive one. -/
def isUnsigned (x : Number) : Bool := Binary.isUnsigned x.toFloat.toModel.unpack

theorem isUnsigned_value {n : Numeral} (h : n.negative = false) : n.value.isUnsigned := by
  unfold Numeral.value
  dsimp only
  rw [h, if_neg Bool.false_ne_true]
  exact Binary.isUnsigned_float _ _ _

/-- The infinite number. -/
def infinity : Number := ofBits 0x7ff0000000000000

/-- The largest finite number. -/
def largest : Number := ofBits 0x7fefffffffffffff

/-- A number that is not beyond the largest one. -/
def capped (x : Number) : Number := if x.isInfinite then largest else x

variable {x : Number}

theorem exists_dyadic_of_isUnsigned (h : x.isUnsigned) (hfinite : x.isFinite) :
    ∃ d, x.dyadic? = some d ∧ d.negative = false := by
  obtain ⟨d, hx⟩ := exists_dyadic hfinite
  refine ⟨d, hx, ?_⟩
  cases hneg : d.negative with
  | false => rfl
  | true =>
    unfold isUnsigned at h
    rcases Nat.eq_zero_or_pos d.mantissa with hm | hm
    · rw [unpack_of_dyadic?_zero hx hm, sign, hneg] at h
      cases h
    · obtain ⟨hc, hunpack⟩ := unpack_of_dyadic? hx hm
      rw [hunpack, sign, hneg] at h
      cases h

/-- A number without a sign is infinite, or has an exact value without one. -/
theorem eq_infinity_or_dyadic (h : x.isUnsigned) :
    x = infinity ∨ ∃ d, x.dyadic? = some d ∧ d.negative = false := by
  have hfinite (hu : x.toFloat.toModel.unpack.isFinite = true) : x.isFinite := hu
  obtain hu | hu | ⟨m, e, hm, hu⟩ := Binary.isUnsigned_iff.mp h
  · left
    obtain ⟨f⟩ := x
    exact congrArg Number.mk (eq_of_unpack hu)
  · exact .inr (exists_dyadic_of_isUnsigned h (hfinite (by rw [hu]; rfl)))
  · exact .inr (exists_dyadic_of_isUnsigned h (hfinite (by rw [hu]; rfl)))

/-- The text of a number without a sign begins with a digit. -/
theorem begins_json {d : Dyadic} (hx : x.dyadic? = some d) (hsign : d.negative = false) :
    Begins x.json.toList := by
  rcases Nat.eq_zero_or_pos d.mantissa with hm | hm
  · rw [json_of_zero hx hm]
    exact ⟨'0', [], rfl, rfl⟩
  · obtain ⟨s, v, htext, ⟨whole, _, _, r, _, hwhole, _⟩, _⟩ := spells_json hx hm
    rw [hsign] at htext
    obtain ⟨htake, _, hne⟩ := Json.readWhole_eq hwhole
    rw [htext]
    cases s with
    | nil => exact absurd htake.symm hne
    | cons c cs =>
      refine ⟨c, cs, rfl, ?_⟩
      by_contra hc
      rw [List.takeWhile_cons_of_neg hc] at htake
      exact hne htake.symm

/-- A number without a sign is read back from its text, if there is no larger one. -/
theorem ofText_json (h : x.isUnsigned) : Number.ofText x.json = .ok x.capped := by
  obtain rfl | ⟨d, hx, hsign⟩ := eq_infinity_or_dyadic h
  · decide +kernel
  · rw [capped, isInfinite_of_dyadic? hx]
    exact Json.ofText_of_readNumber (readNumber_json_of_nonneg hx hsign)

/-- The text of a number without a sign is one token, which stands for the number. -/
theorem kinds_of_isUnsigned (h : x.isUnsigned) : x.kinds = [.number x.capped] := by
  obtain rfl | ⟨d, hx, hsign⟩ := eq_infinity_or_dyadic h
  · decide +kernel
  · rcases kinds_of_ofText (ofText_json h) with hkinds | ⟨y, hkinds, _⟩
    · rw [hkinds, reread, ofText_json h]
    · rw [kinds, scanSign_begins (begins_json hx hsign)] at hkinds
      simp only [Bool.false_eq_true, if_false, List.cons.injEq, reduceCtorEq, and_false] at hkinds

end JsonFilter.Number
