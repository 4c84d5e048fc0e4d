import JsonFilter.Number.Layout
import JsonFilter.Proofs.Json.Reading
import JsonFilter.Proofs.Number.Bits
import JsonFilter.Proofs.Number.Shortest

/-!
Numbers through their JSON text. Whichever way the digits of a number are laid out, what is read are
the same digits at the same power of ten. They lie in the interval of the number, so every finite
number is read back, and a zero without its sign.
-/

namespace JsonFilter.Number

open Float.Model Float.Model.UnpackedFloat
open Binary (Canonical Around unpack_pack ofScientific_of_around)

/-! ## Values of numerals -/

theorem isInfinite_of_dyadic? {x : Number} {d : Dyadic} (hx : x.dyadic? = some d) :
    x.isInfinite = false := by
  show x.toFloat.toModel.unpack.isInf = false
  rcases Nat.eq_zero_or_pos d.mantissa with hm | hm
  · rw [unpack_of_dyadic?_zero hx hm]
    rfl
  · obtain ⟨hc, hunpack⟩ := unpack_of_dyadic? hx hm
    rw [hunpack]
    rfl

/-- The fraction that a numeral denotes, without its sign. -/
def size (n : Numeral) : ℚ :=
  Numeral.digitsValue (n.whole ++ n.fraction) * 10 ^ (n.exponent - n.fraction.length)

/-- A numeral around a number, with its sign, denotes the number. -/
theorem value_of_around {x : Number} {d : Dyadic} {n : Numeral} (hx : x.dyadic? = some d)
    (hm : 0 < d.mantissa) (hsign : n.negative = d.negative)
    (hv : Around d.mantissa d.exponent (size n)) : n.value = x := by
  obtain ⟨hc, hunpack⟩ := unpack_of_dyadic? hx hm
  have hsize := ofScientific_of_around hc hv
  unfold Numeral.value
  dsimp only
  rw [hsize]
  obtain ⟨f⟩ := x
  cases hneg : d.negative with
  | true =>
    rw [hsign, hneg, if_pos rfl]
    refine congrArg Number.mk (eq_of_unpack ?_)
    have hpositive := unpack_pack .positive hc
    have hnegative := unpack_pack .negative hc
    show (Float.Model.pack (Float.Model.pack (.finite .positive _ _ hc.pos)).unpack.neg).unpack = _
    rw [hpositive, hunpack, sign, hneg]
    exact hnegative
  | false =>
    rw [hsign, hneg, if_neg Bool.false_ne_true]
    refine congrArg Number.mk (eq_of_unpack ?_)
    rw [hunpack, sign, hneg]
    exact unpack_pack .positive hc

end JsonFilter.Number

namespace JsonFilter.Json

open Number (size isInfinite_of_dyadic?)
open Binary (Canonical Around)

/-! ## Digits -/

/-- No digit comes next. -/
def Stops (s : List Char) : Prop := ∀ c cs, s = c :: cs → c.isDigit = false

/-- All characters are digits. -/
def Digits (s : List Char) : Prop := ∀ c ∈ s, c.isDigit = true

theorem stops_nil : Stops [] := fun _ _ h => nomatch h

theorem stops_cons {c : Char} (h : c.isDigit = false) (cs : List Char) : Stops (c :: cs) := by
  intro d ds heq
  obtain ⟨rfl, _⟩ := List.cons.inj heq
  exact h

theorem takeWhile_of_stops {s : List Char} (h : Stops s) : s.takeWhile Char.isDigit = [] := by
  cases s with
  | nil => rfl
  | cons c cs => exact List.takeWhile_cons_of_neg (Bool.eq_false_iff.mp (h c cs rfl))

theorem dropWhile_of_stops {s : List Char} (h : Stops s) : s.dropWhile Char.isDigit = s := by
  cases s with
  | nil => rfl
  | cons c cs => exact List.dropWhile_cons_of_neg (Bool.eq_false_iff.mp (h c cs rfl))

theorem takeWhile_digits {s r : List Char} (hs : Digits s) (hr : Stops r) :
    (s ++ r).takeWhile Char.isDigit = s := by
  rw [List.takeWhile_append_of_pos hs, takeWhile_of_stops hr, List.append_nil]

theorem dropWhile_digits {s r : List Char} (hs : Digits s) (hr : Stops r) :
    (s ++ r).dropWhile Char.isDigit = r := by
  rw [List.dropWhile_append_of_pos hs, dropWhile_of_stops hr]

theorem digits_toDigits (n : Nat) : Digits (Nat.toDigits 10 n) :=
  fun _ hc => Nat.isDigit_of_mem_toDigits (by decide) (by decide) hc

theorem digits_zeros (n : Nat) : Digits (List.replicate n '0') := by
  intro c hc
  obtain rfl := List.eq_of_mem_replicate hc
  rfl

theorem Digits.append {s t : List Char} (hs : Digits s) (ht : Digits t) : Digits (s ++ t) :=
  List.forall_mem_append.mpr ⟨hs, ht⟩

/-- The digits of a positive number do not begin with zero. -/
theorem toDigits_head {n : Nat} (hn : 0 < n) :
    ∃ c cs, Nat.toDigits 10 n = c :: cs ∧ c ≠ '0' := by
  induction n using Nat.strongRecOn with
  | ind n ih =>
    rw [Nat.toDigits_eq_if (by decide)]
    split
    · next hlt =>
      have hdigit : ∀ n < 10, 0 < n → n.digitChar ≠ '0' := by decide
      exact ⟨_, [], rfl, hdigit n hlt hn⟩
    · next hge =>
      obtain ⟨c, cs, hdigits, hc⟩ := ih (n / 10) (by omega) (by omega)
      exact ⟨c, _, by rw [hdigits, List.cons_append], hc⟩

/-! ## Parts of numerals -/

/-- A whole part: a single zero, or digits that do not begin with zero. -/
def Whole (s : List Char) : Prop :=
  s = ['0'] ∨ ∃ c cs, s = c :: cs ∧ c ≠ '0' ∧ Digits (c :: cs)

theorem whole_toDigits (n : Nat) : Whole (Nat.toDigits 10 n) := by
  by_cases hn : n = 0
  · exact .inl (by rw [hn, Nat.toDigits_zero])
  · obtain ⟨c, cs, hdigits, hc⟩ := toDigits_head (Nat.pos_of_ne_zero hn)
    refine .inr ⟨c, cs, hdigits, hc, ?_⟩
    rw [← hdigits]
    exact digits_toDigits n

theorem readWhole_of_whole {s r : List Char} (hs : Whole s) (hr : Stops r) :
    readWhole (s ++ r) = .ok (s, r) := by
  obtain rfl | ⟨c, cs, rfl, hc, hdigits⟩ := hs
  · cases r with
    | nil => rfl
    | cons d ds =>
      show (if d.isDigit = true then _ else _) = _
      rw [if_neg (Bool.eq_false_iff.mp (hr d ds rfl))]
      rfl
  · obtain ⟨hdigit, hrest⟩ := List.forall_mem_cons.mp hdigits
    show (if c = '0' then _ else if c.isDigit = true then
      Except.ok (c :: (cs ++ r).takeWhile Char.isDigit, (cs ++ r).dropWhile Char.isDigit)
      else _) = _
    rw [if_neg hc, if_pos hdigit, takeWhile_digits hrest hr, dropWhile_digits hrest hr]

theorem readFraction_of_digits {s r : List Char} (hs : Digits s) (hne : s ≠ []) (hr : Stops r) :
    readFraction ('.' :: (s ++ r)) = .ok (s, r) := by
  rw [readFraction, takeWhile_digits hs hr, dropWhile_digits hs hr]
  cases s with
  | nil => exact absurd rfl hne
  | cons c cs => rfl

/-- The value of digits that are read does not go down. -/
theorem le_ofDigitChars (s : List Char) (n : Nat) : n ≤ Nat.ofDigitChars 10 s n := by
  rw [Nat.ofDigitChars_eq_ofDigitChars_zero]
  exact (Nat.le_mul_of_pos_left n (by positivity)).trans (Nat.le_add_right _ _)

/-- Digits of a small number are not too many for a power of ten. -/
theorem excess?_eq_none {s : List Char} {n : Nat} (h : Nat.ofDigitChars 10 s n ≤ maxExponent) :
    excess? n s = none := by
  induction s generalizing n with
  | nil => rfl
  | cons c cs ih =>
    rw [Nat.ofDigitChars_cons] at h
    have hle := (le_ofDigitChars cs (10 * n + (c.toNat - '0'.toNat))).trans h
    show (if maxExponent < 10 * n + (c.toNat - '0'.toNat) then _ else excess? _ cs) = none
    rw [if_neg (Nat.not_lt.mpr hle), ih h]

theorem readExponent_of_nat (isZero : Bool) {k : Int} (hk : k.natAbs ≤ maxExponent) :
    readExponent isZero ('e' :: (if k < 0 then '-' else '+') :: Nat.toDigits 10 k.natAbs) =
      .ok (k, []) := by
  have hsign : Numeral.scanSign ((if k < 0 then '-' else '+') :: Nat.toDigits 10 k.natAbs) =
      (decide (k < 0), Nat.toDigits 10 k.natAbs) := by
    split
    · next hneg => rw [decide_eq_true hneg]; rfl
    · next hneg => rw [decide_eq_false hneg]; rfl
  have htake := takeWhile_digits (digits_toDigits k.natAbs) stops_nil
  have hdrop := dropWhile_digits (digits_toDigits k.natAbs) stops_nil
  have hvalue : Numeral.digitsValue (Nat.toDigits 10 k.natAbs) = k.natAbs :=
    Nat.ofDigitChars_ten_toDigits
  have hexcess : excess? 0 (Nat.toDigits 10 k.natAbs) = none := by
    refine excess?_eq_none ?_
    rwa [Nat.ofDigitChars_ten_toDigits]
  rw [List.append_nil] at htake hdrop
  have hresult : (if k < 0 then -(k.natAbs : Int) else k.natAbs) = k := by
    split
    · omega
    · omega
  simp only [readExponent, true_or, if_true, hsign, htake, hdrop]
  split
  · next hempty => exact absurd hempty Nat.toDigits_ne_nil
  · simp only [hexcess, hvalue, decide_eq_true_eq, hresult]

/-! ## Texts of numerals -/

/-- A text is a numeral without a sign that denotes `v`. -/
def Spells (s : List Char) (v : ℚ) : Prop :=
  ∃ whole fraction exponent r₁ r₂, readWhole s = .ok (whole, r₁) ∧
    readFraction r₁ = .ok (fraction, r₂) ∧
    (∀ isZero, readExponent isZero r₂ = .ok (exponent, [])) ∧
    ∀ negative, size ⟨negative, whole, fraction, exponent⟩ = v

/-- A numeral around a number is read as the number. -/
theorem readNumeral_of_spells {x : Number} {d : Dyadic} {s : List Char} {v : ℚ} (h : Spells s v)
    (hx : x.dyadic? = some d) (hm : 0 < d.mantissa)
    (hv : Binary.Around d.mantissa d.exponent v) :
    readNumeral d.negative s = .ok (x, []) := by
  obtain ⟨whole, fraction, exponent, r₁, r₂, hwhole, hfraction, hexponent, hsize⟩ := h
  have hvalue : (Numeral.mk d.negative whole fraction exponent).value = x := by
    refine Number.value_of_around hx hm rfl ?_
    rwa [hsize]
  rw [readNumeral, hwhole]
  show (readFraction r₁ >>= _) = _
  rw [hfraction]
  show (readExponent _ r₂ >>= _) = _
  rw [hexponent]
  show (if (Numeral.mk d.negative whole fraction exponent).value.isInfinite = true then _
    else Except.ok ((Numeral.mk d.negative whole fraction exponent).value, _)) = _
  rw [hvalue, isInfinite_of_dyadic? hx, if_neg Bool.false_ne_true]

/-- The digits of an integer. -/
theorem spells_nat (n : Nat) : Spells (Nat.toDigits 10 n) n := by
  have hwhole := readWhole_of_whole (whole_toDigits n) stops_nil
  rw [List.append_nil] at hwhole
  refine ⟨_, [], 0, [], [], hwhole, rfl, fun _ => rfl, fun _ => ?_⟩
  have hvalue : Numeral.digitsValue (Nat.toDigits 10 n) = n := Nat.ofDigitChars_ten_toDigits
  rw [size, List.append_nil, hvalue, List.length_nil, Nat.cast_zero, sub_zero, zpow_zero, mul_one]

theorem spells_point {w f : List Char} (hw : Whole w) (hf : Digits f) (hne : f ≠ []) :
    Spells (w ++ '.' :: f) (Numeral.digitsValue (w ++ f) * 10 ^ (-f.length : Int)) := by
  have hwhole := readWhole_of_whole hw (stops_cons (c := '.') rfl f)
  have hfraction := readFraction_of_digits hf hne stops_nil
  rw [List.append_nil] at hfraction
  refine ⟨w, f, 0, _, [], hwhole, hfraction, fun _ => rfl, fun _ => ?_⟩
  rw [size, zero_sub]

theorem digitsValue_zeros_append (j : Nat) (s : List Char) :
    Numeral.digitsValue (List.replicate j '0' ++ s) = Numeral.digitsValue s := by
  show Nat.ofDigitChars 10 (List.replicate j '0' ++ s) 0 = _
  rw [Nat.ofDigitChars_append, Nat.ofDigitChars_replicate_zero, mul_zero]
  rfl

theorem digitsValue_append_zeros (s : List Char) (j : Nat) :
    Numeral.digitsValue (s ++ List.replicate j '0') = 10 ^ j * Numeral.digitsValue s := by
  show Nat.ofDigitChars 10 (s ++ List.replicate j '0') 0 = _
  rw [Nat.ofDigitChars_append, Nat.ofDigitChars_replicate_zero]
  rfl

theorem digitsValue_toDigits (n : Nat) : Numeral.digitsValue (Nat.toDigits 10 n) = n :=
  Nat.ofDigitChars_ten_toDigits

/-- Digits after a point, without any before it. -/
theorem spells_below (n j : Nat) :
    Spells ('0' :: '.' :: (List.replicate j '0' ++ Nat.toDigits 10 n))
      (n * 10 ^ (-(j + (Nat.toDigits 10 n).length : Nat) : Int)) := by
  have hspells := spells_point (.inl rfl) ((digits_zeros j).append (digits_toDigits n))
    (List.append_ne_nil_of_right_ne_nil _ Nat.toDigits_ne_nil)
  have hvalue : Numeral.digitsValue (['0'] ++ (List.replicate j '0' ++ Nat.toDigits 10 n)) = n := by
    rw [← List.append_assoc]
    exact (digitsValue_zeros_append (j + 1) _).trans (digitsValue_toDigits n)
  rw [hvalue, List.length_append, List.length_replicate] at hspells
  exact hspells

section
variable {n : Nat} (hn : 0 < n) (k : Int)
include hn

/-- Digits before a point, without any after it. -/
theorem spells_filled (j : Nat) :
    Spells (Nat.toDigits 10 n ++ List.replicate j '0' ++ ['.', '0']) (n * 10 ^ (j : Int)) := by
  obtain ⟨c, cs, hdigits, hc⟩ := toDigits_head hn
  have hw : Whole (Nat.toDigits 10 n ++ List.replicate j '0') := by
    have hall := (digits_toDigits n).append (digits_zeros j)
    rw [hdigits] at hall ⊢
    exact .inr ⟨c, _, rfl, hc, hall⟩
  have hspells := spells_point hw (digits_zeros 1) (by simp)
  have hvalue : Numeral.digitsValue (Nat.toDigits 10 n ++ List.replicate j '0' ++
      List.replicate 1 '0') = 10 ^ (j + 1) * n := by
    rw [List.append_assoc, List.replicate_append_replicate, digitsValue_append_zeros,
      digitsValue_toDigits]
  have hpower : ((10 ^ (j + 1) * n : Nat) : ℚ) * 10 ^ (-(1 : Nat) : Int) = n * 10 ^ (j : Int) := by
    push_cast
    rw [zpow_natCast, pow_succ, zpow_neg_one]
    ring
  rw [hvalue, List.length_replicate, hpower] at hspells
  exact hspells

/-- Digits with a point among them. -/
theorem spells_split {j : Nat} (hj : j + 1 < (Nat.toDigits 10 n).length) :
    Spells ((Nat.toDigits 10 n).take (j + 1) ++ '.' :: (Nat.toDigits 10 n).drop (j + 1))
      (n * 10 ^ ((j : Int) + 1 - (Nat.toDigits 10 n).length)) := by
  obtain ⟨c, cs, hdigits, hc⟩ := toDigits_head hn
  have hall := digits_toDigits n
  have hw : Whole ((Nat.toDigits 10 n).take (j + 1)) := by
    have htake : Digits ((Nat.toDigits 10 n).take (j + 1)) := fun d hd =>
      hall d (List.mem_of_mem_take hd)
    rw [hdigits] at htake ⊢
    exact .inr ⟨c, _, rfl, hc, htake⟩
  have hf : Digits ((Nat.toDigits 10 n).drop (j + 1)) :=
    fun d hd => hall d (List.mem_of_mem_drop hd)
  have hne : (Nat.toDigits 10 n).drop (j + 1) ≠ [] := by
    rw [ne_eq, List.drop_eq_nil_iff]
    omega
  have hspells := spells_point hw hf hne
  have hexponent : (-((Nat.toDigits 10 n).drop (j + 1)).length : Int) =
      (j : Int) + 1 - (Nat.toDigits 10 n).length := by
    rw [List.length_drop]
    omega
  rwa [List.take_append_drop, digitsValue_toDigits, hexponent] at hspells

/-- Positional writing. -/
theorem spells_fixed : Spells (Number.Layout.json.fixed (Nat.toDigits 10 n)
    (k + (Nat.toDigits 10 n).length - 1)).toList (n * 10 ^ k) := by
  unfold Number.Layout.fixed
  split
  · next hneg =>
    have hspells := spells_below n (-(k + (Nat.toDigits 10 n).length - 1) - 1).toNat
    have hexponent : (-((-(k + (Nat.toDigits 10 n).length - 1) - 1).toNat +
        (Nat.toDigits 10 n).length : Nat) : Int) = k := by omega
    rw [hexponent] at hspells
    simp only [String.toList_append, String.toList_ofList]
    exact hspells
  · next hnonneg =>
    dsimp only
    split
    · next hle =>
      have hspells := spells_filled hn
        ((k + (Nat.toDigits 10 n).length - 1).toNat + 1 - (Nat.toDigits 10 n).length)
      have hexponent : (((k + (Nat.toDigits 10 n).length - 1).toNat + 1 -
          (Nat.toDigits 10 n).length : Nat) : Int) = k := by omega
      rw [hexponent] at hspells
      simp only [String.toList_append, String.toList_ofList]
      exact hspells
    · next hlt =>
      have hspells := spells_split hn (not_le.mp hlt)
      have hexponent : ((k + (Nat.toDigits 10 n).length - 1).toNat : Int) + 1 -
          (Nat.toDigits 10 n).length = k := by omega
      rw [hexponent] at hspells
      simp only [String.toList_append, String.toList_ofList, List.append_assoc]
      exact hspells

/-- Writing with a power of ten. -/
theorem spells_scientific (hk : (k + (Nat.toDigits 10 n).length - 1).natAbs ≤ maxExponent) :
    Spells (Number.Layout.scientific (Nat.toDigits 10 n)
      (k + (Nat.toDigits 10 n).length - 1)).toList (n * 10 ^ k) := by
  obtain ⟨c, cs, hdigits, hc⟩ := toDigits_head hn
  have hall := digits_toDigits n
  have hvalue := digitsValue_toDigits n
  generalize hleading : k + (Nat.toDigits 10 n).length - 1 = leading at hk ⊢
  rw [hdigits] at hall hvalue hleading ⊢
  have hw : Whole [c] := .inr ⟨c, [], rfl, hc, fun d hd => hall d (by
    rw [List.mem_singleton.mp hd]
    exact List.mem_cons_self)⟩
  have htext : (Number.Layout.scientific (c :: cs) leading).toList =
      [c] ++ ((if cs = [] then [] else '.' :: cs) ++
        'e' :: (if leading < 0 then '-' else '+') :: Nat.toDigits 10 leading.natAbs) := by
    have hfraction : (if (c :: cs).length ≤ 1 then "" else "." ++ String.ofList cs).toList =
        if cs = [] then [] else '.' :: cs := by
      cases cs with
      | nil => rfl
      | cons d ds =>
        rw [if_neg (by simp), if_neg (List.cons_ne_nil d ds), String.toList_append,
          String.toList_ofList (l := d :: ds)]
        rfl
    have hsign : (if leading < 0 then "e-" else "e+").toList =
        ['e', if leading < 0 then '-' else '+'] := by
      split
      · rfl
      · rfl
    unfold Number.Layout.scientific
    simp only [List.take_succ_cons, List.take_zero, List.drop_succ_cons, List.drop_zero,
      String.toList_append, String.toList_ofList, hfraction, hsign, Nat.toString_eq_repr,
      Nat.toList_repr, List.append_assoc, List.cons_append, List.nil_append]
  rw [htext]
  have hexponent := fun b => readExponent_of_nat b hk
  by_cases hcs : cs = []
  · obtain rfl := hcs
    refine ⟨[c], [], leading, _, _, readWhole_of_whole hw (stops_cons rfl _), rfl, hexponent,
      fun _ => ?_⟩
    rw [size, List.append_nil, hvalue, List.length_nil, Nat.cast_zero, sub_zero, ← hleading]
    simp
  · have hdigits : Digits cs := fun d hd => hall d (List.mem_cons_of_mem c hd)
    rw [if_neg hcs]
    refine ⟨[c], cs, leading, _, _, readWhole_of_whole hw (stops_cons rfl _),
      readFraction_of_digits hdigits hcs (stops_cons rfl _), hexponent, fun _ => ?_⟩
    have hpower : leading - cs.length = k := by
      rw [← hleading, List.length_cons]
      push_cast
      ring
    rw [size, List.singleton_append, hvalue, hpower]

end

section
variable {n : Nat} {k e : Int} {m : Nat}

/-- The number of digits that a positive number has. -/
theorem toDigits_bounds (hn : 0 < n) :
    (10 : ℚ) ^ ((Nat.toDigits 10 n).length - 1 : Int) ≤ n ∧
      (n : ℚ) < 10 ^ ((Nat.toDigits 10 n).length : Int) := by
  have hlength : 0 < (Nat.toDigits 10 n).length := Nat.length_toDigits_pos
  have hhigh := (Nat.length_toDigits_le_iff (by decide) hlength).mp le_rfl
  refine ⟨?_, by exact_mod_cast hhigh⟩
  obtain ⟨j, hj⟩ : ∃ j, (Nat.toDigits 10 n).length = j + 1 := ⟨_, (Nat.succ_pred hlength.ne').symm⟩
  rw [hj, Nat.cast_succ, add_sub_cancel_right]
  rcases Nat.eq_zero_or_pos j with rfl | hpos
  · exact_mod_cast hn
  · have hlow := mt (Nat.length_toDigits_le_iff (b := 10) (n := n) (by decide) hpos).mpr (by omega)
    exact_mod_cast not_lt.mp hlow

/-- The leading digit of a decimal around a number stands at no extreme power of ten. -/
theorem natAbs_leading_le (hc : Canonical m e) (hv : Around m e (n * 10 ^ k)) :
    (k + (Nat.toDigits 10 n).length - 1).natAbs ≤ maxExponent := by
  obtain ⟨hlow, hhigh⟩ := toDigits_bounds (Binary.pos_of_around hc hv)
  generalize (Nat.toDigits 10 n).length = j at hlow hhigh ⊢
  have hleading : (10 : ℚ) ^ (k + j - 1) ≤ n * 10 ^ k := by
    have hsum : k + (j : Int) - 1 = j - 1 + k := by ring
    rw [hsum, zpow_add₀ (by norm_num)]
    exact mul_le_mul_of_nonneg_right hlow (by positivity)
  have hbeyond : n * 10 ^ k < (10 : ℚ) ^ (k + j) := by
    rw [add_comm, zpow_add₀ (by norm_num)]
    exact mul_lt_mul_of_pos_right hhigh (by positivity)
  have hmost := hc.most
  have hbound : maxExponent = 2147483647 := rfl
  rcases lt_or_ge (k + j - 1) 0 with hneg | hnonneg
  · have hexp := Binary.exponent_lt (hv.least_le hc)
      (hbeyond.trans_le (Binary.ten_zpow_le_two_zpow (by omega)))
    omega
  · have hexp := Binary.exponent_lt
      ((Binary.two_zpow_le_ten_zpow hnonneg).trans hleading) (hv.lt hc)
    omega

/-- The shortest decimal of a number denotes it in either writing. -/
theorem spells_decimal (hc : Canonical m e) :
    ∃ v, Spells (Number.Layout.json.decimal ((Decimal.Interval.ofBinary m e).shortest .even)).toList
      v ∧ Around m e v := by
  have haround := Decimal.Interval.around_shortest .even hc
  have hn := Binary.pos_of_around hc haround
  refine ⟨_, ?_, haround⟩
  unfold Number.Layout.decimal
  split
  · exact spells_fixed hn _
  · exact spells_scientific hn _ (natAbs_leading_le hc haround)

end

end JsonFilter.Json

namespace JsonFilter.Number

open Float.Model
open Json (Spells spells_nat spells_decimal readNumber readNumeral_of_spells)

variable {x : Number} {d : Dyadic}

/-- A value without a fraction is a natural number with a sign. -/
theorem exists_trunc (h : d.isWhole) : ∃ n : Nat, (n : ℚ) = d.mantissa * 2 ^ d.exponent ∧
    d.trunc = if d.negative then -(n : Int) else n := by
  unfold Dyadic.trunc Dyadic.signed
  unfold Dyadic.isWhole at h
  rw [Bool.or_eq_true, decide_eq_true_eq, decide_eq_true_eq] at h
  by_cases he : 0 ≤ d.exponent
  · refine ⟨d.mantissa * 2 ^ d.exponent.toNat, ?_, ?_⟩
    · rw [Nat.cast_mul, Nat.cast_pow, ← zpow_natCast, Int.toNat_of_nonneg he, Nat.cast_ofNat]
    · rw [if_pos he]
      cases d.negative
      · exact (Nat.cast_mul _ _).symm
      · exact (Int.neg_mul _ _).trans (congrArg Neg.neg (Nat.cast_mul _ _).symm)
  · obtain ⟨n, hn⟩ := Nat.dvd_of_mod_eq_zero (h.resolve_left he)
    have hpower : 0 < Nat.pow 2 (-d.exponent).toNat := Nat.pow_pos (by decide)
    refine ⟨n, ?_, ?_⟩
    · have hexponent : d.exponent = -((-d.exponent).toNat : Int) := by omega
      rw [hn, hexponent, zpow_neg, zpow_natCast, Int.neg_neg, Int.toNat_natCast, Nat.pow_eq]
      push_cast
      field_simp
    · have hne : ((Nat.pow 2 (-d.exponent).toNat : Nat) : Int) ≠ 0 := by exact_mod_cast hpower.ne'
      rw [if_neg he, hn, Nat.cast_mul]
      cases d.negative
      · exact Int.mul_tdiv_cancel_left _ hne
      · exact (Int.neg_tdiv _ _).trans (congrArg Neg.neg (Int.mul_tdiv_cancel_left _ hne))

theorem toList_toString_neg {n : Nat} (hn : 0 < n) :
    (toString (-(n : Int))).toList = '-' :: Nat.toDigits 10 n := by
  have hneg : ¬0 ≤ -(n : Int) := by omega
  rw [Int.toString_eq_repr, Int.repr_eq_if, if_neg hneg, neg_neg, Int.toNat_natCast,
    String.toList_append, Nat.toList_repr]
  rfl

theorem toList_toString_natCast (n : Nat) : (toString (n : Int)).toList = Nat.toDigits 10 n := by
  rw [Int.toString_eq_repr, Int.repr_eq_if, if_pos (Int.natCast_nonneg n), Int.toNat_natCast,
    Nat.toList_repr]

/-- The text of a number other than zero is a numeral around it, after a minus if it is negative. -/
theorem spells_json (hx : x.dyadic? = some d) (hm : 0 < d.mantissa) :
    ∃ s v, x.json.toList = (if d.negative then '-' :: s else s) ∧ Spells s v ∧
      Binary.Around d.mantissa d.exponent v := by
  obtain ⟨hc, _⟩ := unpack_of_dyadic? hx hm
  unfold json Layout.text
  rw [hx]
  split
  · next _ n hsafe =>
    have hwhole : d.isWhole ∧ d.trunc = n := by
      unfold safeInt? at hsafe
      rw [hx] at hsafe
      dsimp only at hsafe
      split at hsafe
      · next h => exact ⟨(Bool.and_eq_true_iff.mp h).1, Option.some.inj hsafe⟩
      · cases hsafe
    obtain ⟨j, hj, htrunc⟩ := exists_trunc hwhole.1
    have hpos : 0 < j := by
      have hcast : (0 : ℚ) < j := by
        rw [hj]
        positivity
      exact_mod_cast hcast
    refine ⟨Nat.toDigits 10 j, j, ?_, spells_nat j, ?_⟩
    · rw [← hwhole.2, htrunc]
      split
      · exact toList_toString_neg hpos
      · exact toList_toString_natCast j
    · rw [hj]
      exact Binary.around_self _ _
  · next heq => cases heq
  · next heq =>
    obtain rfl := Option.some.inj heq
    obtain ⟨v, hspells, haround⟩ := spells_decimal hc
    refine ⟨_, v, ?_, hspells, haround⟩
    rw [String.toList_append]
    split
    · rfl
    · rfl

/-- The text of a number other than zero is read back as the number. -/
theorem readNumber_json (hx : x.dyadic? = some d) (hm : 0 < d.mantissa) :
    readNumber x.json.toList = .ok (x, []) := by
  obtain ⟨s, v, htext, hspells, haround⟩ := spells_json hx hm
  have hread := readNumeral_of_spells hspells hx hm haround
  rw [htext]
  cases hneg : d.negative with
  | true =>
    rw [hneg] at hread
    exact hread
  | false =>
    rw [hneg] at hread
    show readNumber s = _
    rw [readNumber]
    · exact hread
    · rintro cs rfl
      cases hread

/-- Zero without its sign. -/
def zero : Number := Numeral.value ⟨false, ['0'], [], 0⟩

/-- A zero is written without its sign. -/
theorem json_of_zero (hx : x.dyadic? = some d) (hm : d.mantissa = 0) : x.json = "0" := by
  have htrunc : d.isWhole ∧ d.trunc = 0 := by
    have hsigned : d.signed = 0 := by
      unfold Dyadic.signed
      rw [hm]
      split
      · rfl
      · rfl
    constructor
    · unfold Dyadic.isWhole
      rw [hm, Nat.zero_mod, decide_eq_true rfl, Bool.or_true]
    · unfold Dyadic.trunc
      rw [hsigned]
      split
      · exact Int.zero_mul _
      · exact Int.zero_tdiv _
  have hsafe : x.safeInt? = some 0 := by
    unfold safeInt?
    rw [hx]
    dsimp only
    rw [htrunc.1, htrunc.2]
    rfl
  unfold json Layout.text
  rw [hsafe]
  show toString (0 : Int) = "0"
  rfl

/-- The text of a zero is read back as one without a sign. -/
theorem readNumber_json_zero (hx : x.dyadic? = some d) (hm : d.mantissa = 0) :
    readNumber x.json.toList = .ok (zero, []) := by
  rw [json_of_zero hx hm]
  rfl

/-- The text of a finite number without a sign is read back as the number. -/
theorem readNumber_json_of_nonneg (hx : x.dyadic? = some d) (hsign : d.negative = false) :
    readNumber x.json.toList = .ok (x, []) := by
  rcases Nat.eq_zero_or_pos d.mantissa with hm | hm
  · have hzero : x = zero := by
      have hunpack := unpack_of_dyadic?_zero hx hm
      rw [sign, hsign] at hunpack
      obtain ⟨f⟩ := x
      exact congrArg Number.mk (eq_of_unpack hunpack)
    rw [readNumber_json_zero hx hm, ← hzero]
  · exact readNumber_json hx hm

/-- The text of every finite number is decoded as a number that equals it. -/
theorem decodes_of_isFinite (h : x.isFinite) : x.decodes := by
  obtain ⟨d, hx⟩ := exists_dyadic h
  unfold decodes
  rcases Nat.eq_zero_or_pos d.mantissa with hm | hm
  · rw [readNumber_json_zero hx hm]
    have hunpack := unpack_of_dyadic?_zero hx hm
    show UnpackedFloat.beq zero.toFloat.toModel.unpack x.toFloat.toModel.unpack = true
    rw [hunpack]
    rfl
  · rw [readNumber_json hx hm]
    obtain ⟨hc, hunpack⟩ := unpack_of_dyadic? hx hm
    show UnpackedFloat.beq x.toFloat.toModel.unpack x.toFloat.toModel.unpack = true
    rw [hunpack]
    cases sign d
    · simp [UnpackedFloat.beq, UnpackedFloat.compare]
    · simp [UnpackedFloat.beq, UnpackedFloat.compare]

/-- There are three numbers that are not finite: the one that is no number, and two infinite ones. -/
theorem eq_of_not_isFinite (h : x.isFinite = false) :
    x = nan ∨ x = ofBits 0x7ff0000000000000 ∨ x = ofBits 0xfff0000000000000 := by
  have hunpack (y : Number) (hu : x.toFloat.toModel.unpack = y.toFloat.toModel.unpack) : x = y := by
    obtain ⟨f⟩ := x
    exact congrArg Number.mk (eq_of_unpack hu)
  have hfinite : x.toFloat.toModel.unpack.isFinite = false := h
  cases hu : x.toFloat.toModel.unpack with
  | notANumber => exact .inl (hunpack nan hu)
  | infinity s =>
    cases s with
    | positive => exact .inr (.inl (hunpack _ hu))
    | negative => exact .inr (.inr (hunpack _ hu))
  | zero s =>
    rw [hu] at hfinite
    cases hfinite
  | finite s m e hc =>
    rw [hu] at hfinite
    cases hfinite

/-- The digits that are written for a number denote it if and only if the number is finite. -/
theorem readsBack_iff_isFinite : x.readsBack = true ↔ x.isFinite = true := by
  constructor
  · intro h
    cases hfinite : x.isFinite with
    | true => rfl
    | false =>
      have hspecial : nan.readsBack = false ∧ (ofBits 0x7ff0000000000000).readsBack = false ∧
          (ofBits 0xfff0000000000000).readsBack = false := by decide +kernel
      obtain ⟨hnan, hpositive, hnegative⟩ := hspecial
      rcases eq_of_not_isFinite hfinite with rfl | rfl | rfl
      · exact hnan.symm.trans h
      · exact hpositive.symm.trans h
      · exact hnegative.symm.trans h
  · exact fun h => (of_decodes (decodes_of_isFinite h)).2

end JsonFilter.Number
