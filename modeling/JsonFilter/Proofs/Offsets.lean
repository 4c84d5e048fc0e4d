import JsonFilter.Operation.Builtin
import JsonFilter.Proofs.Number.Special

/-!
Offsets into a container in binary64 arithmetic. A number is rounded to an integer, the length is
added to one below zero, and what comes out is made a size of 64 bits. Among at most 2^53 items
none of these steps loses anything, so the offset is the place that the number names, and the ends
of a stretch are the ones that are moved into range.
-/

namespace JsonFilter

namespace Number

variable {x : Number} {length : Nat} {i : Int} {w : Whole}

/-! ## Sizes -/

/-- The greatest 64-bit size. -/
def maxSize : Nat := Nat.pow 2 64 - 1

/-- The integer part of a number as a 64-bit size: a NaN and what is below zero count as zero, and
what is beyond the range counts as its end. -/
def toSize (x : Number) : Nat :=
  match x.roundBy Dyadic.trunc with
  | .undefined => 0
  | .below => 0
  | .above => maxSize
  | .exact n => min maxSize n.toNat

theorem toSize_of_toRat? (h : x.toRat? = some (i : ℚ)) : x.toSize = min maxSize i.toNat := by
  obtain ⟨d, hd, hvalue⟩ := Option.map_eq_some_iff.mp h
  rw [toSize, roundBy, hd]
  show min maxSize d.trunc.toNat = _
  rw [d.trunc_eq, hvalue, integerPart_intCast]

/-! ## Rounded numbers -/

/-- A rounded number as a number again. A zero has lost its sign, which nothing here looks at. -/
def ofWhole : Whole → Number
  | .undefined => nan
  | .below => -infinity
  | .above => infinity
  | .exact n => ofInt n

/-- Rounded numbers whose integers are numbers. -/
def IsNumber : Whole → Prop
  | .exact n => Representable n
  | _ => True

theorem isNumber_roundBy {rule : Dyadic → Int}
    (h : ∀ d, x.dyadic? = some d → Representable (rule d)) : IsNumber (x.roundBy rule) := by
  unfold roundBy
  cases hd : x.dyadic? with
  | some d => exact h d hd
  | none =>
    dsimp only
    split
    · trivial
    · split <;> trivial

/-- A number that is rounded down is a number. -/
theorem isNumber_floor (x : Number) : IsNumber x.floor := by
  refine isNumber_roundBy fun d hd => ?_
  rw [d.floor_eq]
  exact (representable_of_toRat? (toRat?_of_dyadic? hd)).floor

/-- A number that is rounded up is a number. -/
theorem isNumber_ceil (x : Number) : IsNumber x.ceil := by
  refine isNumber_roundBy fun d hd => ?_
  rw [d.ceil_eq]
  exact (representable_of_toRat? (toRat?_of_dyadic? hd)).ceil

/-! ## Counting from the end -/

/-- A number, with the length added to one below zero. -/
def fromStart (length : Nat) (x : Number) : Number :=
  if x.toFloat < 0 then x + ofNat length else x

/-- The offset of an item that a number names: the number is rounded down, counted from the end if
it is below zero, and made a size. -/
def offset? (length : Nat) (n : Number) : Option Nat :=
  let x := fromStart length (ofWhole n.floor)
  if x.toFloat < 0 then none else some x.toSize

/-- A number moved into the range from zero to the length. -/
def moved (length : Nat) (x : Number) : Number :=
  if x.toFloat < 0 then 0
  else if (ofNat length).toFloat < x.toFloat then ofNat length
  else x

/-- The offset of an end of a stretch, from its rounded bound. -/
def endpoint (length : Nat) (w : Whole) : Nat :=
  (moved length (fromStart length (ofWhole w))).toSize

/-- The offsets of the two ends of a stretch. -/
def endpoints (length : Nat) (low high : Option Number) : Nat × Nat :=
  let first := low.elim 0 fun n => endpoint length n.floor
  let past := high.elim length fun n => endpoint length n.ceil
  (first, max past first)

/-- An integer, with the length added to one below zero. -/
def placeFrom (length : Nat) (i : Int) : Int := if i < 0 then i + length else i

theorem place?_of_floor {n : Number} (h : n.floor = .exact i) : Value.place? length n =
    if placeFrom length i < 0 then none else some (placeFrom length i).toNat := by
  rw [Value.place?, h]
  rfl

theorem clamp_exact (length : Nat) (i : Int) :
    Value.clamp length (.exact i) = min length (placeFrom length i).toNat := rfl

/-- What a rounded number becomes when it is counted from the end: a NaN and an infinite number stay
what they are, an integer is one still or falls below zero. -/
inductive Counted (length : Nat) : Whole → Number → Prop where
  | undefined : Counted length .undefined nan
  | below {x : Number} (hx : x.toFloat < 0) : Counted length .below x
  | above : Counted length .above infinity
  | before {i : Int} {x : Number} (hi : placeFrom length i < 0) (hx : x.toFloat < 0) :
      Counted length (.exact i) x
  | exact {i : Int} {x : Number} (hi : 0 ≤ placeFrom length i)
      (hx : x.toRat? = some (placeFrom length i : ℚ)) : Counted length (.exact i) x

/-- Adding the length to a number below zero leads to no infinite number. -/
theorem abs_add_length_le (hi : Representable i) (hneg : i < 0) (hlength : length ≤ 2 ^ 53) :
    |(i : ℚ) + (length : ℚ)| ≤ Binary.greatest := by
  have hlow := (abs_le.mp hi.abs_le).1
  have hhigh := (abs_le.mp (representable_of_natAbs_le (n := length) hlength).abs_le).2
  have hnonneg : (0 : ℚ) ≤ length := length.cast_nonneg
  have hnonpos : (i : ℚ) ≤ 0 := by exact_mod_cast hneg.le
  rw [Int.cast_natCast] at hhigh
  exact abs_le.mpr ⟨by linarith, by linarith⟩

/-- An integer is counted from the end without an error. -/
theorem counted_ofInt (hi : Representable i) (hlength : length ≤ 2 ^ 53) :
    Counted length (.exact i) (fromStart length (ofInt i)) := by
  have hrat := toRat?_ofInt hi
  have hlt : (ofInt i).toFloat < 0 ↔ i < 0 := (lt_zero_iff hrat).trans Int.cast_lt_zero
  unfold fromStart
  by_cases hneg : i < 0
  · have hplace : placeFrom length i = i + length := if_pos hneg
    have hcast : (i : ℚ) + (length : ℚ) = (placeFrom length i : ℚ) := by
      rw [hplace]
      push_cast
      rfl
    obtain ⟨r, hr, hexact, hsign⟩ :=
      exists_toRat?_add hrat (toRat?_ofNat hlength) (abs_add_length_le hi hneg hlength)
    rw [hcast] at hexact hsign
    rw [if_pos (hlt.mpr hneg)]
    rcases lt_or_ge (placeFrom length i) 0 with hplace0 | hplace0
    · exact .before hplace0 ((lt_zero_iff hr).mpr (hsign (by exact_mod_cast hplace0)))
    · rw [hexact (representable_of_natAbs_le (by omega))] at hr
      exact .exact hplace0 hr
  · have hplace : placeFrom length i = i := if_neg hneg
    rw [if_neg (hlt.not.mpr hneg)]
    exact .exact (by omega) (by rw [hplace, hrat])

theorem counted_fromStart (hw : IsNumber w) (hlength : length ≤ 2 ^ 53) :
    Counted length w (fromStart length (ofWhole w)) := by
  cases w with
  | undefined =>
    rw [ofWhole, fromStart, if_neg nan_not_lt]
    exact .undefined
  | below =>
    have hlt : (-infinity).toFloat < 0 := lt_of_infinity_negative unpack_neg_infinity toRat?_zero
    rw [ofWhole, fromStart, if_pos hlt]
    exact .below (lt_of_infinity_negative
      (unpack_add_infinity unpack_neg_infinity (toRat?_ofNat hlength)) toRat?_zero)
  | above =>
    rw [ofWhole, fromStart, if_neg infinity_not_lt]
    exact .above
  | exact i => exact counted_ofInt hw hlength

/-! ## Offsets of items -/

theorem toSize_nan : nan.toSize = 0 := by decide

theorem toSize_infinity : infinity.toSize = maxSize := by decide

theorem toSize_zero : (0 : Number).toSize = 0 := toSize_of_toRat? (i := 0) toRat?_zero

/-- A place that is cut down to a size of 64 bits is the same place, or none. -/
theorem getElem?_min_maxSize {α : Type} {items : List α} (h : items.length ≤ 2 ^ 53) (k : Nat) :
    items[min maxSize k]? = items[k]? := by
  have hmax : maxSize = 2 ^ 64 - 1 := rfl
  rcases Nat.lt_or_ge k (2 ^ 53) with hk | hk
  · rw [Nat.min_eq_right (by omega)]
  · rw [List.getElem?_eq_none (by omega), List.getElem?_eq_none (by omega)]

/-- The offset that a number names leads to the item at its place. -/
theorem offset?_bind {α : Type} {items : List α} (h : items.length ≤ 2 ^ 53) (n : Number) :
    (offset? items.length n).bind (items[·]?) = (Value.place? items.length n).bind (items[·]?) := by
  have hcounted := counted_fromStart (isNumber_floor n) h
  unfold offset?
  generalize fromStart items.length (ofWhole n.floor) = x at hcounted
  generalize hfloor : n.floor = w at hcounted
  cases hcounted with
  | undefined =>
    rw [Value.place?, hfloor]
    dsimp only
    rw [if_neg nan_not_lt, toSize_nan]
  | below hx =>
    rw [Value.place?, hfloor]
    dsimp only
    rw [if_pos hx]
  | above =>
    rw [Value.place?, hfloor]
    dsimp only
    rw [if_neg infinity_not_lt, toSize_infinity]
    exact List.getElem?_eq_none (h.trans (by decide))
  | before hi hx =>
    rw [place?_of_floor hfloor, if_pos hi]
    dsimp only
    rw [if_pos hx]
  | exact hi hx =>
    have hnot : ¬x.toFloat < 0 := (lt_zero_iff hx).not.mpr (by exact_mod_cast hi.not_gt)
    rw [place?_of_floor hfloor, if_neg hi.not_gt]
    dsimp only
    rw [if_neg hnot, toSize_of_toRat? hx]
    exact getElem?_min_maxSize h _

/-! ## Ends of stretches -/

/-- The offset of an end of a stretch is the bound moved into range. -/
theorem endpoint_eq (hw : IsNumber w) (hlength : length ≤ 2 ^ 53) :
    endpoint length w = Value.clamp length w := by
  have hmax : maxSize = 2 ^ 64 - 1 := rfl
  have hrat := toRat?_ofNat hlength
  have hsize : (ofNat length).toSize = length := by
    rw [toSize_of_toRat? (i := length) hrat]
    omega
  have hcounted := counted_fromStart hw hlength
  unfold endpoint moved
  generalize fromStart length (ofWhole w) = x at hcounted
  cases hcounted with
  | undefined =>
    rw [if_neg nan_not_lt, if_neg (not_lt_of_isNaN (by decide)), toSize_nan]
    rfl
  | below hx =>
    rw [if_pos hx, toSize_zero]
    rfl
  | above =>
    rw [if_neg infinity_not_lt, if_pos (lt_of_infinity_positive hrat unpack_infinity), hsize]
    rfl
  | before hi hx =>
    rw [clamp_exact, if_pos hx, toSize_zero]
    omega
  | @exact i x hi hx =>
    have hnot : ¬x.toFloat < 0 := (lt_zero_iff hx).not.mpr (by exact_mod_cast hi.not_gt)
    have hlt : (ofNat length).toFloat < x.toFloat ↔ length < placeFrom length i := by
      rw [lt_iff hrat hx]
      exact_mod_cast Iff.rfl
    rw [clamp_exact, if_neg hnot]
    rcases lt_or_ge (length : Int) (placeFrom length i) with habove | hin
    · rw [if_pos (hlt.mpr habove), hsize]
      omega
    · rw [if_neg (hlt.not.mpr hin.not_gt), toSize_of_toRat? hx]
      omega

section
variable (low high : Option Number) (hlength : length ≤ 2 ^ 53)
include hlength

/-- A stretch runs from the first of its ends to the second. -/
theorem stretch_eq : Value.stretch length low high =
    ((endpoints length low high).1,
      (endpoints length low high).2 - (endpoints length low high).1) := by
  have hfloor (n : Number) := endpoint_eq (isNumber_floor n) hlength
  have hceil (n : Number) := endpoint_eq (isNumber_ceil n) hlength
  unfold Value.stretch endpoints
  cases low <;> cases high <;> simp only [Option.elim, hfloor, hceil, Prod.mk.injEq, true_and] <;>
    omega

/-- The ends of a stretch lie in the container, and the first is not behind the second. -/
theorem endpoints_le : (endpoints length low high).1 ≤ (endpoints length low high).2 ∧
    (endpoints length low high).2 ≤ length := by
  have hclamp (w : Whole) : Value.clamp length w ≤ length := by
    cases w <;> simp [Value.clamp]
  have hfloor (n : Number) : endpoint length n.floor ≤ length := by
    rw [endpoint_eq (isNumber_floor n) hlength]
    exact hclamp _
  have hceil (n : Number) : endpoint length n.ceil ≤ length := by
    rw [endpoint_eq (isNumber_ceil n) hlength]
    exact hclamp _
  unfold endpoints
  cases low <;> cases high <;> simp [hfloor, hceil]

end

/-! ## Places that a container has -/

/-- What a container has at a number is decided by two comparisons, without rounding. -/
theorem isPlace_eq (n : Number) (hlength : length ≤ 2 ^ 53) :
    Value.isPlace length n =
      (decide (0 ≤ n.toFloat) && decide (n.toFloat < (ofNat length).toFloat)) := by
  have hrat := toRat?_ofNat hlength
  have hlengthNaN := isNaN_of_toRat? hrat
  have hzeroNaN := isNaN_of_toRat? toRat?_zero
  rcases cases_toRat? n with hnan | ⟨s, hinfinity⟩ | ⟨p, hn⟩
  · rw [Value.isPlace, floor, roundBy_of_isNaN hnan, decide_eq_false (not_le_of_isNaN hnan)]
    rfl
  · cases s with
    | negative =>
      have hnot : ¬0 ≤ n.toFloat := not_le_of_lt (isNaN_of_infinity hinfinity) hzeroNaN
        (lt_of_infinity_negative hinfinity toRat?_zero)
      rw [Value.isPlace, floor, roundBy_of_infinity_negative hinfinity, decide_eq_false hnot]
      rfl
    | positive =>
      have hlt := lt_of_infinity_positive hrat hinfinity
      rw [Value.isPlace, floor, roundBy_of_infinity_positive hinfinity,
        decide_eq_false (not_lt_of_lt hlengthNaN (isNaN_of_infinity hinfinity) hlt), Bool.and_false]
  · have hzero : 0 ≤ n.toFloat ↔ 0 ≤ p := le_iff toRat?_zero hn
    rw [Value.isPlace, floor_eq hn]
    simp only [hzero, lt_iff hn hrat]
    congr 1
    · exact decide_eq_decide.mpr Int.floor_nonneg
    · exact decide_eq_decide.mpr (by rw [Int.floor_lt, Int.cast_natCast])

end Number

end JsonFilter
