import JsonFilter.Proofs.Number.Exact
import JsonFilter.Proofs.Number.Unsigned

/-!
The numbers that are not finite. A NaN is neither below nor above anything, the infinite numbers lie
outside all others, rounding leaves all three as they are, and so does adding a finite number.
-/

namespace JsonFilter.Number

open Float.Model (UnpackedFloat)

variable {x y : Number}

/-! ## Comparisons -/

theorem compare_notANumber (u : UnpackedFloat) : u.compare .notANumber = none := by
  cases u <;> rfl

theorem not_lt_of_isNaN (hy : y.isNaN = true) : ¬x.toFloat < y.toFloat := by
  refine decide_eq_true_iff.symm.not.mp ?_
  show ¬(x.toFloat.toModel.unpack.compare y.toFloat.toModel.unpack == some .lt) = true
  rw [unpack_of_isNaN hy, compare_notANumber]
  exact Bool.false_ne_true

theorem not_le_of_isNaN (hy : y.isNaN = true) : ¬x.toFloat ≤ y.toFloat := by
  refine decide_eq_true_iff.symm.not.mp ?_
  show ¬(x.toFloat.toModel.unpack.compare y.toFloat.toModel.unpack).any (·.isLE) = true
  rw [unpack_of_isNaN hy, compare_notANumber]
  exact Bool.false_ne_true

section
variable (hx : x.isNaN = false) (hy : y.isNaN = false) (h : x.toFloat < y.toFloat)
include hx hy h

theorem not_lt_of_lt : ¬y.toFloat < x.toFloat := by
  have hgt := Std.OrientedCmp.gt_of_lt ((lt_iff_place hx hy).mp h)
  rw [lt_iff_place hy hx, hgt]
  decide

theorem not_le_of_lt : ¬y.toFloat ≤ x.toFloat := by
  have hgt := Std.OrientedCmp.gt_of_lt ((lt_iff_place hx hy).mp h)
  rw [le_iff_place hy hx, hgt]
  decide

end

/-! ## Infinite numbers -/

theorem unpack_pack_infinity (s : UnpackedFloat.Sign) :
    (Float.Model.pack (.infinity s)).unpack = .infinity s := by
  cases s <;> rfl

theorem unpack_infinity : infinity.toFloat.toModel.unpack = .infinity .positive := rfl

theorem unpack_neg_infinity : (-infinity).toFloat.toModel.unpack = .infinity .negative :=
  unpack_pack_infinity .negative

section
variable {s : UnpackedFloat.Sign} {p : ℚ}

theorem isNaN_of_infinity (h : x.toFloat.toModel.unpack = .infinity s) : x.isNaN = false := by
  show x.toFloat.toModel.unpack.isNaN = false
  rw [h]
  rfl

theorem lt_of_infinity_negative (hx : x.toFloat.toModel.unpack = .infinity .negative)
    (hy : y.toRat? = some p) : x.toFloat < y.toFloat := by
  rw [lt_iff_place (isNaN_of_infinity hx) (isNaN_of_toRat? hy), place, place, hx]
  obtain ⟨⟨s, hu⟩, -⟩ | ⟨s, m, e, hc, hu, -⟩ := unpack_of_toRat? hy <;> rw [hu] <;> cases s <;> rfl

theorem lt_of_infinity_positive (hx : x.toRat? = some p)
    (hy : y.toFloat.toModel.unpack = .infinity .positive) : x.toFloat < y.toFloat := by
  rw [lt_iff_place (isNaN_of_toRat? hx) (isNaN_of_infinity hy), place, place, hy]
  obtain ⟨⟨s, hu⟩, -⟩ | ⟨s, m, e, hc, hu, -⟩ := unpack_of_toRat? hx <;> rw [hu] <;> cases s <;> rfl

/-- An infinite number stays what it is when a finite one is added. -/
theorem unpack_add_infinity (hx : x.toFloat.toModel.unpack = .infinity s)
    (hy : y.toRat? = some p) : (x + y).toFloat.toModel.unpack = .infinity s := by
  rw [unpack_add, hx]
  obtain ⟨⟨t, hu⟩, -⟩ | ⟨t, m, e, hc, hu, -⟩ := unpack_of_toRat? hy <;> rw [hu]
  · exact unpack_pack_infinity s
  · exact unpack_pack_infinity s

theorem not_lt_zero_of_infinity (h : x.toFloat.toModel.unpack = .infinity .positive) :
    ¬x.toFloat < 0 :=
  not_lt_of_lt (isNaN_of_toRat? toRat?_zero) (isNaN_of_infinity h)
    (lt_of_infinity_positive toRat?_zero h)

end

/-! ## Rounding what is not finite -/

section
variable {rule : Dyadic → Int}

theorem dyadic?_of_isNaN (h : x.isNaN = true) : x.dyadic? = none := by
  refine Option.eq_none_iff_forall_not_mem.mpr fun d hd => ?_
  rw [isNaN_of_toRat? (toRat?_of_dyadic? hd)] at h
  cases h

theorem dyadic?_of_infinity {s : UnpackedFloat.Sign} (h : x.toFloat.toModel.unpack = .infinity s) :
    x.dyadic? = none := by
  refine Option.eq_none_iff_forall_not_mem.mpr fun d hd => ?_
  obtain ⟨⟨s, hu⟩, -⟩ | ⟨s, m, e, hc, hu, -⟩ := unpack_of_toRat? (toRat?_of_dyadic? hd) <;>
    rw [hu] at h <;> cases h

theorem roundBy_of_isNaN (h : x.isNaN = true) : x.roundBy rule = .undefined := by
  rw [roundBy, dyadic?_of_isNaN h]
  exact if_pos h

theorem roundBy_of_infinity_negative (h : x.toFloat.toModel.unpack = .infinity .negative) :
    x.roundBy rule = .below := by
  rw [roundBy, dyadic?_of_infinity h]
  dsimp only
  have hlt : x.toFloat < 0 := lt_of_infinity_negative h toRat?_zero
  rw [if_neg (by simp [isNaN_of_infinity h]), if_pos hlt]

theorem roundBy_of_infinity_positive (h : x.toFloat.toModel.unpack = .infinity .positive) :
    x.roundBy rule = .above := by
  rw [roundBy, dyadic?_of_infinity h]
  dsimp only
  rw [if_neg (by simp [isNaN_of_infinity h]), if_neg (not_lt_zero_of_infinity h)]

end

theorem nan_not_lt : ¬nan.toFloat < 0 := by decide

theorem infinity_not_lt : ¬infinity.toFloat < 0 := not_lt_zero_of_infinity unpack_infinity

end JsonFilter.Number
