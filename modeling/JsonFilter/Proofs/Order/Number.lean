import JsonFilter.Number.Basic

/-!
The order of numbers is an order of places. Each number has a place, a list of integers, and two
numbers are compared as their places are; the lists are ordered lexicographically, so the order of
numbers is a total preorder. Comparison by the arithmetic standard follows the same places on all
numbers but the NaN, which has a place below all others and equals nothing there.
-/

namespace JsonFilter.Number

open Float.Model (UnpackedFloat)

/-- The place of an unpacked number: which part of the number line it is on, and for a nonzero
finite number how far out it is, the exponent before the mantissa. -/
def placeOf : UnpackedFloat → List Int
  | .notANumber => [-3]
  | .infinity .negative => [-2]
  | .finite .negative m e _ => [-1, -e, -m]
  | .zero _ => [0]
  | .finite .positive m e _ => [1, e, m]
  | .infinity .positive => [2]

/-- The place of a number in the order. -/
def place (x : Number) : List Int := placeOf x.toFloat.toModel.unpack

/-! ## Places of unpacked numbers -/

theorem compare_neg (a b : Int) : compare (-a) (-b) = (compare a b).swap := by
  rw [Int.compare_swap, Int.compare_eq_ite_lt, Int.compare_eq_ite_lt]
  grind

theorem compare_natCast (m n : Nat) : compare (m : Int) n = compare m n := by
  rw [Int.compare_eq_ite_lt, Nat.compare_eq_ite_lt]
  grind

theorem compare_pair (a b c d : Int) :
    compare [a, b] [c, d] = (compare a c).then (compare b d) := by
  rw [List.compare_cons_cons, List.compare_cons_cons, List.compare_nil_nil, Ordering.then_eq]

theorem compare_pair_lt_iff {a b c d : Int} :
    compare [a, b] [c, d] = .lt ↔ a < c ∨ a = c ∧ b < d := by
  rw [compare_pair]
  rcases Int.lt_trichotomy a c with h | rfl | h
  · rw [Int.compare_eq_lt.mpr h]
    exact iff_of_true rfl (.inl h)
  · rw [Std.compare_self]
    show compare b d = .lt ↔ _
    rw [Int.compare_eq_lt]
    omega
  · rw [Int.compare_eq_gt.mpr h]
    refine iff_of_false (fun h => by cases h) ?_
    omega

theorem compare_triple {a b c d k : Int} : compare [k, a, b] [k, c, d] = compare [a, b] [c, d] := by
  rw [List.compare_cons_cons, Std.compare_self]
  rfl

/-- Further out above zero is larger. -/
theorem compare_positive {m n : Nat} {e d : Int} (hm : 0 < m) (hn : 0 < n) :
    (UnpackedFloat.finite .positive m e hm).compare (.finite .positive n d hn)
      = some (compare (placeOf (.finite .positive m e hm)) (placeOf (.finite .positive n d hn))) := by
  show _ = some (compare [1, e, (m : Int)] [1, d, (n : Int)])
  rw [List.compare_cons_cons, Std.compare_self, compare_pair, compare_natCast]
  rfl

/-- Further out below zero is smaller. -/
theorem compare_negative {m n : Nat} {e d : Int} (hm : 0 < m) (hn : 0 < n) :
    (UnpackedFloat.finite .negative m e hm).compare (.finite .negative n d hn)
      = some (compare (placeOf (.finite .negative m e hm)) (placeOf (.finite .negative n d hn))) := by
  show _ = some (compare [-1, -e, -(m : Int)] [-1, -d, -(n : Int)])
  rw [List.compare_cons_cons, Std.compare_self, compare_pair, compare_neg, compare_neg,
    compare_natCast, ← Ordering.swap_then]
  rfl

/-- Numbers other than the NaN are compared as their places are. -/
theorem compare_eq_places {u v : UnpackedFloat} (hu : u.isNaN = false) (hv : v.isNaN = false) :
    u.compare v = some (compare (placeOf u) (placeOf v)) := by
  rcases u with (_ | _) | _ | _ | ⟨_ | _, m, e, hm⟩ <;>
  rcases v with (_ | _) | _ | _ | ⟨_ | _, n, d, hn⟩ <;>
  first
  | exact compare_positive hm hn
  | exact compare_negative hm hn
  | rfl
  | contradiction

theorem eq_notANumber {u : UnpackedFloat} (hu : u.isNaN = true) : u = .notANumber := by
  cases u <;> first | rfl | contradiction

/-- The NaN is below every other number. -/
theorem placeOf_nan_lt {v : UnpackedFloat} (hv : v.isNaN = false) :
    compare (placeOf .notANumber) (placeOf v) = .lt := by
  rcases v with (_ | _) | _ | _ | ⟨_ | _, n, d, hn⟩ <;> first | rfl | contradiction

/-! ## The order -/

section

variable {x y : Number}

theorem unpack_of_isNaN (h : x.isNaN = true) : x.toFloat.toModel.unpack = .notANumber :=
  eq_notANumber h

theorem place_lt_of_isNaN (hx : x.isNaN = true) (hy : y.isNaN = false) :
    compare x.place y.place = .lt := by
  rw [place, unpack_of_isNaN hx]
  exact placeOf_nan_lt hy

theorem lt_iff_place (hx : x.isNaN = false) (hy : y.isNaN = false) :
    x.toFloat < y.toFloat ↔ compare x.place y.place = .lt := by
  refine decide_eq_true_iff.trans ?_
  show (x.toFloat.toModel.unpack.compare y.toFloat.toModel.unpack == some .lt) = true ↔ _
  rw [compare_eq_places hx hy, beq_iff_eq, Option.some.injEq]
  rfl

theorem le_iff_place (hx : x.isNaN = false) (hy : y.isNaN = false) :
    x.toFloat ≤ y.toFloat ↔ (compare x.place y.place).isLE = true := by
  refine decide_eq_true_iff.trans ?_
  show (x.toFloat.toModel.unpack.compare y.toFloat.toModel.unpack).any (·.isLE) = true ↔ _
  rw [compare_eq_places hx hy]
  rfl

/-- Numbers other than the NaN are equal by the arithmetic standard where their places are. -/
theorem beq_iff_place (hx : x.isNaN = false) (hy : y.isNaN = false) :
    (x == y) = true ↔ compare x.place y.place = .eq := by
  show (x.toFloat.toModel.unpack.compare y.toFloat.toModel.unpack == some .eq) = true ↔ _
  rw [compare_eq_places hx hy, beq_iff_eq, Option.some.injEq]
  rfl

/-- The NaN equals nothing. -/
theorem beq_of_isNaN_left (hx : x.isNaN = true) (y : Number) : (x == y) = false := by
  show (x.toFloat.toModel.unpack.compare y.toFloat.toModel.unpack == some .eq) = false
  rw [unpack_of_isNaN hx]
  rfl

theorem beq_of_isNaN_right (x : Number) (hy : y.isNaN = true) : (x == y) = false := by
  show (x.toFloat.toModel.unpack.compare y.toFloat.toModel.unpack == some .eq) = false
  rw [unpack_of_isNaN hy]
  cases x.toFloat.toModel.unpack <;> rfl

/-- The order of numbers is the order of their places. -/
theorem cmp_eq_place (x y : Number) : x.cmp y = compare x.place y.place := by
  unfold cmp
  cases hx : x.isNaN <;> cases hy : y.isNaN
  · simp only [lt_iff_place hx hy, lt_iff_place hy hx]
    rw [Std.OrientedOrd.eq_swap (a := y.place)]
    cases compare x.place y.place <;> rfl
  · exact (Std.OrientedCmp.gt_of_lt (place_lt_of_isNaN hy hx)).symm
  · exact (place_lt_of_isNaN hx hy).symm
  · rw [place, place, unpack_of_isNaN hx, unpack_of_isNaN hy]
    exact Std.compare_self.symm

/-- The order of numbers is a total preorder, as the order of places is. -/
instance : Std.TransCmp cmp where
  eq_swap := by
    intro x y
    rw [cmp_eq_place, cmp_eq_place]
    exact Std.OrientedOrd.eq_swap
  isLE_trans := by
    intro x y z hxy hyz
    rw [cmp_eq_place] at hxy hyz ⊢
    exact Std.TransOrd.isLE_trans hxy hyz

instance : Std.TransOrd Number := inferInstanceAs (Std.TransCmp cmp)

/-- What the order does not tell apart: numbers equal by the arithmetic standard, and the NaN from
itself. -/
theorem cmp_eq_iff : x.cmp y = .eq ↔ x.isNaN = true ∧ y.isNaN = true ∨ (x == y) = true := by
  cases hx : x.isNaN <;> cases hy : y.isNaN
  · simp only [Bool.false_eq_true, false_and, false_or]
    rw [cmp_eq_place, beq_iff_place hx hy]
  · simp [cmp, hx, hy, beq_of_isNaN_right x hy]
  · simp [cmp, hx, hy, beq_of_isNaN_left hx y]
  · simp [cmp, hx, hy]

/-- Equality by the arithmetic standard is equality in the order, but for the NaN. -/
theorem beq_iff_cmp : (x == y) = true ↔ x.cmp y = .eq ∧ x.isNaN = false := by
  rw [cmp_eq_iff]
  cases hx : x.isNaN
  · simp
  · simp [beq_of_isNaN_left hx y]

end

end JsonFilter.Number
