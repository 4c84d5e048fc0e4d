import JsonFilter.Eval
import JsonFilter.Proofs.Limits
import JsonFilter.Proofs.Number.Increment
import Mathlib.Data.Fintype.EquivFin

/-!
Counting by one. There are finitely many numbers, so a count that gets larger with each step comes to
its bound. It may fail to get larger: from 2 ^ 53 on, adding one to a number may give that number
again, and then the count goes on for ever.
-/

namespace JsonFilter

namespace Number

instance : Finite Number := by
  refine Finite.of_injective (fun x : Number => x.toFloat.toModel.toBits.toBitVec.toFin) ?_
  rintro ⟨⟨⟨⟨⟨x⟩⟩, _⟩⟩⟩ ⟨⟨⟨⟨⟨y⟩⟩, _⟩⟩⟩ rfl
  rfl

/-- One number is above another one. -/
def Above (x y : Number) : Prop := y.cmp x = .lt

instance : IsTrans Number Above := ⟨fun _ _ _ hxy hyz => Std.TransCmp.lt_trans hyz hxy⟩

instance : Std.Irrefl Above := ⟨fun x h => by
  have hself : x.cmp x = .eq := Std.ReflCmp.compare_self
  rw [Above, hself] at h
  cases h⟩

/-- The numbers that counting by one gets through: their size is at most 2 ^ 53. -/
def Modest (n : Number) : Prop :=
  (Number.ofInt (-2 ^ 53)).cmp n ≠ .gt ∧ n.cmp (Number.ofInt (2 ^ 53)) ≠ .gt

instance (n : Number) : Decidable n.Modest := inferInstanceAs (Decidable (_ ∧ _))

/-- There is no going up for ever. -/
instance : WellFoundedRelation Number := ⟨Above, Finite.wellFounded_of_trans_of_irrefl Above⟩

end Number

namespace Filter

/-- Counts up by one while the count is below a bound and gets larger. Where it does not get larger,
the sequence breaks off. -/
def countUp (upto n : Number) : Stream :=
  if n.cmp upto = .lt then
    .yield (.ok (.number n)) fun _ =>
      if _ : n.cmp (n + 1) = .lt then countUp upto (n + 1) else .unfinished
  else .done
termination_by n

/-- The numbers from one bound up to another, as far as the count gets larger. -/
def exactCount (low upto : Number) : Stream :=
  if low.isNaN || upto.isNaN then .done else countUp upto low

/-- As the horizon grows, a count comes to what it is without one, as far as it gets larger. -/
theorem countFrom_limit (upto n : Number) :
    Outputs.Limit (fun h => countFrom h n upto) (countUp upto n) := by
  induction n using countUp.induct upto with
  | case1 n hlt ih =>
    have hyield : ∀ᶠ h in Filter.atTop, countFrom h n upto =
        .yield (.ok (.number n)) fun _ => countFrom (h - 1) (n + 1) upto := by
      filter_upwards [Filter.eventually_ge_atTop 1] with h hh
      obtain ⟨k, rfl⟩ := Nat.exists_eq_add_of_le' hh
      rw [countFrom, if_pos hlt, Nat.add_sub_cancel]
    rw [countUp, if_pos hlt]
    refine .yield hyield ?_
    split
    · next hgrows => exact (ih hgrows).comp (Filter.tendsto_sub_atTop_nat 1)
    · exact .unfinished _
  | case2 n hge =>
    rw [countUp, if_neg hge]
    refine .done ?_
    filter_upwards [Filter.eventually_ge_atTop 1] with h hh
    obtain ⟨k, rfl⟩ := Nat.exists_eq_add_of_le' hh
    rw [countFrom, if_neg hge]

theorem count_limit (low upto : Number) :
    Outputs.Limit (fun h => count h low upto) (exactCount low upto) := by
  unfold count exactCount
  split
  · exact .refl _
  · exact countFrom_limit upto low

/-! ## Counts that end and counts that do not -/

/-- A count from -2 ^ 53 on and up to 2 ^ 53 gets larger with each step, so it ends. -/
theorem countUp_stops {upto n : Number} (hlow : (Number.ofInt (-2 ^ 53)).cmp n ≠ .gt)
    (hupto : upto.cmp (Number.ofInt (2 ^ 53)) ≠ .gt) : (countUp upto n).stops = true := by
  induction n using countUp.induct upto with
  | case1 n hlt ih =>
    have hhigh : n.cmp (Number.ofInt (2 ^ 53)) = .lt :=
      Std.TransCmp.lt_of_lt_of_isLE hlt (Ordering.isLE_iff_ne_gt.mpr hupto)
    have hgrows := Number.lt_add_one hlow hhigh
    have hlow' : (Number.ofInt (-2 ^ 53)).cmp (n + 1) = .lt :=
      Std.TransCmp.lt_of_isLE_of_lt (Ordering.isLE_iff_ne_gt.mpr hlow) hgrows
    rw [countUp, if_pos hlt]
    show Outputs.stops (if _ : n.cmp (n + 1) = .lt then countUp upto (n + 1) else _) = true
    rw [dif_pos hgrows]
    exact ih hgrows (by rw [hlow']; exact Ordering.noConfusion)
  | case2 n hge =>
    rw [countUp, if_neg hge]
    rfl

theorem exactCount_stops {low upto : Number} (hlow : (Number.ofInt (-2 ^ 53)).cmp low ≠ .gt)
    (hupto : upto.cmp (Number.ofInt (2 ^ 53)) ≠ .gt) : (exactCount low upto).stops = true := by
  unfold exactCount
  split
  · rfl
  · exact countUp_stops hlow hupto

/-- A count that adding one leaves where it is, below its bound, stays there for ever. -/
theorem countFrom_of_add_one_eq {n upto : Number} (h : n + 1 = n) (hlt : n.cmp upto = .lt)
    (horizon : Nat) :
    (countFrom horizon n upto).items = List.replicate horizon (.ok (.number n)) ∧
      (countFrom horizon n upto).stops = false := by
  induction horizon with
  | zero => exact ⟨rfl, rfl⟩
  | succ horizon ih =>
    rw [countFrom, if_pos hlt, h]
    exact ⟨congrArg (_ :: ·) ih.1, ih.2⟩

end Filter

end JsonFilter
