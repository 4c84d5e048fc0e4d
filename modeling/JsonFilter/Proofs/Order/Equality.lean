import JsonFilter.Operation.Arithmetic
import JsonFilter.Proofs.Order.Alike

/-!
The comparison operators against the order of values. The four inequalities follow the order, while
equality follows the arithmetic standard at the numbers inside: two values are equal where the order
does not tell them apart and there is no NaN in them. So the operators follow one order on all
values but those with a NaN inside that the order does not tell apart.
-/

namespace JsonFilter

namespace Value

/-- Whether a value is the NaN. -/
def isNaN : Value → Bool
  | .number n => n.isNaN
  | _ => false

/-- Whether the NaN is a value or somewhere inside it. -/
def hasNaN (v : Value) : Bool := v.walk.any isNaN

theorem any_walkFields (fs : List (String × Value)) :
    (walkFields fs).any isNaN = fs.any fun f => f.2.hasNaN := by
  induction fs with
  | nil => rfl
  | cons f fs ih => rw [walkFields, List.any_append, ih, List.any_cons, hasNaN]

mutual

theorem hasNaN_sortKeys : ∀ v : Value, v.sortKeys.hasNaN = v.hasNaN
  | .null => rfl
  | .bool _ => rfl
  | .number _ => rfl
  | .string _ => rfl
  | .array items => any_walkList_sortKeysList items
  | .object fields => by
    show (walkFields (Fields.sorted (sortKeysFields fields))).any isNaN = (walkFields fields).any isNaN
    rw [any_walkFields, Fields.sorted, (List.mergeSort_perm _ _).any_eq, ← any_walkFields,
      any_walkFields_sortKeysFields fields]

theorem any_walkList_sortKeysList : ∀ vs : List Value,
    (walkList (sortKeysList vs)).any isNaN = (walkList vs).any isNaN
  | [] => rfl
  | v :: vs => by
    rw [sortKeysList, walkList, walkList, List.any_append, List.any_append,
      any_walkList_sortKeysList vs]
    exact congrArg (· || _) (hasNaN_sortKeys v)

theorem any_walkFields_sortKeysFields : ∀ fs : List (String × Value),
    (walkFields (sortKeysFields fs)).any isNaN = (walkFields fs).any isNaN
  | [] => rfl
  | (_, v) :: fs => by
    rw [sortKeysFields, walkFields, walkFields, List.any_append, List.any_append,
      any_walkFields_sortKeysFields fs]
    exact congrArg (· || _) (hasNaN_sortKeys v)

end

theorem rank_eq_of_beqSorted {a b : Value} (h : beqSorted a b = true) : a.rank = b.rank := by
  unfold beqSorted at h
  split at h <;> first | rfl | contradiction | skip
  rename_i c d
  rw [eq_of_beq h]

theorem rank_eq_of_cmpSorted {a b : Value} (h : cmpSorted a b = .eq) : a.rank = b.rank := by
  by_cases hrank : a.rank = b.rank
  · exact hrank
  · rw [cmpSorted_of_rank_ne hrank, Nat.compare_eq_eq] at h
    exact h

theorem beqSorted_iff_of_rank_ne {a b : Value} (h : a.rank ≠ b.rank) :
    beqSorted a b = true ↔ cmpSorted a b = .eq ∧ a.hasNaN = false :=
  iff_of_false (fun hb => h (rank_eq_of_beqSorted hb)) fun hc => h (rank_eq_of_cmpSorted hc.1)

mutual

theorem beqSorted_iff : ∀ a b : Value,
    beqSorted a b = true ↔ cmpSorted a b = .eq ∧ a.hasNaN = false
  | .null, b => by
    cases b with
    | null => exact iff_of_true rfl ⟨rfl, rfl⟩
    | _ => exact beqSorted_iff_of_rank_ne (by grind [rank, rank_bool])
  | .bool c, b => by
    cases b with
    | bool d => revert c d; decide
    | _ => exact beqSorted_iff_of_rank_ne (by grind [rank, rank_bool])
  | .number m, b => by
    cases b with
    | number n =>
      refine Number.beq_iff_cmp.trans (and_congr_right fun _ => ?_)
      show _ ↔ (m.isNaN || false) = false
      rw [Bool.or_false]
    | _ => exact beqSorted_iff_of_rank_ne (by grind [rank, rank_bool])
  | .string s, b => by
    cases b with
    | string t =>
      rw [beqSorted, beq_iff_eq, cmpSorted, Std.LawfulEqOrd.compare_eq_iff_eq]
      exact (and_iff_left rfl).symm
    | _ => exact beqSorted_iff_of_rank_ne (by grind [rank, rank_bool])
  | .array as, b => by
    cases b with
    | array bs => exact beqSortedList_iff as bs
    | _ => exact beqSorted_iff_of_rank_ne (by grind [rank, rank_bool])
  | .object as, b => by
    cases b with
    | object bs =>
      rw [beqSorted, beqSortedFields_iff as bs, cmpSorted, Ordering.then_eq_eq, cmpKeys_eq_iff,
        and_assoc]
      rfl
    | _ => exact beqSorted_iff_of_rank_ne (by grind [rank, rank_bool])

theorem beqSortedList_iff : ∀ as bs : List Value,
    beqSortedList as bs = true ↔ cmpSortedList as bs = .eq ∧ (walkList as).any isNaN = false
  | [], [] => iff_of_true rfl ⟨rfl, rfl⟩
  | [], _ :: _ => iff_of_false Bool.false_ne_true fun h => nomatch h.1
  | _ :: _, [] => iff_of_false Bool.false_ne_true fun h => nomatch h.1
  | a :: as, b :: bs => by
    rw [beqSortedList, Bool.and_eq_true, beqSorted_iff a b, beqSortedList_iff as bs, cmpSortedList,
      Ordering.then_eq_eq, walkList, List.any_append, Bool.or_eq_false_iff]
    exact and_and_and_comm

theorem beqSortedFields_iff : ∀ as bs : List (String × Value),
    beqSortedFields as bs = true ↔
      Fields.keys as = Fields.keys bs ∧ cmpSortedFields as bs = .eq ∧
        (walkFields as).any isNaN = false
  | [], [] => iff_of_true rfl ⟨rfl, rfl, rfl⟩
  | [], _ :: _ => iff_of_false Bool.false_ne_true fun h => nomatch h.1
  | _ :: _, [] => iff_of_false Bool.false_ne_true fun h => nomatch h.1
  | (j, a) :: as, (k, b) :: bs => by
    have hkeys : Fields.keys ((j, a) :: as) = Fields.keys ((k, b) :: bs) ↔
        j = k ∧ Fields.keys as = Fields.keys bs := List.cons_eq_cons
    rw [beqSortedFields, Bool.and_eq_true, Bool.and_eq_true, beq_iff_eq, beqSorted_iff a b,
      beqSortedFields_iff as bs, hkeys, cmpSortedFields, Ordering.then_eq_eq, walkFields,
      List.any_append, Bool.or_eq_false_iff]
    show _ ↔ (_ ∧ _) ∧ (_ ∧ _) ∧ (a.hasNaN = false ∧ _)
    grind

end

/-- Two values are equal where the order does not tell them apart and there is no NaN in them. -/
theorem beq_iff (a b : Value) : (a == b) = true ↔ cmp a b = .eq ∧ a.hasNaN = false := by
  rw [← hasNaN_sortKeys a]
  exact beqSorted_iff a.sortKeys b.sortKeys

end Value

/-! ## Operators -/

namespace BinaryOp

/-- Whether an operator gives `true` on two values. -/
def Holds (op : BinaryOp) (a b : Value) : Prop := op.apply a b = .ok (.bool true)

/-- The comparison operators follow one total order on two values: just one of the three relations
holds, and the other operators are what these make of them. -/
structure FollowOrder (a b : Value) : Prop where
  below : lt.Holds a b ↔ ¬ eq.Holds a b ∧ ¬ gt.Holds a b
  equal : eq.Holds a b ↔ ¬ lt.Holds a b ∧ ¬ gt.Holds a b
  above : gt.Holds a b ↔ ¬ lt.Holds a b ∧ ¬ eq.Holds a b
  notAbove : le.Holds a b ↔ lt.Holds a b ∨ eq.Holds a b
  notBelow : ge.Holds a b ↔ gt.Holds a b ∨ eq.Holds a b
  different : ne.Holds a b ↔ ¬ eq.Holds a b

theorem ok_bool_iff (c : Bool) :
    (Except.ok (.bool c) : Except Fault Value) = .ok (.bool true) ↔ c = true := by
  cases c <;> simp

variable {a b : Value}

theorem lt_holds : lt.Holds a b ↔ Value.cmp a b = .lt :=
  (ok_bool_iff _).trans beq_iff_eq

theorem gt_holds : gt.Holds a b ↔ Value.cmp a b = .gt :=
  (ok_bool_iff _).trans (beq_iff_eq.trans Std.OrientedCmp.gt_iff_lt.symm)

theorem le_holds : le.Holds a b ↔ Value.cmp a b ≠ .gt :=
  (ok_bool_iff _).trans bne_iff_ne

theorem ge_holds : ge.Holds a b ↔ Value.cmp a b ≠ .lt :=
  (ok_bool_iff _).trans (bne_iff_ne.trans (not_congr Std.OrientedCmp.gt_iff_lt))

theorem eq_holds : eq.Holds a b ↔ Value.cmp a b = .eq ∧ a.hasNaN = false :=
  (ok_bool_iff _).trans (Value.beq_iff a b)

theorem ne_holds : ne.Holds a b ↔ ¬ eq.Holds a b := by
  refine (ok_bool_iff _).trans (Iff.trans ?_ (not_congr (ok_bool_iff _)).symm)
  simp

/-- The comparison operators follow the order of values on all values but those that the order does
not tell apart and that have a NaN inside. On these neither is below the other and they are not
equal, while each is "not above" and "not below" the other. -/
theorem followOrder_iff (a b : Value) :
    (FollowOrder a b ↔ ¬ (Value.cmp a b = .eq ∧ a.hasNaN = true)) ∧
      (Value.cmp a b = .eq → a.hasNaN = true →
        ¬ lt.Holds a b ∧ ¬ eq.Holds a b ∧ ¬ gt.Holds a b ∧
          le.Holds a b ∧ ge.Holds a b ∧ ne.Holds a b) := by
  refine ⟨⟨fun h => ?_, fun h => ?_⟩, fun hcmp hnan => ?_⟩
  · rintro ⟨hcmp, hnan⟩
    have heq : eq.Holds a b := h.equal.mpr ⟨by simp [lt_holds, hcmp], by simp [gt_holds, hcmp]⟩
    exact Bool.noConfusion ((eq_holds.mp heq).2.symm.trans hnan)
  · have heq : eq.Holds a b ↔ Value.cmp a b = .eq := by
      rw [eq_holds]
      grind
    constructor <;>
      simp only [ne_holds, lt_holds, gt_holds, le_holds, ge_holds, heq] <;>
      cases Value.cmp a b <;> decide
  · simp [ne_holds, lt_holds, gt_holds, le_holds, ge_holds, eq_holds, hcmp, hnan]

/-- An array with a NaN, compared with itself. -/
theorem followOrder_iff_nan :
    let a : Value := .array [.number .nan]
    ¬ FollowOrder a a ∧ ¬ eq.Holds a a ∧ le.Holds a a := by
  intro a
  have hcmp : Value.cmp a a = .eq := Std.ReflCmp.compare_self
  have hnan : a.hasNaN = true := by decide +kernel
  obtain ⟨hlaws, hnone⟩ := followOrder_iff a a
  obtain ⟨-, heq, -, hle, -⟩ := hnone hcmp hnan
  exact ⟨fun h => hlaws.mp h ⟨hcmp, hnan⟩, heq, hle⟩

end BinaryOp

end JsonFilter
