import JsonFilter.Eval
import JsonFilter.Proofs.Order.Alike
import JsonFilter.Proofs.Outputs
import Mathlib.Data.List.Forall2
import Mathlib.Order.Antisymmetrization

/-!
Sorting by the order of values. The order is only a preorder: it does not tell apart values that are
alike, so an ascending list is not yet determined by its items. It is, if values that compare as
equal have to keep the order they came in: of all lists, exactly one is a stable sorting of a given
one, whatever the method. Sorting gives that list. Where only the items are the same, the sorted
lists compare as equal place by place.
-/

namespace JsonFilter.Value

variable {a b v : Value} {items sorted other : List Value}

/-! ## The order -/

theorem le_self (a : Value) : a.le a = true := le_iff_isLE.mpr Std.ReflCmp.isLE_rfl

theorem le_of_le_of_le (a b c : Value) (hab : a.le b = true) (hbc : b.le c = true) :
    a.le c = true := by
  rw [le_iff_isLE] at *
  exact Std.TransCmp.isLE_trans hab hbc

theorem le_or_le (a b : Value) : (a.le b || b.le a) = true := by
  have hswap : cmp b a = (cmp a b).swap := Std.OrientedCmp.eq_swap
  rw [Bool.or_eq_true, le_iff_isLE, le_iff_isLE, hswap]
  cases cmp a b <;> decide

/-- Whether two values compare as equal. -/
def ties (a b : Value) : Bool := cmp a b == .eq

theorem ties_iff : a.ties b = true ↔ cmp a b = .eq := beq_iff_eq

theorem ties_self (a : Value) : a.ties a = true := ties_iff.mpr Std.ReflCmp.compare_self

/-- Values tie where neither is above the other. -/
theorem ties_iff_le_le : a.ties b = true ↔ a.le b = true ∧ b.le a = true := by
  have hswap : cmp b a = (cmp a b).swap := Std.OrientedCmp.eq_swap
  rw [ties_iff, le_iff_isLE, le_iff_isLE, hswap]
  cases cmp a b <;> decide

/-! ## Stable sortings -/

/-- No item is below one before it. -/
def Ascending (items : List Value) : Prop := items.Pairwise fun a b => a.le b = true

/-- A list with the items of another one in ascending order, where items that tie have the order
that they have there. -/
structure StableSorting (items sorted : List Value) : Prop where
  perm : sorted.Perm items
  ascending : Ascending sorted
  stable : ∀ v : Value, sorted.filter v.ties = items.filter v.ties

/-- In an ascending list no item is below the first. -/
theorem Ascending.head_le (h : Ascending (a :: items)) (hb : b ∈ a :: items) : a.le b = true := by
  cases List.mem_cons.mp hb with
  | inl heq => exact heq ▸ le_self a
  | inr hmem => exact List.rel_of_pairwise_cons h hmem

theorem mem_iff_of_ties (hties : ∀ v : Value, sorted.filter v.ties = other.filter v.ties) :
    v ∈ sorted ↔ v ∈ other := by
  have hself (items : List Value) : v ∈ items ↔ v ∈ items.filter v.ties := by simp [ties_self]
  rw [hself sorted, hties v, ← hself other]

/-- Ascending lists that agree on the items that tie with any value agree on all items. -/
theorem eq_of_ascending (hs : Ascending sorted) (ho : Ascending other)
    (hties : ∀ v : Value, sorted.filter v.ties = other.filter v.ties) : sorted = other := by
  induction sorted generalizing other with
  | nil =>
    cases other with
    | nil => rfl
    | cons b other =>
      exact absurd ((mem_iff_of_ties hties).mpr List.mem_cons_self) List.not_mem_nil
  | cons a sorted ih =>
    cases other with
    | nil => exact absurd ((mem_iff_of_ties hties).mp List.mem_cons_self) List.not_mem_nil
    | cons b other =>
      -- Each head is in the other list too, so neither is above the other and they tie. They are
      -- the first of the items that tie with them, so they are the same.
      have hab : a.ties b = true := ties_iff_le_le.mpr
        ⟨hs.head_le ((mem_iff_of_ties hties).mpr List.mem_cons_self),
          ho.head_le ((mem_iff_of_ties hties).mp List.mem_cons_self)⟩
      have hheads := hties a
      rw [List.filter_cons_of_pos (ties_self a), List.filter_cons_of_pos hab] at hheads
      obtain rfl : a = b := (List.cons.inj hheads).1
      have htails (v : Value) : sorted.filter v.ties = other.filter v.ties := by
        have hv := hties v
        rw [List.filter_cons, List.filter_cons] at hv
        split at hv
        · exact (List.cons.inj hv).2
        · exact hv
      rw [ih (List.Pairwise.of_cons hs) (List.Pairwise.of_cons ho) htails]

/-- There is at most one stable sorting of a list. -/
theorem StableSorting.eq (hs : StableSorting items sorted) (ho : StableSorting items other) :
    sorted = other := by
  apply eq_of_ascending hs.ascending ho.ascending
  intro v
  rw [hs.stable, ho.stable]

/-! ## The sorting -/

theorem ascending_sortList (items : List Value) : Ascending (sortList items) :=
  List.pairwise_mergeSort le_of_le_of_le le_or_le items

/-- Items that tie are ascending in whatever order they come, so sorting keeps that order. -/
theorem filter_ties_sortList (items : List Value) (v : Value) :
    (sortList items).filter v.ties = items.filter v.ties := by
  have hperm : (sortList items).Perm items := List.mergeSort_perm items le
  have htied : Ascending (items.filter v.ties) := by
    refine List.pairwise_of_forall_mem_list ?_
    intro a ha b hb
    have hva := ties_iff_le_le.mp (List.mem_filter.mp ha).2
    have hvb := ties_iff_le_le.mp (List.mem_filter.mp hb).2
    exact le_of_le_of_le _ _ _ hva.2 hvb.1
  have hkept : (items.filter v.ties).Sublist (sortList items) :=
    List.sublist_mergeSort le_of_le_of_le le_or_le htied List.filter_sublist
  have hfiltered := hkept.filter v.ties
  rw [List.filter_filter] at hfiltered
  simp only [Bool.and_self] at hfiltered
  exact (hfiltered.eq_of_length (hperm.filter v.ties).length_eq.symm).symm

theorem stableSorting_sortList (items : List Value) : StableSorting items (sortList items) where
  perm := List.mergeSort_perm items le
  ascending := ascending_sortList items
  stable := filter_ties_sortList items

/-- An ascending list is its own stable sorting, so sorting it again changes nothing. -/
theorem sortList_of_ascending (h : Ascending items) : sortList items = items :=
  (stableSorting_sortList items).eq ⟨.refl items, h, fun _ => rfl⟩

/-! ## Sortings of the same items -/

/-- The order of values, as one whose laws are in the library. -/
@[reducible]
def preorder : Preorder Value where
  le a b := a.le b = true
  le_refl := le_self
  le_trans := le_of_le_of_le

/-- Ascending lists of the same items tie place by place. Up to ties the order is antisymmetric, and
there the lists are equal. -/
theorem forall₂_ties_of_perm (hs : Ascending sorted) (ho : Ascending other)
    (hperm : sorted.Perm other) : List.Forall₂ (fun a b => cmp a b = .eq) sorted other := by
  let _ : Preorder Value := preorder
  let kind : Value → Antisymmetrization Value (· ≤ ·) := toAntisymmetrization (· ≤ ·)
  have hkinds : sorted.map kind = other.map kind :=
    (hperm.map kind).eq_of_pairwise (fun _ _ _ _ => le_antisymm)
      (List.pairwise_map.mpr hs) (List.pairwise_map.mpr ho)
  have hplaces : List.Forall₂ Eq (sorted.map kind) (other.map kind) :=
    hkinds ▸ List.forall₂_refl _
  rw [List.forall₂_map_left_iff, List.forall₂_map_right_iff] at hplaces
  refine hplaces.imp ?_
  intro a b hab
  exact ties_iff.mp (ties_iff_le_le.mpr (Quotient.exact hab))

end JsonFilter.Value

namespace JsonFilter.Filter

open Value (Ascending StableSorting)

theorem eval_sort (loc : Range) (horizon : Nat) (env : Env) (items : List Value) :
    eval horizon (.call loc .sort []) env (.array items) =
      .value (.array (Value.sortList items)) := by
  simp only [eval, evalArgs, Outputs.value_bind]
  rfl

/-- `sort` takes every array to its one stable sorting: the same items in ascending order, where
those that compare as equal keep their order. So a sorted array is not changed by it, and arrays of
the same items become arrays whose items compare as equal place by place. -/
theorem sort_stable (loc : Range) (horizon : Nat) (env : Env) (items : List Value) :
    ∃ sorted, eval horizon (.call loc .sort []) env (.array items) = .value (.array sorted) ∧
      StableSorting items sorted ∧ (∀ other, StableSorting items other → other = sorted) ∧
      eval horizon (.call loc .sort []) env (.array sorted) = .value (.array sorted) ∧
      ∀ items' : List Value, items'.Perm items →
        ∃ sorted', eval horizon (.call loc .sort []) env (.array items') = .value (.array sorted') ∧
          List.Forall₂ (fun a b => Value.cmp a b = .eq) sorted sorted' := by
  have hsorted := Value.stableSorting_sortList items
  refine ⟨Value.sortList items, eval_sort loc horizon env items, hsorted, ?_, ?_, ?_⟩
  · intro other hother
    exact hother.eq hsorted
  · rw [eval_sort, Value.sortList_of_ascending hsorted.ascending]
  · intro items' hperm
    have hsorted' := Value.stableSorting_sortList items'
    refine ⟨Value.sortList items', eval_sort loc horizon env items', ?_⟩
    apply Value.forall₂_ties_of_perm hsorted.ascending hsorted'.ascending
    exact hsorted.perm.trans (hperm.symm.trans hsorted'.perm.symm)

/-- The two zeros compare as equal and keep their order, here the one and there the other. -/
theorem sort_stable_zeros :
    let zero : Value := .number (.ofBits 0)
    let minus : Value := .number (.ofBits 0x8000000000000000)
    let items := [zero, .bool true, minus]
    let items' := [minus, zero, .bool true]
    items'.Perm items ∧ ∃ sorted sorted',
      eval 0 (.call default .sort []) [] (.array items) = .value (.array sorted) ∧
      sorted.filter zero.ties = [zero, minus] ∧
      eval 0 (.call default .sort []) [] (.array items') = .value (.array sorted') ∧
      List.Forall₂ (fun a b => Value.cmp a b = .eq) sorted sorted' := by
  intro zero minus items items'
  have hperm : items'.Perm items := by
    calc
      items'.Perm [zero, minus, .bool true] := .swap _ _ _
      List.Perm _ items := .cons _ (.swap _ _ _)
  obtain ⟨sorted, hsort, hstable, -, -, hothers⟩ := sort_stable default 0 [] items
  obtain ⟨sorted', hsort', hplaces⟩ := hothers items' hperm
  have hzeros : items.filter zero.ties = [zero, minus] := rfl
  exact ⟨hperm, sorted, sorted', hsort, (hstable.stable zero).trans hzeros, hsort', hplaces⟩

end JsonFilter.Filter
