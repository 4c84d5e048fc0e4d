import JsonFilter.Value.Basic

/-!
Order and equality of values. `null` comes first, then `false`, `true`, numbers, strings, arrays
and objects. Arrays are compared item by item, objects first by their ascending keys and then by
the values in that order, so the order of insertion plays no part. Both relations are defined on
values whose keys are sorted, where they follow the data.
-/

namespace JsonFilter.Value

/-- The place of a value's kind in the order. -/
def rank : Value → Nat
  | .null => 0
  | .bool false => 1
  | .bool true => 2
  | .number _ => 3
  | .string _ => 4
  | .array _ => 5
  | .object _ => 6

/-- Lists of keys, compared key by key; a list comes after its own beginnings. -/
def cmpKeys : List String → List String → Ordering
  | [], [] => .eq
  | [], _ :: _ => .lt
  | _ :: _, [] => .gt
  | a :: as, b :: bs => (compare a b).then (cmpKeys as bs)

mutual

/-- The order on values with sorted keys. -/
def cmpSorted : Value → Value → Ordering
  | .number a, .number b => a.cmp b
  | .string a, .string b => compare a b
  | .array a, .array b => cmpSortedList a b
  | .object a, .object b => (cmpKeys (Fields.keys a) (Fields.keys b)).then (cmpSortedFields a b)
  | a, b => compare a.rank b.rank

/-- Lists of values, compared item by item. -/
def cmpSortedList : List Value → List Value → Ordering
  | [], [] => .eq
  | [], _ :: _ => .lt
  | _ :: _, [] => .gt
  | a :: as, b :: bs => (cmpSorted a b).then (cmpSortedList as bs)

/-- The values of fields with the same keys, compared one by one. -/
def cmpSortedFields : List (String × Value) → List (String × Value) → Ordering
  | (_, a) :: as, (_, b) :: bs => (cmpSorted a b).then (cmpSortedFields as bs)
  | _, _ => .eq

end

/-- The order of values. -/
def cmp (a b : Value) : Ordering := cmpSorted a.sortKeys b.sortKeys

instance : Ord Value := ⟨cmp⟩

mutual

/-- Equality of values with sorted keys. -/
def beqSorted : Value → Value → Bool
  | .null, .null => true
  | .bool a, .bool b => a == b
  | .number a, .number b => a == b
  | .string a, .string b => a == b
  | .array a, .array b => beqSortedList a b
  | .object a, .object b => beqSortedFields a b
  | _, _ => false

/-- Equality item by item. -/
def beqSortedList : List Value → List Value → Bool
  | [], [] => true
  | a :: as, b :: bs => beqSorted a b && beqSortedList as bs
  | _, _ => false

/-- Equality field by field. -/
def beqSortedFields : List (String × Value) → List (String × Value) → Bool
  | [], [] => true
  | (j, a) :: as, (k, b) :: bs => j == k && beqSorted a b && beqSortedFields as bs
  | _, _ => false

end

/-- Equality of values: the order of keys does not matter, and a NaN equals nothing. -/
def beq (a b : Value) : Bool := beqSorted a.sortKeys b.sortKeys

instance : BEq Value := ⟨beq⟩

/-- Whether the first value is not above the second. -/
def le (a b : Value) : Bool := cmp a b != .gt

/-- Whether the first value is below the second. -/
def lt (a b : Value) : Bool := cmp a b == .lt

/-- The values in ascending order; equal ones keep their order. -/
def sortList (values : List Value) : List Value := values.mergeSort le

end JsonFilter.Value
