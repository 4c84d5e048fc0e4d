import JsonFilter.Number.Whole
import JsonFilter.Value.Basic

/-!
Plain data: values as the common JSON tools keep them, with ascending keys and finite numbers only.
-/

namespace JsonFilter.Value

mutual

/-- The value with `null` in place of every number that is not finite. -/
def dropNonFinite : Value → Value
  | .number n => if n.isFinite then .number n else .null
  | .array items => .array (dropNonFiniteList items)
  | .object fields => .object (dropNonFiniteFields fields)
  | .null => .null
  | .bool b => .bool b
  | .string s => .string s

/-- `dropNonFinite` on every item. -/
def dropNonFiniteList : List Value → List Value
  | [] => []
  | v :: vs => v.dropNonFinite :: dropNonFiniteList vs

/-- `dropNonFinite` on the value of every field. -/
def dropNonFiniteFields : List (String × Value) → List (String × Value)
  | [] => []
  | (k, v) :: fs => (k, v.dropNonFinite) :: dropNonFiniteFields fs

end

/-- A value as plain data. -/
def toPlain (v : Value) : Value := v.dropNonFinite.sortKeys

/-- The value of plain data that was read from the text of `v`: its keys are sorted. -/
def ofPlain (v : Value) : Value := v.sortKeys

end JsonFilter.Value
