import JsonFilter.Fields
import JsonFilter.Number.Basic

/-!
The values that filters read and write. Objects keep the order in which their keys came.
-/

namespace JsonFilter

/-- A JSON value. -/
inductive Value where
  | null
  | bool (b : Bool)
  | number (n : Number)
  | string (s : String)
  | array (items : List Value)
  | object (fields : List (String × Value))
  deriving Inhabited

namespace Value

/-- The name of a value's type. -/
def typeName : Value → String
  | .null => "null"
  | .bool _ => "boolean"
  | .number _ => "number"
  | .string _ => "string"
  | .array _ => "array"
  | .object _ => "object"

/-- Everything but `null` and `false` counts as true. -/
def isTruthy : Value → Bool
  | .null => false
  | .bool b => b
  | _ => true

def isNull : Value → Bool
  | .null => true
  | _ => false

def string? : Value → Option String
  | .string s => some s
  | _ => none

def number? : Value → Option Number
  | .number n => some n
  | _ => none

/-- A number of things as a value. -/
def ofNat (n : Nat) : Value := .number (.ofNat n)

mutual

/-- The value with the keys of every object in ascending order. -/
def sortKeys : Value → Value
  | .array items => .array (sortKeysList items)
  | .object fields => .object (Fields.sorted (sortKeysFields fields))
  | .null => .null
  | .bool b => .bool b
  | .number n => .number n
  | .string s => .string s

/-- `sortKeys` on every item. -/
def sortKeysList : List Value → List Value
  | [] => []
  | v :: vs => v.sortKeys :: sortKeysList vs

/-- `sortKeys` on the value of every field. -/
def sortKeysFields : List (String × Value) → List (String × Value)
  | [] => []
  | (k, v) :: fs => (k, v.sortKeys) :: sortKeysFields fs

end

mutual

/-- The value and everything inside it, each value before its parts. -/
def walk : Value → List Value
  | .array items => .array items :: walkList items
  | .object fields => .object fields :: walkFields fields
  | .null => [.null]
  | .bool b => [.bool b]
  | .number n => [.number n]
  | .string s => [.string s]

/-- The walks of the items, in order. -/
def walkList : List Value → List Value
  | [] => []
  | v :: vs => v.walk ++ walkList vs

/-- The walks of the values of the fields, in order. -/
def walkFields : List (String × Value) → List Value
  | [] => []
  | (_, v) :: fs => v.walk ++ walkFields fs

end

end Value

end JsonFilter
