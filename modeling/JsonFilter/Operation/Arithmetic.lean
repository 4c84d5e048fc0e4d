import JsonFilter.Fault
import JsonFilter.Filter.Basic
import JsonFilter.Operation.Text
import JsonFilter.Value.Order

/-!
The operators on two values. `+` has `null` as its neutral value, joins strings and arrays, and
sets fields; `-` takes items away; `*` repeats strings and merges objects; `/` cuts strings.
-/

namespace JsonFilter.Value

mutual

/-- Sets every field of the second object in the first; objects that meet at a key are merged in
the same way. -/
def mergeFields (left : Fields Value) : List (String × Value) → Fields Value
  | [] => left
  | (k, v) :: rest => mergeFields (left.insert k (mergeOnto (left.get? k) v)) rest

/-- What a key holds after a merge, from what it held before. -/
def mergeOnto (old : Option Value) : Value → Value
  | .object fields =>
    match old with
    | some (.object left) => .object (mergeFields left fields)
    | _ => .object fields
  | .null => .null
  | .bool b => .bool b
  | .number n => .number n
  | .string s => .string s
  | .array items => .array items

end

/-- The sum of two values. -/
def add : Value → Value → Except Fault Value
  | .null, b => .ok b
  | a, .null => .ok a
  | .number a, .number b => .ok (.number (a + b))
  | .string a, .string b => .ok (.string (a ++ b))
  | .array a, .array b => .ok (.array (a ++ b))
  | .object a, .object b => .ok (.object (Fields.insertAll a b))
  | a, b => .error (.invalidOperands .added a b)

/-- The difference of two values: for arrays, the items that equal none of the second. -/
def sub : Value → Value → Except Fault Value
  | .number a, .number b => .ok (.number (a - b))
  | .array a, .array b => .ok (.array (a.filter fun v => !b.any (· == v)))
  | a, b => .error (.invalidOperands .subtracted a b)

/-- A string repeated by a count; `null` for a count below one. -/
def repeatString (s : String) (n : Number) : Except Fault Value :=
  if n.toInt ≤ 0 then .ok .null
  else
    match Text.repeat? s n.toInt.toNat with
    | some t => .ok (.string t)
    | none => .error (.misuse .repeatTooLong)

/-- The product of two values. -/
def mul : Value → Value → Except Fault Value
  | .number a, .number b => .ok (.number (a * b))
  | .string s, .number n => repeatString s n
  | .number n, .string s => repeatString s n
  | .object a, .object b => .ok (.object (mergeFields a b))
  | a, b => .error (.invalidOperands .multiplied a b)

/-- A string cut at a separator. -/
def split (s separator : String) : Value := .array ((Text.split s separator).map .string)

/-- The quotient of two values. -/
def div : Value → Value → Except Fault Value
  | .number a, .number b =>
    if b.isZero then .error (.zeroDivision (.number a) (.number b)) else .ok (.number (a / b))
  | .string s, .string separator => .ok (split s separator)
  | a, b => .error (.invalidOperands .divided a b)

/-- The remainder of the integer parts of two numbers. -/
def rem : Value → Value → Except Fault Value
  | .number a, .number b =>
    if b.toInt = 0 then .error (.zeroDivision (.number a) (.number b)) else .ok (.number (a % b))
  | a, b => .error (.invalidOperands .divided a b)

/-- The negative of a number. -/
def negate : Value → Except Fault Value
  | .number n => .ok (.number (-n))
  | v => .error (.cannotNegate v)

end JsonFilter.Value

namespace JsonFilter

/-- Applies an operator. -/
def BinaryOp.apply (op : BinaryOp) (a b : Value) : Except Fault Value :=
  match op with
  | .add => a.add b
  | .sub => a.sub b
  | .mul => a.mul b
  | .div => a.div b
  | .rem => a.rem b
  | .eq => .ok (.bool (a == b))
  | .ne => .ok (.bool (!(a == b)))
  | .lt => .ok (.bool (a.lt b))
  | .le => .ok (.bool (a.le b))
  | .gt => .ok (.bool (b.lt a))
  | .ge => .ok (.bool (b.le a))

end JsonFilter
