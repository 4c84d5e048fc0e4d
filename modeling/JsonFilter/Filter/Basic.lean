import JsonFilter.Filter.Builtin
import JsonFilter.Text.Position
import JsonFilter.Value.Basic

/-!
The syntax tree of a filter. Every node carries the range of the token that introduced it; a
runtime failure is told by that range, and nothing else depends on it.
-/

namespace JsonFilter

/-- A constant of a filter. -/
inductive Literal where
  | null
  | bool (b : Bool)
  | number (n : Number)
  | string (s : String)
  deriving DecidableEq

namespace Literal

def toValue : Literal → Value
  | .null => .null
  | .bool b => .bool b
  | .number n => .number n
  | .string s => .string s

/-- The literal of a scalar value. -/
def ofValue? : Value → Option Literal
  | .null => some .null
  | .bool b => some (.bool b)
  | .number n => some (.number n)
  | .string s => some (.string s)
  | .array _ => none
  | .object _ => none

end Literal

/-- Operators on two values. -/
inductive BinaryOp where
  | add
  | sub
  | mul
  | div
  | rem
  | eq
  | ne
  | lt
  | le
  | gt
  | ge
  deriving DecidableEq

/-- The spelling of an operator. -/
def BinaryOp.text : BinaryOp → String
  | .add => "+"
  | .sub => "-"
  | .mul => "*"
  | .div => "/"
  | .rem => "%"
  | .eq => "=="
  | .ne => "!="
  | .lt => "<"
  | .le => "<="
  | .gt => ">"
  | .ge => ">="

/-- A filter. -/
inductive Filter where
  /-- `.` -/
  | identity (loc : Range)
  /-- `..` -/
  | recurse (loc : Range)
  | literal (loc : Range) (l : Literal)
  /-- `$name` -/
  | var (loc : Range) (name : String)
  /-- `target[key]` -/
  | index (loc : Range) (target key : Filter)
  /-- `target[low:high]` -/
  | slice (loc : Range) (target : Filter) (low high : Option Filter)
  /-- `target[]` -/
  | iterate (loc : Range) (target : Filter)
  /-- `left | right` -/
  | pipe (loc : Range) (left right : Filter)
  /-- `left, right` -/
  | comma (loc : Range) (left right : Filter)
  /-- `left // right` -/
  | alternative (loc : Range) (left right : Filter)
  /-- `left and right` -/
  | and (loc : Range) (left right : Filter)
  /-- `left or right` -/
  | or (loc : Range) (left right : Filter)
  | binary (loc : Range) (op : BinaryOp) (left right : Filter)
  /-- `-operand` -/
  | negate (loc : Range) (operand : Filter)
  /-- `[body]`, or `[]` without a body -/
  | array (loc : Range) (body : Option Filter)
  /-- An object of keys and values in braces. -/
  | object (loc : Range) (entries : List (Filter × Filter))
  /-- `if test then body elif … else otherwise end` -/
  | cond (loc : Range) (branches : List (Filter × Filter)) (otherwise : Option Filter)
  /-- `try body catch handler` -/
  | attempt (loc : Range) (body : Filter) (handler : Option Filter)
  /-- `source as $name | body` -/
  | bind (loc : Range) (source : Filter) (name : String) (body : Filter)
  | call (loc : Range) (builtin : Builtin) (args : List Filter)

namespace Filter

/-- The range of the token that introduced a filter. -/
def loc : Filter → Range
  | .identity loc => loc
  | .recurse loc => loc
  | .literal loc _ => loc
  | .var loc _ => loc
  | .index loc _ _ => loc
  | .slice loc _ _ _ => loc
  | .iterate loc _ => loc
  | .pipe loc _ _ => loc
  | .comma loc _ _ => loc
  | .alternative loc _ _ => loc
  | .and loc _ _ => loc
  | .or loc _ _ => loc
  | .binary loc _ _ _ => loc
  | .negate loc _ => loc
  | .array loc _ => loc
  | .object loc _ => loc
  | .cond loc _ _ => loc
  | .attempt loc _ _ => loc
  | .bind loc _ _ _ => loc
  | .call loc _ _ => loc

/-- The constant string at a range. -/
def key (loc : Range) (name : String) : Filter := .literal loc (.string name)

end Filter

end JsonFilter
